import Mathlib.Tactic

/-! # Linked lists in a store

A store gives every node the node after it, or nothing. -/

namespace OpenWatcom.Chains

open Finset

variable {α : Type*} {next next' : α → Option α} {p q : Option α} {l m : List α}

/-- The links lead from `p` through the nodes of the list to `q`. -/
def Path (next : α → Option α) : Option α → List α → Option α → Prop
  | p, [], q => p = q
  | p, a :: l, q => p = some a ∧ Path next (next a) l q

/-- The list that starts at `p` and ends with nothing. -/
abbrev Chain (next : α → Option α) (p : Option α) (l : List α) : Prop := Path next p l none

@[simp] theorem path_nil : Path next p [] q ↔ p = q := Iff.rfl

@[simp] theorem path_cons {a : α} : Path next p (a :: l) q ↔ p = some a ∧ Path next (next a) l q := Iff.rfl

theorem path_append : Path next p (l ++ m) q ↔ ∃ r, Path next p l r ∧ Path next r m q := by
  induction l generalizing p with
  | nil => simp
  | cons a l ih => simp [ih, and_assoc]

theorem Path.congr (h : Path next p l q) (hn : ∀ a ∈ l, next' a = next a) : Path next' p l q := by
  induction l generalizing p with
  | nil => exact h
  | cons a l ih =>
      obtain ⟨rfl, h⟩ := h
      refine ⟨rfl, ?_⟩
      rw [hn a (by simp)]
      exact ih h fun b hb => hn b (List.mem_cons_of_mem a hb)

theorem Chain.unique (h : Chain next p l) (h' : Chain next p m) : l = m := by
  induction l generalizing p m with
  | nil =>
      subst h
      cases m with
      | nil => rfl
      | cons b m => exact nomatch h'.1
  | cons a l ih =>
      obtain ⟨rfl, h⟩ := h
      cases m with
      | nil => exact nomatch h'
      | cons b m =>
          obtain ⟨hb, h'⟩ := h'
          obtain rfl := Option.some.inj hb
          rw [ih h h']

/-- A node of the list starts the rest of it. -/
theorem Path.split {a : α} (h : Path next p l q) (ha : a ∈ l) :
    ∃ u v, l = u ++ a :: v ∧ Path next p u (some a) ∧ Path next (some a) (a :: v) q := by
  obtain ⟨u, v, rfl⟩ := List.append_of_mem ha
  obtain ⟨r, hu, hv⟩ := path_append.mp h
  obtain rfl := hv.1
  exact ⟨u, v, rfl, hu, hv⟩

theorem Chain.nodup (h : Chain next p l) : l.Nodup := by
  induction l generalizing p with
  | nil => exact List.nodup_nil
  | cons a l ih =>
      refine List.nodup_cons.mpr ⟨fun ha => ?_, ih h.2⟩
      obtain ⟨u, v, rfl, -, hv⟩ := Path.split h.2 ha
      have heq : u ++ a :: v = v := Chain.unique h.2 hv.2
      have hlen := congrArg List.length heq
      simp only [List.length_append, List.length_cons] at hlen
      omega

theorem Chain.ne_nil {a : α} (h : Chain next (some a) l) : ∃ t, l = a :: t := by
  cases l with
  | nil => exact nomatch h
  | cons b t =>
      obtain rfl := Option.some.inj h.1
      exact ⟨t, rfl⟩

theorem Chain.head_mem {a : α} (h : Chain next (some a) l) : a ∈ l := by
  obtain ⟨t, rfl⟩ := h.ne_nil
  exact List.mem_cons_self

/-- The links of the set stay in the set. -/
def Closed (Y : Finset α) (next : α → Option α) : Prop := ∀ a ∈ Y, ∀ b, next a = some b → b ∈ Y

/-- From `a` the links go on in a finite set without an end. -/
def Endless (next : α → Option α) (a : α) : Prop := ∃ Z : Finset α, a ∈ Z ∧ ∀ x ∈ Z, ∃ y ∈ Z, next x = some y

/-- A pointer into a finite closed set starts a list, or the links do not end. -/
theorem Closed.chain_or_endless {Y : Finset α} (hY : Closed Y next) {a : α} (ha : a ∈ Y) :
    (∃ l, Chain next (some a) l) ∨ Endless next a := by
  classical
  by_cases hc : ∃ l, Chain next (some a) l
  · exact .inl hc
  · refine .inr ⟨{x ∈ Y | ¬ ∃ l, Chain next (some x) l}, Finset.mem_filter.mpr ⟨ha, hc⟩, fun x hx => ?_⟩
    simp only [Finset.mem_filter] at hx ⊢
    cases hn : next x with
    | none => exact absurd ⟨[x], rfl, hn⟩ hx.2
    | some y =>
        refine ⟨y, ⟨hY x hx.1 y hn, ?_⟩, rfl⟩
        rintro ⟨l, hl⟩
        exact hx.2 ⟨x :: l, rfl, hn ▸ hl⟩

/-- A list that ends does not meet links that do not. -/
theorem Chain.not_mem_endless {Z : Finset α} (hZ : ∀ x ∈ Z, ∃ y ∈ Z, next x = some y) (h : Chain next p l) :
    ∀ a ∈ l, a ∉ Z := by
  induction l generalizing p with
  | nil => exact fun a ha => nomatch ha
  | cons b l ih =>
      intro a ha haZ
      have htail := ih h.2
      obtain rfl | ha := List.mem_cons.mp ha
      · obtain ⟨y, hy, hay⟩ := hZ a haZ
        have hl : Chain next (some y) l := hay ▸ h.2
        exact htail y hl.head_mem hy
      · exact htail a ha haZ

theorem not_chain_of_endless {a : α} (h : Endless next a) : ¬ Chain next (some a) l := by
  obtain ⟨Z, ha, hZ⟩ := h
  exact fun hl => hl.not_mem_endless hZ a hl.head_mem ha

/-- One for nothing. -/
def null (p : Option α) : ℕ := if p.isNone then 1 else 0

@[simp] theorem null_none : null (none : Option α) = 1 := rfl

@[simp] theorem null_some (a : α) : null (some a) = 0 := rfl

theorem null_le (p : Option α) : null p ≤ 1 := by cases p <;> simp

/-- How many nodes of the set have nothing after them. -/
def nulls (Y : Finset α) (next : α → Option α) : ℕ := ∑ a ∈ Y, null (next a)

theorem nulls_eq_zero {Y : Finset α} (h : ∀ x ∈ Y, ∃ y ∈ Y, next x = some y) : nulls Y next = 0 := by
  refine Finset.sum_eq_zero fun x hx => ?_
  obtain ⟨y, -, hxy⟩ := h x hx
  simp [hxy]

theorem Closed.endless {Y : Finset α} (hY : Closed Y next) (h : nulls Y next = 0) {a : α} (ha : a ∈ Y) :
    Endless next a := by
  refine ⟨Y, ha, fun x hx => ?_⟩
  have hx0 : null (next x) = 0 := (Finset.sum_eq_zero_iff.mp h) x hx
  cases hn : next x with
  | none => simp [hn] at hx0
  | some y => exact ⟨y, hY x hx y hn, rfl⟩

theorem closed_of_endless {Z : Finset α} (hZ : ∀ x ∈ Z, ∃ y ∈ Z, next x = some y) : Closed Z next := by
  intro x hx b hb
  obtain ⟨y, hy, hxy⟩ := hZ x hx
  obtain rfl := Option.some.inj (hb.symm.trans hxy)
  exact hy

section DecEq

variable [DecidableEq α]

theorem Closed.union {Y Z : Finset α} (hY : Closed Y next) (hZ : Closed Z next) : Closed (Y ∪ Z) next := by
  intro a ha b hb
  obtain ha | ha := Finset.mem_union.mp ha
  · exact Finset.mem_union_left Z (hY a ha b hb)
  · exact Finset.mem_union_right Y (hZ a ha b hb)

theorem nulls_union_le (next : α → Option α) (Y Z : Finset α) : nulls (Y ∪ Z) next ≤ nulls Y next + nulls Z next := by
  have h : nulls (Y ∪ Z) next + nulls (Y ∩ Z) next = nulls Y next + nulls Z next := Finset.sum_union_inter
  omega

theorem Path.closed {Y : Finset α} (h : Path next p l q) (hY : Closed Y next) (hq : ∀ a, q = some a → a ∈ Y) :
    Closed (l.toFinset ∪ Y) next := by
  induction l generalizing p with
  | nil => simpa using hY
  | cons a l ih =>
      obtain ⟨rfl, h⟩ := h
      have hl := ih h
      intro x hx b hb
      simp only [List.toFinset_cons, Finset.mem_union, Finset.mem_insert, List.mem_toFinset] at hx ⊢
      obtain (rfl | hx) | hx := hx
      · cases l with
        | nil => exact .inr (hq b (by rw [← hb]; exact h.symm))
        | cons c l =>
            obtain rfl : c = b := Option.some.inj (h.1.symm.trans hb)
            exact .inl (.inr List.mem_cons_self)
      · have := hl x (by simp [hx]) b hb
        simp only [Finset.mem_union, List.mem_toFinset] at this
        exact this.imp .inr id
      · exact .inr (hY x hx b hb)

theorem Path.nulls_le {Y : Finset α} {b : α} (h : Path next p l (some b)) :
    nulls (l.toFinset ∪ Y) next ≤ nulls Y next := by
  have hl : nulls l.toFinset next = 0 := by
    refine Finset.sum_eq_zero fun x hx => ?_
    obtain ⟨u, v, -, -, hv⟩ := h.split (List.mem_toFinset.mp hx)
    cases v with
    | nil => simp [show next x = some b from hv.2]
    | cons c v => simp [show next x = some c from hv.2.1]
  have := nulls_union_le next l.toFinset Y
  omega

theorem Chain.closed (h : Chain next p l) : Closed l.toFinset next := by
  have := Path.closed (Y := ∅) h (fun a ha => absurd ha (Finset.notMem_empty a)) (fun a ha => nomatch ha)
  simpa using this

theorem Chain.nulls_le (h : Chain next p l) : nulls l.toFinset next ≤ 1 := by
  induction l generalizing p with
  | nil => simp [nulls]
  | cons a l ih =>
      obtain ⟨rfl, h⟩ := h
      cases l with
      | nil => simpa [nulls] using null_le (next a)
      | cons b l =>
          have hstep : nulls ([a].toFinset ∪ (b :: l).toFinset) next ≤ nulls (b :: l).toFinset next :=
            Path.nulls_le (p := some a) ⟨rfl, h.1⟩
          have := ih h
          simp only [List.toFinset_cons (a := a), List.toFinset_nil, insert_empty_eq] at hstep ⊢
          rw [Finset.insert_eq]
          omega

theorem nulls_update (next : α → Option α) {Y : Finset α} {a : α} (ha : a ∈ Y) (v : Option α) :
    nulls Y (Function.update next a v) + null (next a) = nulls Y next + null v := by
  have hrest : ∑ x ∈ Y.erase a, null (Function.update next a v x) = ∑ x ∈ Y.erase a, null (next x) :=
    Finset.sum_congr rfl fun x hx => by rw [Function.update_of_ne (Finset.ne_of_mem_erase hx)]
  have h1 := Finset.add_sum_erase Y (fun x => null (Function.update next a v x)) ha
  have h2 := Finset.add_sum_erase Y (fun x => null (next x)) ha
  simp only [Function.update_self] at h1
  simp only [nulls]
  omega

theorem Closed.update {Y : Finset α} {a : α} {v : Option α} (hY : Closed Y next) (hv : ∀ b, v = some b → b ∈ Y) :
    Closed Y (Function.update next a v) := by
  intro x hx b hb
  obtain rfl | hxa := eq_or_ne x a
  · exact hv b (by simpa using hb)
  · exact hY x hx b (by simpa [hxa] using hb)

end DecEq

section Merge

variable {before : α → α → Bool} {r : α → α → Prop}

theorem sublist_merge_right (before : α → α → Bool) (l m : List α) : m.Sublist (l.merge m before) := by
  induction l, m using List.merge.induct before with
  | case1 m => simp
  | case2 l => simp
  | case3 a l b m h ih =>
      rw [List.cons_merge_cons_pos _ _ _ h]
      exact ih.cons a
  | case4 a l b m h ih =>
      rw [List.cons_merge_cons_neg _ _ _ h]
      exact ih.cons_cons b

/-- Merging by the strict part of a preorder keeps lists in order. -/
theorem merge_sorted (hr : ∀ a b c, r a b → r b c → r a c) (hb : ∀ a b, before a b → r a b)
    (hn : ∀ a b, ¬ before a b → r b a) :
    ∀ l m : List α, l.Pairwise r → m.Pairwise r → (l.merge m before).Pairwise r := by
  intro l m
  induction l, m using List.merge.induct before with
  | case1 m => simp
  | case2 l => simp
  | case3 a l b m h ih =>
      intro hl hm
      rw [List.cons_merge_cons_pos _ _ _ h, List.pairwise_cons]
      refine ⟨fun x hx => ?_, ih hl.of_cons hm⟩
      obtain hx | hx := List.mem_merge.mp hx
      · exact List.rel_of_pairwise_cons hl hx
      · obtain rfl | hx := List.mem_cons.mp hx
        · exact hb a x h
        · exact hr a b x (hb a b h) (List.rel_of_pairwise_cons hm hx)
  | case4 a l b m h ih =>
      intro hl hm
      rw [List.cons_merge_cons_neg _ _ _ h, List.pairwise_cons]
      refine ⟨fun x hx => ?_, ih hl hm.of_cons⟩
      obtain hx | hx := List.mem_merge.mp hx
      · obtain rfl | hx := List.mem_cons.mp hx
        · exact hn x b h
        · exact hr b a x (hn a b h) (List.rel_of_pairwise_cons hl hx)
      · exact List.rel_of_pairwise_cons hm hx

end Merge

end OpenWatcom.Chains
