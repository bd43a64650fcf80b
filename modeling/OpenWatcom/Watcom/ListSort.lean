import OpenWatcom.Lib.Chains

/-! # Sorting linked lists

`SortLinkedList` of the compiler and `SortList` of the code generator. The pointers of a piece are sorted in an array;
a piece that gets no array is sorted in two halves, and a piece of one node that gets none is left as it is. The first
half is not cut off from the second one: only the arrays do that.

* `Links.mergeLoop_chain`, `Links.mergeLoop_nulls`: the merge of two lists, and the merge of two pointers into any set;
* `pattern`: which of the pieces get an array;
* `Sorter.doSortList_chain`, `Sorter.doSortList_endless`: what is returned for each pattern. -/

namespace OpenWatcom.Watcom

open Chains

variable {α : Type*} [DecidableEq α]

/-- The links of the nodes, and the variable `list`. -/
structure Links (α : Type*) where
  next : α → Option α
  list : Option α

namespace Links

/-- The pointer that `owner` points to: `list` at first, then the link of a node. -/
def owned (s : Links α) : Option α → Option α
  | none => s.list
  | some a => s.next a

/-- `*owner = v`. -/
def assign (s : Links α) (owner v : Option α) : Links α :=
  match owner with
  | none => { s with list := v }
  | some a => { s with next := Function.update s.next a v }

@[simp] theorem assign_none (s : Links α) (v : Option α) : s.assign none v = ⟨s.next, v⟩ := rfl

@[simp] theorem assign_some (s : Links α) (a : α) (v : Option α) :
    s.assign (some a) v = ⟨Function.update s.next a v, s.list⟩ := rfl

/-- `*owner = list1`, then the first node is taken off `list1`; that is also how `BuildList` goes on. -/
def take (s : Links α) (owner : Option α) (a : α) : Links α := (s.assign owner (some a)).assign (some a) none

/-- The loop of `MergeList`. -/
def mergeLoop (before : α → α → Bool) :
    ℕ → Links α → Option α → Option α → Option α → Option (Links α)
  | 0, _, _, _, _ => none
  | _ + 1, s, _, none, none => some s
  | _ + 1, s, owner, some a, none => some (s.assign owner (some a))
  | _ + 1, s, owner, none, some b => some (s.assign owner (some b))
  | n + 1, s, owner, some a, some b =>
    if before a b then
      mergeLoop before n (s.take owner a) (some a) ((s.assign owner (some a)).next a) (some b)
    else
      mergeLoop before n (s.take owner b) (some b) (some a) ((s.assign owner (some b)).next b)

/-- The loop of `BuildList`. -/
def buildLoop : List α → Links α → Option α → Links α
  | [], s, _ => s
  | a :: array, s, owner => buildLoop array (s.take owner a) (some a)

end Links

/-- `MergeList`. -/
def mergeList (before : α → α → Bool) (fuel : ℕ) (next : α → Option α) (list1 list2 : Option α) : Option (Links α) :=
  Links.mergeLoop before fuel ⟨next, none⟩ none list1 list2

/-- `BuildList`. -/
def buildList (next : α → Option α) (array : List α) : Links α := Links.buildLoop array ⟨next, none⟩ none

/-- The pointers that the loop over a list stores, `none` when it follows `NULL`. -/
def collect (next : α → Option α) : ℕ → Option α → Option (List α)
  | 0, _ => some []
  | _ + 1, none => none
  | n + 1, some a => (collect next n (next a)).map (a :: ·)

/-- The pointer that many steps on, `none` when the loop follows `NULL`. -/
def skip (next : α → Option α) : ℕ → Option α → Option (Option α)
  | 0, p => some p
  | _ + 1, none => none
  | n + 1, some a => skip next n (next a)

/-- How nodes are compared, how an array of pointers is sorted, and whether an array of a length is allocated at a call
of the allocation routine, with the number of the next call. -/
structure Sorter (α : Type*) where
  before : α → α → Bool
  sortArray : ℕ → List α → Option (List α)
  tryAlloc : ℕ → ℕ → Bool × ℕ

namespace Sorter

/-- `DoSortList`, with the number of the next call of the allocation routine: the links, the list, and that number. -/
def doSortList (w : Sorter α) (fuel : ℕ) (next : α → Option α) (list : Option α) (length call : ℕ) :
    Option (Links α × ℕ) :=
  match list with
  | none => some (⟨next, none⟩, call)
  | some p =>
    if (w.tryAlloc call length).1 then
      (collect next length (some p)).bind fun array =>
      (w.sortArray fuel array).map fun array => (buildList next array, (w.tryAlloc call length).2)
    else if h : length / 2 = 0 then
      some (⟨next, some p⟩, (w.tryAlloc call length).2)
    else
      (skip next (length / 2) (some p)).bind fun list2 =>
      (w.doSortList fuel next (some p) (length / 2) (w.tryAlloc call length).2).bind fun r1 =>
      (w.doSortList fuel r1.1.next list2 (length - length / 2) r1.2).bind fun r2 =>
      (mergeList w.before fuel r2.1.next r1.1.list r2.1.list).map fun s => (s, r2.2)
termination_by length

end Sorter

/-- Every piece of one node gets an array; all but the last node of the list; not so. -/
inductive Outcome
  | allocated
  | tail
  | broken
deriving DecidableEq, Repr

/-- The two halves of a piece. -/
def Outcome.halves : Outcome → Outcome → Outcome
  | .allocated, right => right
  | _, _ => .broken

/-- Which of the pieces of a list of that length get an array, with the number of the next call. -/
def pattern (tryAlloc : ℕ → ℕ → Bool × ℕ) (length call : ℕ) : Outcome × ℕ :=
  if (tryAlloc call length).1 then (.allocated, (tryAlloc call length).2)
  else if h : length / 2 = 0 then (.tail, (tryAlloc call length).2)
  else
    (Outcome.halves (pattern tryAlloc (length / 2) (tryAlloc call length).2).1
        (pattern tryAlloc (length - length / 2) (pattern tryAlloc (length / 2) (tryAlloc call length).2).2).1,
      (pattern tryAlloc (length - length / 2) (pattern tryAlloc (length / 2) (tryAlloc call length).2).2).2)
termination_by length

variable {next : α → Option α} {before : α → α → Bool}

namespace Links

variable {s s' : Links α} {owner list1 list2 : Option α} {Y : Finset α}

theorem take_next_of_ne {a x : α} (hx : x ≠ a) (ho : owner ≠ some x) : (s.take owner a).next x = s.next x := by
  cases owner with
  | none => simp [take, hx]
  | some o =>
      have hxo : x ≠ o := fun h => ho (by rw [h])
      simp [take, hx, hxo]

@[simp] theorem take_next_self (a : α) : (s.take owner a).next a = none := by
  cases owner <;> simp [take]

theorem take_owned {a : α} (ho : owner ≠ some a) : (s.take owner a).owned owner = some a := by
  cases owner with
  | none => simp [take, owned]
  | some o =>
      have hoa : o ≠ a := fun h => ho (by rw [h])
      simp [take, owned, hoa]

theorem take_list {a : α} (ho : owner ≠ none) : (s.take owner a).list = s.list := by
  cases owner with
  | none => exact absurd rfl ho
  | some o => rfl

theorem assign_next_of_ne {x : α} {v : Option α} (ho : owner ≠ some x) : (s.assign owner v).next x = s.next x := by
  cases owner with
  | none => rfl
  | some o =>
      have hxo : x ≠ o := fun h => ho (by rw [h])
      simp [hxo]

/-- What a loop that writes at `owner` and at nodes of a list leaves as it was. -/
structure Frame (s s' : Links α) (owner : Option α) (l : List α) : Prop where
  next : ∀ x ∉ l, owner ≠ some x → s'.next x = s.next x
  list : owner ≠ none → s'.list = s.list

/-- After a node is taken, a loop goes on at its link. -/
theorem Frame.of_take {a : α} {l m : List α} (h : Frame (s.take owner a) s' (some a) l) (ha : a ∈ m)
    (hl : ∀ x ∈ l, x ∈ m) : Frame s s' owner m where
  next x hx ho := by
    have hxa : x ≠ a := fun h => hx (h ▸ ha)
    rw [h.next x (fun hxl => hx (hl x hxl)) (fun h => hxa (Option.some.inj h).symm), take_next_of_ne hxa ho]
  list ho := by rw [h.list (by simp), take_list ho]

theorem Frame.owned {a : α} {l : List α} (h : Frame (s.take owner a) s' (some a) l) (ho : owner ≠ some a)
    (hl : ∀ o ∈ l, owner ≠ some o) : s'.owned owner = some a := by
  rw [← take_owned (s := s) ho]
  cases owner with
  | none => exact h.list (by simp)
  | some o => exact h.next o (fun hol => hl o hol rfl) (fun h => ho h.symm)

/-- `MergeList` of two lists that share no node. -/
theorem mergeLoop_chain (n : ℕ) (S1 S2 : List α) (h1 : Chain s.next list1 S1) (h2 : Chain s.next list2 S2)
    (hd : (S1 ++ S2).Nodup) (ho : ∀ o ∈ S1 ++ S2, owner ≠ some o) (hnull : s.owned owner = none)
    (hn : S1.length + S2.length < n) :
    ∃ s', mergeLoop before n s owner list1 list2 = some s' ∧
      Chain s'.next (s'.owned owner) (S1.merge S2 before) ∧ Frame s s' owner (S1 ++ S2) := by
  induction n generalizing s owner list1 list2 S1 S2 with
  | zero => omega
  | succ n ih =>
      have hlast {p : Option α} {a : α} {S : List α} (hp : Chain s.next (some a) S) (hS : ∀ o ∈ S, owner ≠ some o) :
          Chain (s.assign owner (some a)).next ((s.assign owner (some a)).owned owner) S := by
        have : Chain (s.assign owner (some a)).next (some a) S :=
          hp.congr fun x hx => assign_next_of_ne (hS x hx)
        cases owner with
        | none => simpa [owned] using this
        | some o => simpa [owned] using this
      have hframe {a : α} {m : List α} : Frame s (s.assign owner (some a)) owner m := by
        refine ⟨fun x _ hx => assign_next_of_ne hx, fun ho => ?_⟩
        cases owner with
        | none => exact absurd rfl ho
        | some o => rfl
      match S1, S2, list1, list2 with
      | [], [], _, _ =>
          obtain rfl : _ = none := h1
          obtain rfl : _ = none := h2
          exact ⟨s, rfl, by simpa using hnull, fun x _ _ => rfl, fun _ => rfl⟩
      | a :: S1, [], _, _ =>
          obtain rfl : _ = none := h2
          obtain rfl := h1.1
          exact ⟨_, rfl, by simpa using hlast (p := none) h1 (by simpa using ho), hframe⟩
      | [], b :: S2, _, _ =>
          obtain rfl : _ = none := h1
          obtain rfl := h2.1
          exact ⟨_, rfl, by simpa using hlast (p := none) h2 (by simpa using ho), hframe⟩
      | a :: S1, b :: S2, _, _ =>
          obtain rfl := h1.1
          obtain rfl := h2.1
          -- a list that is not the one a node is taken from, and the rest of that one
          have hother {c : α} {p : Option α} {S : List α} (hS : Chain s.next p S) (hc : c ∉ S)
              (hoS : ∀ o ∈ S, owner ≠ some o) : Chain (s.take owner c).next p S :=
            hS.congr fun x hx => take_next_of_ne (fun h => hc (h ▸ hx)) (hoS x hx)
          have hnext {c : α} (hc : owner ≠ some c) : (s.assign owner (some c)).next c = s.next c :=
            assign_next_of_ne hc
          simp only [mergeLoop]
          by_cases hb : before a b
          · have hao : owner ≠ some a := ho a (by simp)
            obtain ⟨s', hs', hc, hf⟩ := @ih (s.take owner a) (some a) _ _ S1 (b :: S2)
              (hother (hnext hao ▸ h1.2) (by simp at hd; tauto) fun o h => ho o (by simp [h]))
              (hother h2 (by simp at hd ⊢; tauto) fun o h => ho o (List.mem_append_right _ h))
              (by simp at hd ⊢; tauto) (by simp at hd ⊢; grind) (by simp [owned])
              (by simp at hn ⊢; omega)
            refine ⟨s', by rw [if_pos hb, hs'], ?_, hf.of_take (by simp) (by simp; tauto)⟩
            rw [List.cons_merge_cons_pos _ _ _ hb]
            exact ⟨hf.owned hao (fun o h => ho o (by simp at h ⊢; tauto)), hc⟩
          · have hbo : owner ≠ some b := ho b (by simp)
            obtain ⟨s', hs', hc, hf⟩ := @ih (s.take owner b) (some b) _ _ (a :: S1) S2
              (hother h1 (by simp at hd ⊢; grind) fun o h => ho o (by simp at h ⊢; tauto))
              (hother (hnext hbo ▸ h2.2) (by simp at hd; grind) fun o h => ho o (by simp [h]))
              (by simp at hd ⊢; grind) (by simp at hd ⊢; grind) (by simp [owned])
              (by simp at hn ⊢; omega)
            refine ⟨s', by rw [if_neg hb, hs'], ?_, hf.of_take (by simp) (by simp; grind)⟩
            rw [List.cons_merge_cons_neg _ _ _ hb]
            exact ⟨hf.owned hbo (fun o h => ho o (by simp at h ⊢; tauto)), hc⟩

/-- What a loop leaves of a closed set: links that go out of the set are not made, and others are not changed. -/
structure Stays (Y : Finset α) (s s' : Links α) : Prop where
  closed : Closed Y s'.next
  outside : ∀ x ∉ Y, s'.next x = s.next x

/-- A loop writes at the end of what it has built: at `list`, or at a link of the set that is `NULL`. -/
def Ends (Y : Finset α) (s : Links α) (owner : Option α) : Prop := ∀ o, owner = some o → o ∈ Y ∧ s.next o = none

theorem assign_stays {a : α} (hY : Closed Y s.next) (ho : Ends Y s owner) (ha : a ∈ Y) :
    Stays Y s (s.assign owner (some a)) := by
  cases owner with
  | none => exact ⟨hY, fun x _ => rfl⟩
  | some o =>
      refine ⟨hY.update fun b hb => Option.some.inj hb ▸ ha, fun x hx => ?_⟩
      exact assign_next_of_ne fun h => hx (Option.some.inj h ▸ (ho o rfl).1)

theorem assign_nulls {a : α} (ho : Ends Y s owner) :
    nulls Y (s.assign owner (some a)).next + 1 = nulls Y s.next + null owner := by
  cases owner with
  | none => simp
  | some o =>
      have := nulls_update s.next (ho o rfl).1 (some a)
      simpa [(ho o rfl).2] using this

theorem take_stays {a : α} (hY : Closed Y s.next) (ho : Ends Y s owner) (ha : a ∈ Y) : Stays Y s (s.take owner a) := by
  have h := assign_stays hY ho ha
  refine ⟨h.closed.update fun b hb => (nomatch hb), fun x hx => ?_⟩
  exact take_next_of_ne (fun h => hx (h ▸ ha)) fun h => hx (ho x h).1

theorem take_nulls {a : α} (ho : Ends Y s owner) (ha : a ∈ Y) :
    nulls Y (s.take owner a).next + null ((s.assign owner (some a)).next a) = nulls Y s.next + null owner := by
  have h := nulls_update (s.assign owner (some a)).next ha none
  have := assign_nulls (a := a) ho
  simp only [null_none] at h
  simp only [take, assign_some]
  omega

theorem take_ends {a : α} (ha : a ∈ Y) : Ends Y (s.take owner a) (some a) := by
  rintro o h
  obtain rfl := Option.some.inj h
  exact ⟨ha, take_next_self a⟩

omit [DecidableEq α] in
theorem Stays.trans {s'' : Links α} (h : Stays Y s s') (h' : Stays Y s' s'') : Stays Y s s'' :=
  ⟨h'.closed, fun x hx => (h'.outside x hx).trans (h.outside x hx)⟩

/-- `MergeList` of any two pointers into a closed set: it ends when it has come to two of its `NULL` links, of which
one is left. -/
theorem mergeLoop_nulls (n : ℕ) (hY : Closed Y s.next) (h1 : ∀ a, list1 = some a → a ∈ Y)
    (h2 : ∀ a, list2 = some a → a ∈ Y) (ho : Ends Y s owner) (hone : null list1 + null list2 ≤ 1)
    (h : mergeLoop before n s owner list1 list2 = some s') :
    Stays Y s s' ∧ nulls Y s'.next + 2 = nulls Y s.next + null list1 + null list2 + null owner ∧
      (owner ≠ none → s'.list = s.list) ∧ (owner = none → ∃ a ∈ Y, s'.list = some a) := by
  induction n generalizing s owner list1 list2 with
  | zero => exact nomatch h
  | succ n ih =>
      have hlast {a : α} (ha : a ∈ Y) (hs : s.assign owner (some a) = s') :
          Stays Y s s' ∧ nulls Y s'.next + 2 = nulls Y s.next + 1 + null owner ∧
            (owner ≠ none → s'.list = s.list) ∧ (owner = none → ∃ a ∈ Y, s'.list = some a) := by
        subst hs
        refine ⟨assign_stays hY ho ha, by have := assign_nulls (a := a) ho; omega, fun h => ?_, fun h => ?_⟩
        · cases owner with
          | none => exact absurd rfl h
          | some o => rfl
        · subst h
          exact ⟨a, ha, rfl⟩
      have hstep {a : α} {l1 l2 : Option α} (ha : a ∈ Y) (hl1 : ∀ a, l1 = some a → a ∈ Y)
          (hl2 : ∀ a, l2 = some a → a ∈ Y) (hl : null l1 + null l2 = null ((s.assign owner (some a)).next a))
          (hs : mergeLoop before n (s.take owner a) (some a) l1 l2 = some s') :
          Stays Y s s' ∧ nulls Y s'.next + 2 = nulls Y s.next + null owner ∧
            (owner ≠ none → s'.list = s.list) ∧ (owner = none → ∃ a ∈ Y, s'.list = some a) := by
        have htake := take_stays hY ho ha
        have hcount := take_nulls ho ha
        obtain ⟨hst, hnulls, hlist, -⟩ := ih htake.closed hl1 hl2 (take_ends ha) (hl ▸ null_le _) hs
        refine ⟨htake.trans hst, by simp only [null_some] at hnulls; omega, fun h => ?_, fun h => ?_⟩
        · rw [hlist (by simp), take_list h]
        · subst h
          exact ⟨a, ha, hlist (by simp)⟩
      have hin {a : α} (ha : a ∈ Y) : ∀ b, (s.assign owner (some a)).next a = some b → b ∈ Y :=
        (assign_stays hY ho ha).closed a ha
      match list1, list2 with
      | none, none => simp at hone
      | some a, none => simpa using hlast (h1 a rfl) (Option.some.inj h)
      | none, some b => simpa using hlast (h2 b rfl) (Option.some.inj h)
      | some a, some b =>
          simp only [mergeLoop] at h
          split at h
          · simpa using hstep (h1 a rfl) (hin (h1 a rfl)) h2 (by simp) h
          · simpa using hstep (h2 b rfl) h1 (hin (h2 b rfl)) (by simp) h

theorem buildLoop_chain (array : List α) (hd : array.Nodup) (ho : ∀ o ∈ array, owner ≠ some o)
    (hnull : s.owned owner = none) :
    Chain (buildLoop array s owner).next ((buildLoop array s owner).owned owner) array ∧
      Frame s (buildLoop array s owner) owner array := by
  induction array generalizing s owner with
  | nil => exact ⟨hnull, fun x _ _ => rfl, fun _ => rfl⟩
  | cons a array ih =>
      obtain ⟨ha, hd⟩ := List.nodup_cons.mp hd
      obtain ⟨hc, hf⟩ := @ih (s.take owner a) (some a) hd
        (fun o h he => ha (Option.some.inj he ▸ h)) (by simp [owned])
      have hao : owner ≠ some a := ho a List.mem_cons_self
      refine ⟨⟨hf.owned hao fun o h => ho o (List.mem_cons_of_mem a h), hc⟩, ?_⟩
      exact hf.of_take List.mem_cons_self fun x hx => List.mem_cons_of_mem a hx

theorem buildLoop_nulls (array : List α) (hY : Closed Y s.next) (ho : Ends Y s owner) (ha : ∀ a ∈ array, a ∈ Y) :
    Stays Y s (buildLoop array s owner) ∧ nulls Y (buildLoop array s owner).next ≤ nulls Y s.next + null owner ∧
      (owner ≠ none → (buildLoop array s owner).list = s.list) ∧
      (owner = none → array ≠ [] → ∃ a ∈ Y, (buildLoop array s owner).list = some a) := by
  induction array generalizing s owner with
  | nil => exact ⟨⟨hY, fun x _ => rfl⟩, by simp [buildLoop], fun _ => rfl, fun _ h => absurd rfl h⟩
  | cons a array ih =>
      have haY : a ∈ Y := ha a List.mem_cons_self
      have htake := take_stays hY ho haY
      have hcount := take_nulls ho haY
      obtain ⟨hst, hnulls, hlist, -⟩ := ih htake.closed (take_ends haY) fun x hx => ha x (List.mem_cons_of_mem a hx)
      refine ⟨htake.trans hst, ?_, fun h => ?_, fun h _ => ?_⟩
      · simp only [null_some] at hnulls
        simp only [buildLoop]
        omega
      · simp only [buildLoop]
        rw [hlist (by simp), take_list h]
      · subst h
        exact ⟨a, haY, hlist (by simp)⟩

end Links

section Walks

variable {p q : Option α} {C array : List α} {Y : Finset α}

omit [DecidableEq α] in
theorem collect_chain (hC : Chain next p C) {n : ℕ} (hn : n ≤ C.length) : collect next n p = some (C.take n) := by
  induction n generalizing p C with
  | zero => simp [collect]
  | succ n ih =>
      cases C with
      | nil => simp at hn
      | cons a C =>
          obtain ⟨rfl, hC⟩ := hC
          simp [collect, ih hC (by simpa using hn)]

omit [DecidableEq α] in
theorem collect_mem (hY : Closed Y next) (hp : ∀ a, p = some a → a ∈ Y) {n : ℕ}
    (h : collect next n p = some array) : array.length = n ∧ ∀ a ∈ array, a ∈ Y := by
  induction n generalizing p array with
  | zero =>
      obtain rfl := Option.some.inj h
      simp
  | succ n ih =>
      cases p with
      | none => exact nomatch h
      | some a =>
          obtain ⟨rest, hrest, rfl⟩ := Option.map_eq_some_iff.mp h
          have ha : a ∈ Y := hp a rfl
          obtain ⟨hlen, hmem⟩ := ih (hY a ha) hrest
          exact ⟨by simp [hlen], by simpa [ha] using hmem⟩

omit [DecidableEq α] in
theorem skip_chain (hC : Chain next p C) {n : ℕ} (hn : n ≤ C.length) :
    ∃ q, skip next n p = some q ∧ Path next p (C.take n) q ∧ Chain next q (C.drop n) := by
  induction n generalizing p C with
  | zero => exact ⟨p, rfl, rfl, hC⟩
  | succ n ih =>
      cases C with
      | nil => simp at hn
      | cons a C =>
          obtain ⟨rfl, hC⟩ := hC
          obtain ⟨q, hq, hpath, hrest⟩ := ih hC (by simpa using hn)
          exact ⟨q, hq, ⟨rfl, hpath⟩, hrest⟩

omit [DecidableEq α] in
theorem skip_mem (hY : Closed Y next) (hp : ∀ a, p = some a → a ∈ Y) {n : ℕ} (h : skip next n p = some q) :
    ∀ a, q = some a → a ∈ Y := by
  induction n generalizing p with
  | zero =>
      obtain rfl := Option.some.inj h
      exact hp
  | succ n ih =>
      cases p with
      | none => exact nomatch h
      | some a => exact ih (hY a (hp a rfl)) h

end Walks

theorem mergeList_chain (before : α → α → Bool) (fuel : ℕ) {S1 S2 : List α} {list1 list2 : Option α}
    (h1 : Chain next list1 S1) (h2 : Chain next list2 S2) (hd : (S1 ++ S2).Nodup)
    (hfuel : S1.length + S2.length < fuel) :
    ∃ s, mergeList before fuel next list1 list2 = some s ∧ Chain s.next s.list (S1.merge S2 before) ∧
      ∀ x ∉ S1 ++ S2, s.next x = next x := by
  obtain ⟨s, hs, hc, hf⟩ := @Links.mergeLoop_chain α _ before ⟨next, none⟩ none list1 list2 fuel S1 S2 h1 h2 hd
    (fun o _ h => nomatch h) rfl hfuel
  exact ⟨s, hs, hc, fun x hx => hf.next x hx (by simp)⟩

theorem mergeList_nulls {Y : Finset α} {a b : α} {fuel : ℕ} {s : Links α} (hY : Closed Y next) (ha : a ∈ Y) (hb : b ∈ Y)
    (h : mergeList before fuel next (some a) (some b) = some s) :
    Links.Stays Y ⟨next, none⟩ s ∧ nulls Y s.next + 1 = nulls Y next ∧ ∃ c ∈ Y, s.list = some c := by
  obtain ⟨hst, hnulls, -, hlist⟩ := @Links.mergeLoop_nulls α _ before ⟨next, none⟩ s none (some a) (some b) Y fuel hY
    (fun x hx => Option.some.inj hx ▸ ha) (fun x hx => Option.some.inj hx ▸ hb) (fun o h => nomatch h) (by simp) h
  exact ⟨hst, by simpa using hnulls, hlist rfl⟩

/-- The merge of two pointers into a set with one `NULL` link is no list. -/
theorem mergeList_endless {Y : Finset α} {a b : α} {fuel : ℕ} {s : Links α} (hY : Closed Y next) (ha : a ∈ Y)
    (hb : b ∈ Y) (hone : nulls Y next ≤ 1) (h : mergeList before fuel next (some a) (some b) = some s) :
    ∃ c, s.list = some c ∧ Endless s.next c := by
  obtain ⟨hst, hnulls, c, hc, hlist⟩ := mergeList_nulls hY ha hb h
  exact ⟨c, hlist, hst.closed.endless (by omega) hc⟩

/-- A pointer whose links do not end spoils the merge with any other one. -/
theorem mergeList_endless_of {V : Finset α} {a b : α} {fuel : ℕ} {s : Links α} (hV : Closed V next) (ha : a ∈ V)
    (hb : b ∈ V) (he : Endless next a ∨ Endless next b)
    (h : mergeList before fuel next (some a) (some b) = some s) : ∃ c, s.list = some c ∧ Endless s.next c := by
  -- the set of the endless links, with what the other pointer leads to
  have key {x y : α} (hx : Endless next x) (hy : y ∈ V) : ∃ Y, Closed Y next ∧ x ∈ Y ∧ y ∈ Y ∧ nulls Y next ≤ 1 := by
    obtain ⟨Z, hxZ, hZ⟩ := hx
    obtain ⟨T, hT⟩ | ⟨Z', hyZ', hZ'⟩ := hV.chain_or_endless hy
    · refine ⟨Z ∪ T.toFinset, (closed_of_endless hZ).union hT.closed, by simp [hxZ], by simp [hT.head_mem], ?_⟩
      have := nulls_union_le next Z T.toFinset
      have := hT.nulls_le
      have := nulls_eq_zero hZ
      omega
    · refine ⟨Z ∪ Z', (closed_of_endless hZ).union (closed_of_endless hZ'), by simp [hxZ], by simp [hyZ'], ?_⟩
      have := nulls_union_le next Z Z'
      have := nulls_eq_zero hZ
      have := nulls_eq_zero hZ'
      omega
  obtain he | he := he
  · obtain ⟨Y, hY, hxY, hyY, hone⟩ := key he hb
    exact mergeList_endless hY hxY hyY hone h
  · obtain ⟨Y, hY, hyY, hxY, hone⟩ := key he ha
    exact mergeList_endless hY hxY hyY hone h

namespace Sorter

variable {w : Sorter α} {fuel length call : ℕ} {p : α}

theorem doSortList_alloc (h : (w.tryAlloc call length).1 = true) :
    w.doSortList fuel next (some p) length call = (collect next length (some p)).bind fun array =>
      (w.sortArray fuel array).map fun array => (buildList next array, (w.tryAlloc call length).2) := by
  rw [doSortList, if_pos h]

theorem doSortList_leaf (h : (w.tryAlloc call length).1 ≠ true) (hmid : length / 2 = 0) :
    w.doSortList fuel next (some p) length call = some (⟨next, some p⟩, (w.tryAlloc call length).2) := by
  rw [doSortList, if_neg h, dif_pos hmid]

theorem doSortList_split (h : (w.tryAlloc call length).1 ≠ true) (hmid : length / 2 ≠ 0) :
    w.doSortList fuel next (some p) length call = (skip next (length / 2) (some p)).bind fun list2 =>
      (w.doSortList fuel next (some p) (length / 2) (w.tryAlloc call length).2).bind fun r1 =>
      (w.doSortList fuel r1.1.next list2 (length - length / 2) r1.2).bind fun r2 =>
      (mergeList w.before fuel r2.1.next r1.1.list r2.1.list).map fun s => (s, r2.2) := by
  rw [doSortList, if_neg h, dif_neg hmid]

theorem doSortList_none (w : Sorter α) : w.doSortList fuel next none length call = some (⟨next, none⟩, call) := by
  rw [doSortList]

omit [DecidableEq α] in
theorem pattern_split (h : (w.tryAlloc call length).1 ≠ true) (hmid : length / 2 ≠ 0) :
    pattern w.tryAlloc length call =
      (Outcome.halves (pattern w.tryAlloc (length / 2) (w.tryAlloc call length).2).1
        (pattern w.tryAlloc (length - length / 2) (pattern w.tryAlloc (length / 2) (w.tryAlloc call length).2).2).1,
      (pattern w.tryAlloc (length - length / 2) (pattern w.tryAlloc (length / 2) (w.tryAlloc call length).2).2).2) := by
  rw [pattern, if_neg h, dif_neg hmid]

/-- What `DoSortList` leaves of a closed set, whatever the list in it looks like. -/
theorem doSortList_stays {Y : Finset α} (hperm : ∀ l l', w.sortArray fuel l = some l' → l'.Perm l) {r : Links α × ℕ}
    (hY : Closed Y next) (hp : p ∈ Y) (hlen : 0 < length) (h : w.doSortList fuel next (some p) length call = some r) :
    Links.Stays Y ⟨next, none⟩ r.1 ∧ nulls Y r.1.next ≤ nulls Y next + 1 ∧ ∃ a ∈ Y, r.1.list = some a := by
  induction length using Nat.strong_induction_on generalizing next p call r with
  | _ length ih =>
  by_cases halloc : (w.tryAlloc call length).1 = true
  · rw [doSortList_alloc halloc] at h
    obtain ⟨array, harray, h⟩ := Option.bind_eq_some_iff.mp h
    obtain ⟨sorted, hsorted, rfl⟩ := Option.map_eq_some_iff.mp h
    obtain ⟨hn, hmem⟩ := collect_mem hY (fun a ha => Option.some.inj ha ▸ hp) harray
    have hs := hperm _ _ hsorted
    obtain ⟨hst, hnulls, -, hlist⟩ := @Links.buildLoop_nulls α _ ⟨next, none⟩ none Y sorted hY
      (fun o h => nomatch h) fun a ha => hmem a (hs.mem_iff.mp ha)
    refine ⟨hst, by simpa [buildList] using hnulls, hlist rfl ?_⟩
    rintro rfl
    have := hs.length_eq
    simp only [List.length_nil] at this
    omega
  · by_cases hmid : length / 2 = 0
    · rw [doSortList_leaf halloc hmid] at h
      obtain rfl := Option.some.inj h
      exact ⟨⟨hY, fun x _ => rfl⟩, Nat.le_succ _, p, hp, rfl⟩
    · rw [doSortList_split halloc hmid] at h
      obtain ⟨list2, hlist2, h⟩ := Option.bind_eq_some_iff.mp h
      obtain ⟨r1, hr1, h⟩ := Option.bind_eq_some_iff.mp h
      obtain ⟨r2, hr2, h⟩ := Option.bind_eq_some_iff.mp h
      obtain ⟨s, hs, rfl⟩ := Option.map_eq_some_iff.mp h
      obtain ⟨hst1, hnulls1, a, ha, hl1⟩ := ih (length / 2) (by omega) hY hp (by omega) hr1
      cases list2 with
      | none =>
          -- there is nothing to merge
          rw [doSortList_none] at hr2
          obtain rfl := Option.some.inj hr2
          cases fuel with
          | zero => exact nomatch hs
          | succ fuel =>
              rw [hl1] at hs
              obtain rfl := Option.some.inj hs
              exact ⟨⟨hst1.closed, hst1.outside⟩, hnulls1, a, ha, rfl⟩
      | some b =>
          have hb : b ∈ Y := skip_mem hY (fun a ha => Option.some.inj ha ▸ hp) hlist2 b rfl
          obtain ⟨hst2, hnulls2, c, hc, hl2⟩ := ih (length - length / 2) (by omega) hst1.closed hb (by omega) hr2
          rw [hl1, hl2] at hs
          obtain ⟨hst, hnulls, hlist⟩ := mergeList_nulls hst2.closed ha hc hs
          exact ⟨⟨hst.closed, fun x hx => (hst.outside x hx).trans ((hst2.outside x hx).trans (hst1.outside x hx))⟩,
            by simp only at hnulls1 hnulls2 hnulls ⊢; omega, hlist⟩

/-- The arrays up to a length are sorted by `r`, of which the nodes are compared by the strict part. -/
structure Fits (w : Sorter α) (r : α → α → Prop) (fuel N : ℕ) : Prop where
  perm : ∀ l l', w.sortArray fuel l = some l' → l'.Perm l
  sorts : ∀ l, l.length ≤ N → ∃ l', w.sortArray fuel l = some l' ∧ l'.Pairwise r
  trans : ∀ a b c, r a b → r b c → r a c
  before : ∀ a b, w.before a b → r a b
  not_before : ∀ a b, ¬ w.before a b → r b a
  fuel : N < fuel

/-- What `DoSortList` makes of the first nodes of a list when each of its pieces is cut off. -/
structure Cut (r : α → α → Prop) (next : α → Option α) (C : List α) (length : ℕ) (s : Links α) (S : List α) : Prop where
  chain : Chain s.next s.list S
  perm : S.Perm (C.take length)
  sorted : S.Pairwise r
  frame : ∀ x ∉ C.take length, s.next x = next x

/-- What it makes of them when the last node is still linked to the rest of the list. -/
structure Uncut (r : α → α → Prop) (next : α → Option α) (C : List α) (length : ℕ) (s : Links α) (S : List α) :
    Prop where
  chain : Chain s.next s.list S
  perm : S.Perm C
  rest : (C.drop length).Sublist S
  sorted : length = C.length → S.Pairwise r
  frame : ∀ x ∉ C, s.next x = next x

/-- Halves that are not broken leave an array for the first one. -/
theorem left_allocated {left right : Outcome} (h : left.halves right ≠ .broken) : left = .allocated := by
  cases left with
  | allocated => rfl
  | tail => exact absurd rfl h
  | broken => exact absurd rfl h

/-- The first nodes are a list of their own, and what is made of the rest is merged into them. -/
theorem doSortList_merge {r : α → α → Prop} {N m k k' : ℕ} {C S1 S2 : List α} {b : α} {s1 s2 : Links α}
    (hw : w.Fits r fuel N) (hC : Chain next (some p) C) (hm : m ≤ C.length) (hN : C.length ≤ N)
    (hq : skip next m (some p) = some (some b))
    (hs1 : w.doSortList fuel next (some p) m call = some (s1, k)) (hcut : Cut r next C m s1 S1)
    (hS2 : Chain s2.next s2.list S2) (hsub : ∀ x ∈ S2, x ∈ C.drop m)
    (hf2 : ∀ x ∉ C.drop m, s2.next x = s1.next x)
    (hs2 : w.doSortList fuel s1.next (some b) (length - m) k = some (s2, k')) :
    ∃ s, ((skip next m (some p)).bind fun list2 =>
        (w.doSortList fuel next (some p) m call).bind fun r1 =>
        (w.doSortList fuel r1.1.next list2 (length - m) r1.2).bind fun r2 =>
        (mergeList w.before fuel r2.1.next r1.1.list r2.1.list).map fun s => (s, r2.2)) = some (s, k') ∧
      Chain s.next s.list (S1.merge S2 w.before) ∧ ∀ x ∉ S1 ++ S2, s.next x = s2.next x := by
  have hnodup : (C.take m ++ C.drop m).Nodup := by
    rw [List.take_append_drop]
    exact hC.nodup
  have hS1 : ∀ x ∈ S1, x ∉ C.drop m := fun x hx => (List.nodup_append'.mp hnodup).2.2 (hcut.perm.mem_iff.mp hx)
  have hS1nodup : S1.Nodup := hcut.perm.nodup_iff.mpr (hC.nodup.sublist (List.take_sublist _ _))
  have hlen1 : S1.length = m := by
    rw [hcut.perm.length_eq, List.length_take]
    omega
  have hlen2 : S2.length ≤ C.length - m := by
    have hle := (List.subperm_of_subset hS2.nodup hsub).length_le
    simpa using hle
  have hd : (S1 ++ S2).Nodup :=
    List.nodup_append'.mpr ⟨hS1nodup, hS2.nodup, fun x h1 h2 => hS1 x h1 (hsub x h2)⟩
  have hfuel := hw.fuel
  obtain ⟨s, hs, hc, hf⟩ := mergeList_chain w.before fuel
    (hcut.chain.congr fun x hx => hf2 x (hS1 x hx)) hS2 hd (by omega)
  exact ⟨s, by simp [hq, hs1, hs2, hs], hc, hf⟩

theorem doSortList_chain (length call : ℕ) {r : α → α → Prop} {N : ℕ} {C : List α} (hw : w.Fits r fuel N)
    (hC : Chain next (some p) C) (hlen : 0 < length) (hle : length ≤ C.length) (hN : C.length ≤ N) :
    ((pattern w.tryAlloc length call).1 = .allocated → ∃ s S,
      w.doSortList fuel next (some p) length call = some (s, (pattern w.tryAlloc length call).2) ∧
        Cut r next C length s S) ∧
    ((pattern w.tryAlloc length call).1 = .tail → ∃ s S,
      w.doSortList fuel next (some p) length call = some (s, (pattern w.tryAlloc length call).2) ∧
        Uncut r next C length s S) := by
  induction length using Nat.strong_induction_on generalizing next p call C with
  | _ length ih =>
  by_cases halloc : (w.tryAlloc call length).1 = true
  · rw [pattern, if_pos halloc, doSortList_alloc halloc, collect_chain hC hle]
    refine ⟨fun _ => ?_, fun h => nomatch h⟩
    obtain ⟨S, hS, hsorted⟩ := hw.sorts (C.take length) (by simp; omega)
    have hperm := hw.perm _ _ hS
    obtain ⟨hchain, hframe⟩ := @Links.buildLoop_chain α _ ⟨next, none⟩ none S
      (hperm.nodup_iff.mpr (hC.nodup.sublist (List.take_sublist _ _))) (fun o _ h => nomatch h) rfl
    exact ⟨buildList next S, S, by simp [hS], hchain, hperm, hsorted,
      fun x hx => hframe.next x (fun h => hx (hperm.mem_iff.mp h)) (by simp)⟩
  · by_cases hmid : length / 2 = 0
    · rw [pattern, if_neg halloc, dif_pos hmid, doSortList_leaf halloc hmid]
      refine ⟨nofun, fun _ => ⟨_, C, rfl, hC, .refl _, List.drop_sublist _ _, fun h => ?_, fun x _ => rfl⟩⟩
      obtain ⟨c, rfl⟩ := List.length_eq_one_iff.mp (show C.length = 1 by omega)
      exact List.pairwise_singleton r c
    · rw [pattern_split halloc hmid, doSortList_split halloc hmid]
      obtain ⟨q, hq, -, hrest⟩ := skip_chain hC (n := length / 2) (by omega)
      obtain ⟨b, T, hbT⟩ := List.exists_cons_of_ne_nil (l := C.drop (length / 2))
        (List.ne_nil_of_length_pos (by simp only [List.length_drop]; omega))
      obtain rfl : q = some b := by rw [hbT] at hrest; exact hrest.1
      have hnodup : (C.take (length / 2) ++ C.drop (length / 2)).Nodup := by
        rw [List.take_append_drop]
        exact hC.nodup
      have hdisj := (List.nodup_append'.mp hnodup).2.2
      -- the first half, which is cut off, and then the second one
      have hfirst (h1 : (pattern w.tryAlloc (length / 2) (w.tryAlloc call length).2).1 = .allocated) :
          ∃ s1 S1, w.doSortList fuel next (some p) (length / 2) (w.tryAlloc call length).2 =
              some (s1, (pattern w.tryAlloc (length / 2) (w.tryAlloc call length).2).2) ∧
            Cut r next C (length / 2) s1 S1 ∧ Chain s1.next (some b) (C.drop (length / 2)) := by
        obtain ⟨s1, S1, hs1, hcut⟩ := (ih (length / 2) (by omega) _ hC (by omega) (by omega) hN).1 h1
        exact ⟨s1, S1, hs1, hcut, hrest.congr fun x hx => hcut.frame x fun h => hdisj h hx⟩
      have hright {s1 : Links α} (hs1 : Chain s1.next (some b) (C.drop (length / 2))) :=
        ih (length - length / 2) (by omega) (pattern w.tryAlloc (length / 2) (w.tryAlloc call length).2).2 hs1
          (by omega) (by simp; omega) (by simp; omega)
      have htake : C.take length = C.take (length / 2) ++ (C.drop (length / 2)).take (length - length / 2) := by
        rw [← List.take_add]
        congr 1
        omega
      constructor
      · intro h
        have h1 := left_allocated (h.trans_ne nofun)
        rw [h1] at h
        obtain ⟨s1, S1, hs1, hcut, hdrop⟩ := hfirst h1
        obtain ⟨s2, S2, hs2, hcut2⟩ := (hright hdrop).1 h
        have hsub : ∀ x ∈ S2, x ∈ C.drop (length / 2) :=
          fun x hx => List.mem_of_mem_take (hcut2.perm.mem_iff.mp hx)
        obtain ⟨s, hs, hc, hf⟩ := doSortList_merge hw hC (by omega) hN hq hs1 hcut hcut2.chain hsub
          (fun x hx => hcut2.frame x fun h => hx (List.mem_of_mem_take h)) hs2
        refine ⟨s, _, hs, hc, ?_, merge_sorted hw.trans hw.before hw.not_before S1 S2 hcut.sorted hcut2.sorted, ?_⟩
        · rw [htake]
          exact (List.merge_perm_append ..).trans (hcut.perm.append hcut2.perm)
        · intro x hx
          rw [htake, List.mem_append, not_or] at hx
          rw [hf x (by simp [hcut.perm.mem_iff, hcut2.perm.mem_iff, hx]), hcut2.frame x hx.2, hcut.frame x hx.1]
      · intro h
        have h1 := left_allocated (h.trans_ne nofun)
        rw [h1] at h
        obtain ⟨s1, S1, hs1, hcut, hdrop⟩ := hfirst h1
        obtain ⟨s2, S2, hs2, hcut2⟩ := (hright hdrop).2 h
        obtain ⟨s, hs, hc, hf⟩ := doSortList_merge hw hC (by omega) hN hq hs1 hcut hcut2.chain
          (fun x hx => hcut2.perm.mem_iff.mp hx) hcut2.frame hs2
        refine ⟨s, _, hs, hc, ?_, ?_, fun hlen => ?_, fun x hx => ?_⟩
        · calc (S1.merge S2 w.before).Perm (S1 ++ S2) := List.merge_perm_append ..
            _ |>.Perm (C.take (length / 2) ++ C.drop (length / 2)) := hcut.perm.append hcut2.perm
            _ = C := List.take_append_drop ..
        · have hdd : C.drop length = (C.drop (length / 2)).drop (length - length / 2) := by
            rw [List.drop_drop]
            congr 1
            omega
          rw [hdd]
          exact hcut2.rest.trans (sublist_merge_right w.before S1 S2)
        · exact merge_sorted hw.trans hw.before hw.not_before S1 S2 hcut.sorted (hcut2.sorted (by simp; omega))
        · have hx1 : x ∉ C.take (length / 2) := fun h => hx (List.mem_of_mem_take h)
          have hx2 : x ∉ C.drop (length / 2) := fun h => hx (List.mem_of_mem_drop h)
          rw [hf x (by simp [hcut.perm.mem_iff, hcut2.perm.mem_iff, hx1, hx2]), hcut2.frame x hx2, hcut.frame x hx1]

omit [DecidableEq α] in
/-- A node of a list, and after it the nodes of `T`: what comes from the rest of the list comes from `T`. -/
theorem Uncut.split {r : α → α → Prop} {C S D : List α} {s : Links α} {b : α} (h : Uncut r next C length s S)
    (hrest : C.drop length = b :: D) :
    ∃ pre T, S = pre ++ T ∧ Path s.next s.list pre (some b) ∧ Chain s.next (some b) T ∧ (b :: D).Sublist T := by
  have hsub := h.rest
  rw [hrest] at hsub
  obtain ⟨pre, v, rfl, hpre, hv⟩ := h.chain.split (hsub.subset List.mem_cons_self)
  refine ⟨pre, b :: v, rfl, hpre, hv, ?_⟩
  have hb : b ∉ pre := fun hb => (List.nodup_append'.mp h.chain.nodup).2.2 hb List.mem_cons_self
  obtain ⟨l1, l2, hl, h1, h2⟩ := List.sublist_append_iff.mp hsub
  cases l1 with
  | nil => rw [hl]; exact h2
  | cons c l1 =>
      obtain rfl : b = c := (List.cons.inj hl).1
      exact absurd (h1.subset List.mem_cons_self) hb

/-- The first half runs into the second one, which is a list that has the node between them. -/
theorem mergeList_endless_into {s s1 s2 : Links α} {pre T S2 : List α} {b : α}
    (hpre : Path s1.next s1.list pre (some b)) (hdisj : List.Disjoint pre T) (hS2 : Chain s2.next s2.list S2)
    (hb : b ∈ S2) (hf : ∀ x ∉ T, s2.next x = s1.next x) {a1 a2 : α} (hl1 : s1.list = some a1) (hl2 : s2.list = some a2)
    (hs : mergeList before fuel s2.next (some a1) (some a2) = some s) :
    ∃ a, s.list = some a ∧ Endless s.next a := by
  have hpre2 : Path s2.next s1.list pre (some b) := hpre.congr fun x hx => hf x fun hxT => hdisj hx hxT
  have hY := hpre2.closed hS2.closed fun a ha => Option.some.inj ha ▸ List.mem_toFinset.mpr hb
  refine mergeList_endless hY ?_ ?_ (hpre2.nulls_le.trans hS2.nulls_le) hs
  · rw [hl1] at hpre
    cases pre with
    | nil =>
        obtain rfl := Option.some.inj hpre
        exact Finset.mem_union_right _ (List.mem_toFinset.mpr hb)
    | cons c pre =>
        obtain rfl := Option.some.inj hpre.1
        simp
  · rw [hl2] at hS2
    exact Finset.mem_union_right _ (List.mem_toFinset.mpr hS2.head_mem)

/-- A piece of which a node in the middle is not cut off is never a list again. -/
theorem doSortList_endless {r : α → α → Prop} {N : ℕ} {C : List α} (hw : w.Fits r fuel N)
    (hC : Chain next (some p) C) (hlen : 0 < length) (hle : length ≤ C.length) (hN : C.length ≤ N)
    (hbroken : (pattern w.tryAlloc length call).1 = .broken) {res : Links α × ℕ}
    (h : w.doSortList fuel next (some p) length call = some res) :
    ∃ a, res.1.list = some a ∧ Endless res.1.next a := by
  induction length using Nat.strong_induction_on generalizing next p call C res with
  | _ length ih =>
  by_cases halloc : (w.tryAlloc call length).1 = true
  · rw [pattern, if_pos halloc] at hbroken
    exact nomatch hbroken
  by_cases hmid : length / 2 = 0
  · rw [pattern, if_neg halloc, dif_pos hmid] at hbroken
    exact nomatch hbroken
  rw [pattern_split halloc hmid] at hbroken
  rw [doSortList_split halloc hmid] at h
  obtain ⟨list2, hlist2, h⟩ := Option.bind_eq_some_iff.mp h
  obtain ⟨r1, hr1, h⟩ := Option.bind_eq_some_iff.mp h
  obtain ⟨r2, hr2, h⟩ := Option.bind_eq_some_iff.mp h
  obtain ⟨s, hs, rfl⟩ := Option.map_eq_some_iff.mp h
  obtain ⟨q, hq, -, hrest⟩ := skip_chain hC (n := length / 2) (by omega)
  obtain rfl := Option.some.inj (hlist2.symm.trans hq)
  obtain ⟨b, D, hbD⟩ := List.exists_cons_of_ne_nil (l := C.drop (length / 2))
    (List.ne_nil_of_length_pos (by simp only [List.length_drop]; omega))
  have hD : D.length + 1 = C.length - length / 2 := by
    have := congrArg List.length hbD
    simpa using this.symm
  obtain rfl : list2 = some b := by rw [hbD] at hrest; exact hrest.1
  -- both pointers stay in the nodes of the list
  have hclosed := hC.closed
  have hbC : b ∈ C.toFinset := List.mem_toFinset.mpr (List.mem_of_mem_drop (hbD ▸ List.mem_cons_self))
  obtain ⟨hst1, -, a1, ha1, hl1⟩ := doSortList_stays hw.perm hclosed (List.mem_toFinset.mpr hC.head_mem) (by omega) hr1
  obtain ⟨hst2, -, a2, ha2, hl2⟩ := doSortList_stays hw.perm hst1.closed hbC (by omega) hr2
  rw [hl1, hl2] at hs
  cases ho1 : (pattern w.tryAlloc (length / 2) (w.tryAlloc call length).2).1 with
  | broken =>
      obtain ⟨a, ha, hend⟩ := ih (length / 2) (by omega) hC (by omega) (by omega) hN ho1 hr1
      obtain rfl := Option.some.inj (hl1.symm.trans ha)
      obtain ⟨Z, haZ, hZ⟩ := hend
      obtain ⟨T, hT⟩ | ⟨Z', hbZ', hZ'⟩ := hst1.closed.chain_or_endless hbC
      · -- the second half does not meet the links that do not end
        obtain ⟨hout, -⟩ := doSortList_stays hw.perm hT.closed (List.mem_toFinset.mpr hT.head_mem) (by omega) hr2
        have hsame : ∀ x ∈ Z, r2.1.next x = r1.1.next x := fun x hx =>
          hout.outside x fun hxT => hT.not_mem_endless hZ x (List.mem_toFinset.mp hxT) hx
        refine mergeList_endless_of hst2.closed ha1 ha2 (.inl ⟨Z, haZ, fun x hx => ?_⟩) hs
        rw [hsame x hx]
        exact hZ x hx
      · -- it starts at links that do not end: sorting it makes at most one `NULL`
        have hZZ := (closed_of_endless hZ).union (closed_of_endless hZ')
        obtain ⟨hst, hnulls, c, hc, hlc⟩ :=
          doSortList_stays hw.perm hZZ (Finset.mem_union_right Z hbZ') (by omega) hr2
        obtain rfl := Option.some.inj (hl2.symm.trans hlc)
        refine mergeList_endless hst.closed (Finset.mem_union_left Z' haZ) hc ?_ hs
        have := nulls_union_le r1.1.next Z Z'
        have := nulls_eq_zero hZ
        have := nulls_eq_zero hZ'
        omega
  | tail =>
      obtain ⟨s1, S1, hs1, hunc⟩ := (doSortList_chain (length / 2) (w.tryAlloc call length).2 hw hC
        (by omega) (by omega) hN).2 ho1
      obtain rfl := Option.some.inj (hr1.symm.trans hs1)
      obtain ⟨pre, T, rfl, hpre, hT, hDT⟩ := hunc.split hbD
      have hTlen := hDT.length_le
      have hTN : T.length ≤ N := by
        have := hunc.perm.length_eq
        simp only [List.length_append] at this
        omega
      simp only [List.length_cons] at hTlen
      have hdisj := (List.nodup_append'.mp hunc.chain.nodup).2.2
      have hright := doSortList_chain (length - length / 2)
        (pattern w.tryAlloc (length / 2) (w.tryAlloc call length).2).2 hw hT (by omega) (by omega) hTN
      cases ho2 : (pattern w.tryAlloc (length - length / 2)
          (pattern w.tryAlloc (length / 2) (w.tryAlloc call length).2).2).1 with
      | allocated =>
          obtain ⟨s2, S2, hs2, hcut⟩ := hright.1 ho2
          obtain rfl := Option.some.inj (hr2.symm.trans hs2)
          refine mergeList_endless_into hpre hdisj hcut.chain (hcut.perm.mem_iff.mpr ?_)
            (fun x hx => hcut.frame x fun h => hx (List.mem_of_mem_take h)) hl1 hl2 hs
          obtain ⟨T', rfl⟩ := hT.ne_nil
          rw [List.take_cons (by omega)]
          exact List.mem_cons_self
      | tail =>
          obtain ⟨s2, S2, hs2, hunc2⟩ := hright.2 ho2
          obtain rfl := Option.some.inj (hr2.symm.trans hs2)
          exact mergeList_endless_into hpre hdisj hunc2.chain (hunc2.perm.mem_iff.mpr hT.head_mem) hunc2.frame
            hl1 hl2 hs
      | broken =>
          obtain ⟨a, ha, hend⟩ := ih (length - length / 2) (by omega) hT (by omega) (by omega) hTN ho2 hr2
          obtain rfl := Option.some.inj (hl2.symm.trans ha)
          exact mergeList_endless_of hst2.closed ha1 ha2 (.inr hend) hs
  | allocated =>
      rw [ho1] at hbroken
      obtain ⟨s1, S1, hs1, hcut⟩ := (doSortList_chain (length / 2) (w.tryAlloc call length).2 hw hC
        (by omega) (by omega) hN).1 ho1
      obtain rfl := Option.some.inj (hr1.symm.trans hs1)
      have hnodup : (C.take (length / 2) ++ C.drop (length / 2)).Nodup := by
        rw [List.take_append_drop]
        exact hC.nodup
      have hdrop : Chain s1.next (some b) (C.drop (length / 2)) := hrest.congr fun x hx =>
        hcut.frame x fun h => (List.nodup_append'.mp hnodup).2.2 h hx
      obtain ⟨a, ha, hend⟩ := ih (length - length / 2) (by omega) hdrop (by omega) (by simp; omega) (by simp; omega)
        hbroken hr2
      obtain rfl := Option.some.inj (hl2.symm.trans ha)
      exact mergeList_endless_of hst2.closed ha1 ha2 (.inr hend) hs

theorem pattern_ne_broken (tryAlloc : ℕ → ℕ → Bool × ℕ) (hlen : length ≤ 1) :
    (pattern tryAlloc length call).1 ≠ .broken := by
  rw [pattern]
  split
  · simp
  · rw [dif_pos (by omega)]
    simp

end Sorter

/-- The loop that counts the nodes. -/
def countLoop (next : α → Option α) : ℕ → Option α → Option ℕ
  | 0, _ => none
  | _ + 1, none => some 0
  | n + 1, some a => (countLoop next n (next a)).map (· + 1)

omit [DecidableEq α] in
theorem countLoop_chain {list : Option α} {C : List α} (hC : Chain next list C) {n : ℕ} (hn : C.length < n) :
    countLoop next n list = some C.length := by
  induction n generalizing list C with
  | zero => omega
  | succ n ih =>
      cases C with
      | nil =>
          obtain rfl : list = none := hC
          rfl
      | cons a C =>
          obtain ⟨rfl, hC⟩ := hC
          simp [countLoop, ih hC (by simpa using hn)]

/-- With enough steps, a `NULL`-terminated list of the same nodes, each of them once, is returned in order. -/
def Sorts (run : ℕ → Option (Links α)) (C : List α) (r : α → α → Prop) : Prop :=
  ∃ n, ∀ fuel ≥ n, ∃ s S, run fuel = some s ∧ Chain s.next s.list S ∧ S.Perm C ∧ S.Pairwise r

omit [DecidableEq α] in
theorem Sorts.congr {run run' : ℕ → Option (Links α)} {C : List α} {r : α → α → Prop} (n : ℕ)
    (h : ∀ fuel ≥ n, run fuel = run' fuel) (hs : Sorts run C r) : Sorts run' C r := by
  obtain ⟨m, hm⟩ := hs
  refine ⟨max n m, fun fuel hfuel => ?_⟩
  rw [← h fuel ((le_max_left n m).trans hfuel)]
  exact hm fuel ((le_max_right n m).trans hfuel)

/-- `DoSortList` of a whole list. -/
theorem Sorter.sorts_iff {w : Sorter α} {r : α → α → Prop} {list : Option α} {C : List α} (hC : Chain next list C)
    (hw : ∃ n, ∀ fuel ≥ n, w.Fits r fuel C.length) :
    Sorts (fun fuel => (w.doSortList fuel next list C.length 0).map (·.1)) C r ↔
      (pattern w.tryAlloc C.length 0).1 ≠ .broken := by
  obtain ⟨n, hw⟩ := hw
  cases list with
  | none =>
      obtain rfl : C = [] := Chain.unique hC (show Chain next none [] from rfl)
      refine iff_of_true ⟨0, fun fuel _ => ⟨⟨next, none⟩, [], ?_, rfl, .refl _, .nil⟩⟩ (pattern_ne_broken _ (by simp))
      simp [doSortList_none]
  | some p =>
      have hlen : 0 < C.length := List.length_pos_of_mem hC.head_mem
      constructor
      · rintro ⟨n', hsorts⟩ hbroken
        obtain ⟨s, S, hs, hS, -⟩ := hsorts (max n n') (le_max_right n n')
        obtain ⟨res, hres, rfl⟩ := Option.map_eq_some_iff.mp hs
        obtain ⟨a, ha, hend⟩ := doSortList_endless (hw _ (le_max_left n n')) hC hlen le_rfl le_rfl hbroken hres
        rw [ha] at hS
        exact not_chain_of_endless hend hS
      · intro hbroken
        refine ⟨n, fun fuel hfuel => ?_⟩
        have hspec := doSortList_chain C.length 0 (hw fuel hfuel) hC hlen le_rfl le_rfl
        cases ho : (pattern w.tryAlloc C.length 0).1 with
        | allocated =>
            obtain ⟨s, S, hs, hcut⟩ := hspec.1 ho
            exact ⟨s, S, by simp [hs], hcut.chain, by simpa using hcut.perm, hcut.sorted⟩
        | tail =>
            obtain ⟨s, S, hs, hunc⟩ := hspec.2 ho
            exact ⟨s, S, by simp [hs], hunc.chain, hunc.perm, hunc.sorted rfl⟩
        | broken => exact absurd ho hbroken

/-- `INT_MAX`. -/
def intMax : ℕ := 2 ^ 31 - 1

/-- The array of `SortLinkedList`: one that would be larger than `INT_MAX` is not asked for. -/
def tryAllocrtn (ptrSize : ℕ) (allocrtn : ℕ → Bool) (call length : ℕ) : Bool × ℕ :=
  if intMax < length * ptrSize then (false, call) else (allocrtn call, call + 1)

/-- `SortLinkedList`; `allocrtn` says which of its calls get memory. -/
def sortLinkedList (ptrSize : ℕ) (compare : α → α → ℤ) (qsort : List α → List α) (allocrtn : ℕ → Bool) (fuel : ℕ)
    (next : α → Option α) (list : Option α) : Option (Links α) :=
  (countLoop next fuel list).bind fun length =>
  (Sorter.doSortList ⟨fun a b => compare a b < 0, fun _ array => some (qsort array), tryAllocrtn ptrSize allocrtn⟩
    fuel next list length 0).map (·.1)

/-- A comparison function that is a total preorder. -/
structure TotalPreorder (compare : α → α → ℤ) : Prop where
  swap : ∀ a b, compare a b < 0 ↔ 0 < compare b a
  trans : ∀ a b c, compare a b ≤ 0 → compare b c ≤ 0 → compare a c ≤ 0

/-- The array sort of the library: some arrangement in order. -/
structure QSorts (compare : α → α → ℤ) (qsort : List α → List α) : Prop where
  perm : ∀ array, (qsort array).Perm array
  sorted : ∀ array, (qsort array).Pairwise fun a b => compare a b ≤ 0

theorem sortLinkedList_sorts_iff {ptrSize : ℕ} {compare : α → α → ℤ} {qsort : List α → List α} {allocrtn : ℕ → Bool}
    {list : Option α} {C : List α} (hC : Chain next list C) (hc : TotalPreorder compare) (hq : QSorts compare qsort) :
    Sorts (fun fuel => sortLinkedList ptrSize compare qsort allocrtn fuel next list) C (fun a b => compare a b ≤ 0) ↔
      (pattern (tryAllocrtn ptrSize allocrtn) C.length 0).1 ≠ .broken := by
  rw [← Sorter.sorts_iff (r := fun a b => compare a b ≤ 0) (w := ⟨fun a b => compare a b < 0,
    fun _ array => some (qsort array), tryAllocrtn ptrSize allocrtn⟩) hC]
  · have hrun (fuel : ℕ) (hfuel : fuel ≥ C.length + 1) : sortLinkedList ptrSize compare qsort allocrtn fuel next list =
        (Sorter.doSortList ⟨fun a b => compare a b < 0, fun _ array => some (qsort array),
          tryAllocrtn ptrSize allocrtn⟩ fuel next list C.length 0).map (·.1) := by
      rw [sortLinkedList, countLoop_chain hC (by omega)]
      rfl
    exact ⟨Sorts.congr (C.length + 1) hrun, Sorts.congr (C.length + 1) fun fuel hfuel => (hrun fuel hfuel).symm⟩
  · refine ⟨C.length + 1, fun fuel hfuel => ⟨?_, ?_, hc.trans, ?_, ?_, by omega⟩⟩
    · rintro l l' h
      obtain rfl := Option.some.inj h
      exact hq.perm l
    · exact fun l _ => ⟨qsort l, rfl, hq.sorted l⟩
    · exact fun a b h => (of_decide_eq_true h).le
    · intro a b h
      have := hc.swap a b
      simp only [decide_eq_true_eq] at h
      omega

end OpenWatcom.Watcom
