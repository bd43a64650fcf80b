import OpenWatcom.Wlink.ExportList

/-! # The ordinals of the export list

`AssignOrdinals` goes through the export list with the pointers `prev` and `place` and puts the exports without an
ordinal, one after the other from the head, where an ordinal is free. -/

namespace OpenWatcom.ExportList

open Chains

variable {α : Type*} [DecidableEq α]

/-- A number as an `ordinal_t`. -/
def wrap32 (n : ℤ) : ℤ := (n + 2 ^ 31) % 2 ^ 32 - 2 ^ 31

/-- The export `exp` at the head of the list is put behind `prev`, with the ordinal after that of `prev`. -/
def insertAfter (s : Exports α) (exp prev : α) (place : Option α) : Exports α :=
  let t :=
    if s.exports ≠ some prev then
      ((s.setLink none (s.next exp)).setLink (some prev) (some exp)).setLink (some exp) place
    else s
  t.setOrdinal exp (wrap32 (t.ordinal prev + 1))

/-- The inner loop of `AssignOrdinals`, for the export `exp` at the head of the list. -/
def placeOrdinal (s : Exports α) (exp : α) : ℕ → α → Option α → Option (Exports α × Option α)
  | 0, _, _ => none
  | n + 1, prev, place =>
      match place with
      | some place' =>
          if wrap32 (s.ordinal place' - s.ordinal prev) > 1 then some (insertAfter s exp prev place, place)
          else placeOrdinal s exp n place' (s.next place')
      | none => some (insertAfter s exp prev place, place)

/-- The outer loop of `AssignOrdinals`. -/
def assignLoop (fuel : ℕ) : ℕ → Exports α → α → Option α → Option (Exports α)
  | 0, _, _, _ => none
  | n + 1, s, prev, place =>
      match s.exports with
      | none => none
      | some exp =>
          if s.ordinal exp = 0 then
            match placeOrdinal s exp fuel prev place with
            | none => none
            | some (s, place) => assignLoop fuel n s exp place
          else some s

/-- `AssignOrdinals`, after the old library has been read. -/
def assignOrdinals (fuel : ℕ) (s : Exports α) : Option (Exports α) :=
  match s.exports with
  | none => some s
  | some prev => assignLoop fuel fuel s prev (s.next prev)

section AssignOrdinals

variable {s s' : Exports α} {zs cs v : List α} {prev exp : α}

/-- What `AssignOrdinals` keeps: exports without an ordinal, then ordinals without a gap up to `prev`, then the rest. -/
structure Filled (s : Exports α) (zs cs v : List α) (prev : α) : Prop where
  chain : Chain s.next s.exports (zs ++ cs ++ v)
  zeros : ∀ a ∈ zs, s.ordinal a = 0
  consecutive : cs.map s.ordinal = (List.range' 1 cs.length).map Nat.cast
  last : (zs ++ cs).getLast? = some prev
  rest : Ordered s.ordinal v
  above : cs ≠ [] → ∀ a ∈ v, (cs.length : ℤ) < s.ordinal a

omit [DecidableEq α] in
theorem Filled.prev_ordinal (h : Filled s zs cs v prev) : s.ordinal prev = cs.length := by
  obtain rfl | ⟨w, b, rfl⟩ := cs.eq_nil_or_concat'
  · have := h.last
    rw [List.append_nil] at this
    exact h.zeros prev (List.mem_of_getLast? this)
  · have hlast := h.last
    rw [← List.append_assoc, List.getLast?_concat] at hlast
    obtain rfl := Option.some.inj hlast
    have := congrArg List.getLast? h.consecutive
    simpa [List.range'_concat, add_comm] using this

omit [DecidableEq α] in
theorem Filled.next_prev (h : Filled s zs cs v prev) : s.next prev = v.head? := by
  obtain ⟨w, hw⟩ := List.getLast?_eq_some_iff.mp h.last
  have hchain := h.chain
  rw [hw, List.append_assoc] at hchain
  obtain ⟨r, -, rfl, hv⟩ := path_append.mp hchain
  cases v with
  | nil => exact hv
  | cons a v => exact hv.1

theorem wrap32_of_range {n : ℤ} (h0 : -2 ^ 31 ≤ n) (hlt : n < 2 ^ 31) : wrap32 n = n := by
  unfold wrap32
  omega

omit [DecidableEq α] in
/-- The ordinals that are given in a row. -/
theorem consecutive_concat {o : α → ℤ} {a : α} (h : cs.map o = (List.range' 1 cs.length).map Nat.cast)
    (ha : o a = cs.length + 1) : (cs ++ [a]).map o = (List.range' 1 (cs ++ [a]).length).map Nat.cast := by
  rw [List.map_append, h, List.length_append, List.length_singleton, List.range'_concat]
  simp [ha, add_comm]

/-- The list and the ordinals when the export at the head has been put behind `prev`. -/
theorem insertAfter_chain (h : Filled s (exp :: zs) cs v prev) (hlt : cs.length + 1 < 2 ^ 31) :
    Chain (insertAfter s exp prev v.head?).next (insertAfter s exp prev v.head?).exports (zs ++ (cs ++ [exp]) ++ v) ∧
      (insertAfter s exp prev v.head?).ordinal = Function.update s.ordinal exp (cs.length + 1) := by
  have hnotin : exp ∉ zs ∧ exp ∉ cs ∧ exp ∉ v := by simpa [and_assoc] using (List.nodup_cons.mp h.chain.nodup).1
  have hhead : s.exports = some exp := h.chain.1
  have hvalue : wrap32 (s.ordinal prev + 1) = cs.length + 1 := by
    rw [h.prev_ordinal]
    exact wrap32_of_range (by omega) (by omega)
  unfold insertAfter
  split_ifs with hsame
  · obtain ⟨w, hw⟩ := List.getLast?_eq_some_iff.mp h.last
    obtain rfl | ⟨b, w', rfl⟩ : w = [] ∨ ∃ b w', w = b :: w' := by cases w <;> simp
    · rw [List.nil_append, List.cons_append, List.cons.injEq] at hw
      rw [hhead, hw.1] at hsame
      exact absurd rfl hsame
    · rw [List.cons_append, List.cons_append, List.cons.injEq] at hw
      obtain ⟨rfl, hw⟩ := hw
      have hne : prev ≠ exp := by
        rintro rfl
        exact hsame hhead
      have hchain := h.chain
      rw [List.cons_append, List.cons_append, hw, List.append_assoc, List.singleton_append] at hchain
      have hmoved := Exports.relocate_chain (hhead ▸ hchain)
      rw [h.next_prev, Function.update_comm hne.symm] at hmoved
      refine ⟨?_, congrArg (Function.update s.ordinal exp) hvalue⟩
      rw [← List.append_assoc, hw, List.append_assoc, List.append_assoc]
      exact hmoved
  · rw [not_not, hhead, Option.some.injEq] at hsame
    subst hsame
    obtain ⟨rfl, rfl⟩ : zs = [] ∧ cs = [] := by
      have hlast := h.last
      rw [List.cons_append] at hlast
      cases hrest : zs ++ cs with
      | nil => exact List.append_eq_nil_iff.mp hrest
      | cons b rest =>
          rw [hrest, List.getLast?_cons_cons] at hlast
          have := hrest ▸ List.mem_of_getLast? hlast
          exact absurd this (by simpa using ⟨hnotin.1, hnotin.2.1⟩)
    exact ⟨h.chain, congrArg (Function.update s.ordinal exp) hvalue⟩

/-- The export at the head of the list is put behind `prev`, with the next ordinal. -/
theorem insertAfter_filled (h : Filled s (exp :: zs) cs v prev) (hgap : ∀ a ∈ v, (cs.length : ℤ) + 1 < s.ordinal a)
    (hlt : cs.length + 1 < 2 ^ 31) :
    Filled (insertAfter s exp prev v.head?) zs (cs ++ [exp]) v exp ∧
      ∀ a, s.ordinal a ≠ 0 → (insertAfter s exp prev v.head?).ordinal a = s.ordinal a := by
  have hnotin : exp ∉ zs ∧ exp ∉ cs ∧ exp ∉ v := by simpa [and_assoc] using (List.nodup_cons.mp h.chain.nodup).1
  obtain ⟨hchain, hord⟩ := insertAfter_chain h hlt
  have hothers : ∀ a, a ≠ exp → (insertAfter s exp prev v.head?).ordinal a = s.ordinal a := fun a ha => by
    rw [hord, Function.update_of_ne ha]
  refine ⟨⟨hchain, fun a ha => ?_, ?_, ?_, ?_, fun _ a ha => ?_⟩, fun a ha => hothers a ?_⟩
  · rw [hothers a (ne_of_mem_of_not_mem ha hnotin.1)]
    exact h.zeros a (List.mem_cons_of_mem _ ha)
  · refine consecutive_concat ?_ (by rw [hord, Function.update_self])
    rw [← h.consecutive]
    exact List.map_congr_left fun a ha => hothers a (ne_of_mem_of_not_mem ha hnotin.2.1)
  · rw [← List.append_assoc, List.getLast?_concat]
  · exact h.rest.congr fun a ha => hothers a (ne_of_mem_of_not_mem ha hnotin.2.2)
  · rw [hothers a (ne_of_mem_of_not_mem ha hnotin.2.2)]
    simpa using hgap a ha
  · rintro rfl
    exact ha (h.zeros a List.mem_cons_self)

omit [DecidableEq α] in
/-- The next export of the list follows `prev` without a gap. -/
theorem Filled.forward {place : α} (h : Filled s (exp :: zs) cs (place :: v) prev)
    (hnogap : s.ordinal place - s.ordinal prev ≤ 1) :
    ∃ zs' cs', Filled s (exp :: zs') cs' v place ∧ exp :: zs' ++ cs' ++ v = exp :: zs ++ cs ++ place :: v ∧
      zs'.length ≤ zs.length + 1 := by
  rw [h.prev_ordinal] at hnogap
  have hnonneg := h.rest.nonneg place List.mem_cons_self
  have hpair := List.pairwise_cons.mp h.rest.pairwise
  have hrest := h.rest.sublist (List.sublist_cons_self place v)
  by_cases hplace : s.ordinal place = cs.length + 1
  · refine ⟨zs, cs ++ [place], ⟨by simpa using h.chain, h.zeros, consecutive_concat h.consecutive hplace, ?_, hrest,
      fun _ a ha => ?_⟩, by simp, by omega⟩
    · rw [← List.append_assoc, List.getLast?_concat]
    · have := hpair.1 a ha
      simp only [List.length_append, List.length_singleton, Nat.cast_add, Nat.cast_one]
      omega
  · obtain rfl : cs = [] := by
      by_contra hcs
      have := h.above hcs place List.mem_cons_self
      omega
    have hzero : s.ordinal place = 0 := by
      simp only [List.length_nil, Nat.cast_zero] at hplace hnogap
      omega
    refine ⟨zs ++ [place], [], ⟨by simpa using h.chain, fun a ha => ?_, rfl, ?_, hrest, fun hne => absurd rfl hne⟩,
      by simp, by simp⟩
    rotate_left
    · rw [List.append_nil, ← List.cons_append, List.getLast?_concat]
    obtain rfl | ha := List.mem_cons.mp ha
    · exact h.zeros a List.mem_cons_self
    · obtain ha | ha := List.mem_append.mp ha
      · exact h.zeros a (List.mem_cons_of_mem _ ha)
      · obtain rfl := List.mem_singleton.mp ha
        exact hzero

/-- One export gets an ordinal. -/
theorem placeOrdinal_filled (n : ℕ) (h : Filled s (exp :: zs) cs v prev) (hn : v.length < n)
    (hlength : (exp :: zs ++ cs ++ v).length < 2 ^ 31) :
    ∃ s' zs' cs' v', placeOrdinal s exp n prev v.head? = some (s', v'.head?) ∧ Filled s' zs' cs' v' exp ∧
      (zs' ++ cs' ++ v').Perm (exp :: zs ++ cs ++ v) ∧ zs'.length + v'.length < zs.length + 1 + v.length ∧
        ∀ a, s.ordinal a ≠ 0 → s'.ordinal a = s.ordinal a := by
  induction n generalizing zs cs v prev with
  | zero => cases hn
  | succ n ih =>
      have hinsert : (∀ a ∈ v, (cs.length : ℤ) + 1 < s.ordinal a) →
          ∃ s' zs' cs' v', some (insertAfter s exp prev v.head?, v.head?) = some (s', v'.head?) ∧
            Filled s' zs' cs' v' exp ∧ (zs' ++ cs' ++ v').Perm (exp :: zs ++ cs ++ v) ∧
              zs'.length + v'.length < zs.length + 1 + v.length ∧
                ∀ a, s.ordinal a ≠ 0 → s'.ordinal a = s.ordinal a := by
        intro hgap
        obtain ⟨hfilled, hkept⟩ := insertAfter_filled h hgap (by
          simp only [List.length_append, List.length_cons] at hlength
          omega)
        refine ⟨_, zs, cs ++ [exp], v, rfl, hfilled, ?_, by omega, hkept⟩
        rw [← List.append_assoc, List.append_assoc, List.singleton_append]
        exact List.perm_middle
      cases v with
      | nil => exact hinsert fun a ha => by cases ha
      | cons place v =>
          rw [List.head?_cons, placeOrdinal]
          have hplace0 := h.rest.nonneg place List.mem_cons_self
          have hplacelt := h.rest.lt place List.mem_cons_self
          have hprev := h.prev_ordinal
          have hcs : cs.length < 2 ^ 31 := by
            simp only [List.length_append, List.length_cons] at hlength
            omega
          rw [wrap32_of_range (by omega) (by omega)]
          split_ifs with hgap
          · refine hinsert fun a ha => ?_
            obtain rfl | ha := List.mem_cons.mp ha
            · omega
            · have := List.rel_of_pairwise_cons h.rest.pairwise ha
              omega
          · obtain ⟨zs', cs', hfilled, hsame, hle⟩ := h.forward (not_lt.mp hgap)
            have hnext : s.next place = v.head? := hfilled.next_prev
            rw [hnext]
            obtain ⟨s', zs'', cs'', v'', hloop, hfilled', hperm, hlt, hkept⟩ := ih hfilled (by simpa using hn)
              (by rw [hsame]; exact hlength)
            refine ⟨s', zs'', cs'', v'', hloop, hfilled', hsame ▸ hperm, ?_, hkept⟩
            rw [List.length_cons]
            omega

/-- All exports have ordinals, in order. -/
def Assigned (s : Exports α) (l : List α) : Prop :=
  Chain s.next s.exports l ∧ (∀ a ∈ l, 1 ≤ s.ordinal a) ∧ l.Pairwise fun a b => s.ordinal a < s.ordinal b

omit [DecidableEq α] in
theorem Filled.assigned (h : Filled s [] cs v prev) : Assigned s (cs ++ v) := by
  have hne : cs ≠ [] := by
    rintro rfl
    exact nomatch h.last
  have hcs : ∀ a ∈ cs, 1 ≤ s.ordinal a ∧ s.ordinal a ≤ cs.length := by
    intro a ha
    have hmem := List.mem_map_of_mem (f := s.ordinal) ha
    rw [h.consecutive] at hmem
    obtain ⟨i, hi, heq⟩ := List.mem_map.mp hmem
    have := List.mem_range'_1.mp hi
    omega
  have hv : ∀ a ∈ v, 1 ≤ s.ordinal a := fun a ha => by
    have := h.above hne a ha
    omega
  refine ⟨h.chain, fun a ha => ?_, List.pairwise_append.mpr ⟨?_, ?_, fun a ha b hb => ?_⟩⟩
  · exact (List.mem_append.mp ha).elim (fun ha => (hcs a ha).1) (hv a)
  · have hmono : (cs.map s.ordinal).Pairwise (· < ·) := by
      rw [h.consecutive]
      exact List.pairwise_map.mpr ((List.pairwise_lt_range' 1).imp fun hab => by exact_mod_cast hab)
    exact List.pairwise_map.mp hmono
  · exact h.rest.pairwise.imp_of_mem fun ha _ hab => hab.resolve_left (by have := hv _ ha; omega)
  · exact (hcs a ha).2.trans_lt (h.above hne b hb)

theorem assignLoop_assigned (fuel n : ℕ) (h : Filled s zs cs v prev) (hfuel : (zs ++ cs ++ v).length < fuel)
    (hn : zs.length + v.length < n) (hlength : (zs ++ cs ++ v).length < 2 ^ 31) :
    ∃ s' l', assignLoop fuel n s prev v.head? = some s' ∧ l'.Perm (zs ++ cs ++ v) ∧ Assigned s' l' ∧
      ∀ a, s.ordinal a ≠ 0 → s'.ordinal a = s.ordinal a := by
  induction n generalizing s zs cs v prev with
  | zero => cases hn
  | succ n ih =>
      rw [assignLoop]
      cases zs with
      | nil =>
          have hassigned := h.assigned
          cases hl : cs ++ v with
          | nil =>
              obtain ⟨rfl, -⟩ := List.append_eq_nil_iff.mp hl
              exact nomatch h.last
          | cons a l =>
              rw [hl] at hassigned
              have hpos := hassigned.2.1 a List.mem_cons_self
              rw [hassigned.1.1]
              dsimp only
              rw [if_neg (by omega)]
              exact ⟨s, a :: l, rfl, by rw [List.nil_append, hl], hassigned, fun a _ => rfl⟩
      | cons exp zs =>
          have hv : v.length < fuel := by
            simp only [List.length_append] at hfuel
            omega
          obtain ⟨s₁, zs', cs', v', hplace, hfilled, hperm, hlt, hkept⟩ := placeOrdinal_filled fuel h hv hlength
          rw [show s.exports = some exp from h.chain.1]
          dsimp only
          rw [if_pos (h.zeros exp List.mem_cons_self), hplace]
          obtain ⟨s', l', hloop, hperm', hassigned, hkept'⟩ := ih hfilled (by rwa [hperm.length_eq])
            (by rw [List.length_cons] at hn; omega) (by rwa [hperm.length_eq])
          refine ⟨s', l', hloop, hperm'.trans hperm, hassigned, fun a ha => ?_⟩
          rw [hkept' a (by rwa [hkept a ha]), hkept a ha]

/-- `AssignOrdinals` ends, with all exports in the list and ordinals that are all different and at least 1. -/
theorem assignOrdinals_assigned (fuel : ℕ) {l : List α} (h : Listed s l) (hfuel : l.length < fuel)
    (hlength : l.length < 2 ^ 31) :
    ∃ s' l', assignOrdinals fuel s = some s' ∧ l'.Perm l ∧ Assigned s' l' ∧
      ∀ a, s.ordinal a ≠ 0 → s'.ordinal a = s.ordinal a := by
  unfold assignOrdinals
  cases l with
  | nil =>
      rw [show s.exports = none from h.chain]
      exact ⟨s, [], rfl, List.Perm.refl _, ⟨h.chain, (fun a ha => by cases ha), List.Pairwise.nil⟩, fun a _ => rfl⟩
  | cons a l =>
      rw [show s.exports = some a from h.chain.1]
      dsimp only
      have hpair := List.pairwise_cons.mp h.ordered.pairwise
      by_cases hzero : s.ordinal a = 0
      · have hfilled : Filled s [a] [] l a := by
          refine ⟨h.chain, fun b hb => ?_, rfl, rfl, h.ordered.sublist (List.sublist_cons_self a l),
            fun hne => absurd rfl hne⟩
          obtain rfl := List.mem_singleton.mp hb
          exact hzero
        rw [hfilled.next_prev]
        exact assignLoop_assigned fuel fuel hfilled hfuel (by simpa [add_comm] using hfuel) hlength
      · -- the first export has an ordinal, and so have all
        obtain ⟨fuel, rfl⟩ := Nat.exists_eq_add_of_le' (show 1 ≤ fuel by omega)
        rw [assignLoop, show s.exports = some a from h.chain.1]
        dsimp only
        rw [if_neg hzero]
        have h0 := h.ordered.nonneg a List.mem_cons_self
        have hpos : ∀ b ∈ a :: l, 1 ≤ s.ordinal b := by
          intro b hb
          obtain rfl | hb := List.mem_cons.mp hb
          · omega
          · have := hpair.1 b hb
            omega
        exact ⟨s, a :: l, rfl, List.Perm.refl _, ⟨h.chain, hpos, h.ordered.pairwise.imp_of_mem fun ha _ hab =>
          hab.resolve_left (by have := hpos _ ha; omega)⟩, fun a _ => rfl⟩

end AssignOrdinals

/-! ### The whole run -/

/-- The calls of `AddToExportList`, with the exports that are accepted, where `same` compares two names. -/
def addAll (fuel : ℕ) (same : α → α → Bool) : List α → Exports α → List α → Option (Exports α × List α)
  | [], s, accepted => some (s, accepted)
  | exp :: exps, s, accepted =>
      match addToExportList fuel s (same exp) exp with
      | none => none
      | some (s, isAccepted) => addAll fuel same exps s (if isAccepted then exp :: accepted else accepted)

/-- The calls of `CheckExport`. -/
def checkAll (fuel : ℕ) : List ((α → Bool) × ℤ) → Exports α → Option (Exports α)
  | [], s => some s
  | (isNamed, ordinal) :: checks, s =>
      match checkExport fuel s isNamed ordinal with
      | none => none
      | some s => checkAll fuel checks s

/-- The exports whose names are not among those before them, the last one first. -/
def newNames (same : α → α → Bool) (exps accepted : List α) : List α :=
  exps.foldl (fun accepted exp => if accepted.any (same exp) then accepted else exp :: accepted) accepted

section Run

variable {s : Exports α} {l accepted all : List α} {request : α → ℤ}

/-- The exports have the ordinals they ask for, but for those that ask for the ordinal of another. -/
def Requested (request : α → ℤ) (all : List α) (o : α → ℤ) (l : List α) : Prop :=
  ∀ a ∈ l, o a = request a ∨ o a = 0 ∧ ∃ b ∈ all, b ≠ a ∧ request b = request a

theorem addAll_listed (fuel : ℕ) (same : α → α → Bool) {exps : List α} (h : Listed s l) (hperm : l.Perm accepted)
    (hreq : Requested request all s.ordinal l) (hl : ∀ a ∈ l, a ∈ all) (hd : exps.Nodup) (hnew : ∀ a ∈ exps, a ∉ l)
    (hfuel : l.length + exps.length < fuel) (hrequest : ∀ a ∈ exps, s.ordinal a = request a ∧ a ∈ all)
    (hrange : ∀ a ∈ exps, 0 ≤ request a ∧ request a < 2 ^ 31) :
    ∃ s' l', addAll fuel same exps s accepted = some (s', newNames same exps accepted) ∧ Listed s' l' ∧
      l'.Perm (newNames same exps accepted) ∧ l'.length ≤ l.length + exps.length ∧
        Requested request all s'.ordinal l' := by
  induction exps generalizing s l accepted with
  | nil => exact ⟨s, l, rfl, h, hperm, by simp, hreq⟩
  | cons exp exps ih =>
      obtain ⟨hexp, hd⟩ := List.nodup_cons.mp hd
      have hown := (hrequest exp List.mem_cons_self).1
      obtain ⟨h0, hlt⟩ := hrange exp List.mem_cons_self
      rw [List.length_cons] at hfuel
      obtain ⟨s₁, isAccepted, l₁, hadd, hlisted, hperm₁, hnamed, hothers, hgiven⟩ :=
        addToExportList_spec (same exp) fuel h (hnew exp List.mem_cons_self) (by omega)
          (hown ▸ h0) (hown ▸ hlt)
      have haccepted : isAccepted = !accepted.any (same exp) := by
        simp only [hperm.mem_iff, ← List.any_eq_true] at hnamed
        cases isAccepted <;> cases hany : accepted.any (same exp) <;> simp [hany] at hnamed ⊢
      have hmem : ∀ a ∈ l₁, a = exp ∨ a ∈ l := by
        intro a ha
        have := hperm₁.mem_iff.mp ha
        split at this
        · exact List.mem_cons.mp this
        · exact .inr this
      have hreq₁ : Requested request all s₁.ordinal l₁ := by
        intro a ha
        by_cases hae : a = exp
        · subst hae
          obtain heq | ⟨heq, b, hb, hsame⟩ := hgiven
          · exact .inl (heq.trans hown)
          · have hba : b ≠ a := ne_of_mem_of_not_mem hb (hnew a List.mem_cons_self)
            obtain hbr | ⟨hb0, -⟩ := hreq b hb
            · exact .inr ⟨heq, b, hl b hb, hba, by rw [← hbr, hsame, hown]⟩
            · exact .inl (by omega)
        · rw [hothers a hae]
          exact hreq a ((hmem a ha).resolve_left hae)
      have hlength : l₁.length ≤ l.length + 1 := by
        rw [hperm₁.length_eq]
        split <;> simp
      obtain ⟨s', l', hloop, hlisted', hperm', hle, hreq'⟩ := ih hlisted
        (show l₁.Perm (if isAccepted then exp :: accepted else accepted) from
          hperm₁.trans (by split <;> simp [hperm])) hreq₁
        (fun a ha => (hmem a ha).elim (fun h' => h' ▸ (hrequest exp List.mem_cons_self).2) (hl a)) hd
        (fun a ha hmem' => (hmem a hmem').elim (fun h' => hexp (h' ▸ ha)) (hnew a (List.mem_cons_of_mem _ ha)))
        (by omega)
        (fun a ha => ⟨(hothers a (ne_of_mem_of_not_mem ha hexp)).trans (hrequest a (List.mem_cons_of_mem _ ha)).1,
          (hrequest a (List.mem_cons_of_mem _ ha)).2⟩)
        fun a ha => hrange a (List.mem_cons_of_mem _ ha)
      have hnames : newNames same exps (if isAccepted then exp :: accepted else accepted) =
          newNames same (exp :: exps) accepted := by
        rw [newNames, newNames, List.foldl_cons, haccepted]
        cases accepted.any (same exp) <;> rfl
      rw [hnames] at hloop hperm'
      refine ⟨s', l', ?_, hlisted', hperm', by rw [List.length_cons]; omega, hreq'⟩
      rw [addAll, hadd]
      exact hloop

theorem checkAll_step (fuel : ℕ) {checks : List ((α → Bool) × ℤ)} (h : Listed s l) (hfuel : l.length < fuel)
    (hrange : ∀ c ∈ checks, 0 ≤ c.2 ∧ c.2 < 2 ^ 31) :
    ∃ s' l', checkAll fuel checks s = some s' ∧ Step s l s' l' := by
  induction checks generalizing s l with
  | nil => exact ⟨s, l, rfl, h, List.Perm.refl _, fun a _ _ => rfl⟩
  | cons c checks ih =>
      obtain ⟨h0, hlt⟩ := hrange c List.mem_cons_self
      obtain ⟨s₁, l₁, hcheck, hstep⟩ := checkExport_step fuel c.1 h hfuel h0 hlt
      obtain ⟨s', l', hrest, hstep'⟩ := ih hstep.listed (by rwa [hstep.perm.length_eq])
        fun c hc => hrange c (List.mem_cons_of_mem _ hc)
      refine ⟨s', l', ?_, hstep'.listed, hstep'.perm.trans hstep.perm, fun a ha hne => ?_⟩
      · rw [checkAll, hcheck]
        exact hrest
      · have := hstep.kept a ha hne
        rw [hstep'.kept a (hstep.perm.mem_iff.mpr ha) (by rwa [this]), this]

/-- When the ordinals asked for and those of the old library are not negative, the list is in order after the calls of
`AddToExportList` and after those of `CheckExport`, each time with the accepted exports, and `AssignOrdinals` ends with
ordinals that are all different and at least 1; an ordinal that no other export asks for is kept. -/
theorem exportOrdinals_assigned (fuel : ℕ) (same : α → α → Bool) (request : α → ℤ) (next : α → Option α) (exps : List α)
    (checks : List ((α → Bool) × ℤ)) (hd : exps.Nodup) (hfuel : exps.length < fuel) (hlength : exps.length < 2 ^ 31)
    (hrange : ∀ a ∈ exps, 0 ≤ request a ∧ request a < 2 ^ 31) (hchecks : ∀ c ∈ checks, 0 ≤ c.2 ∧ c.2 < 2 ^ 31) :
    ∃ s₁ l₁ s₂ l₂ s₃ l₃,
      (addAll fuel same exps ⟨none, next, request⟩ [] = some (s₁, newNames same exps []) ∧ Listed s₁ l₁ ∧
        l₁.Perm (newNames same exps [])) ∧
      (checkAll fuel checks s₁ = some s₂ ∧ Listed s₂ l₂ ∧ l₂.Perm (newNames same exps [])) ∧
      (assignOrdinals fuel s₂ = some s₃ ∧ Assigned s₃ l₃ ∧ l₃.Perm (newNames same exps [])) ∧
      ∀ a ∈ l₃, request a ≠ 0 → (∀ b ∈ exps, b ≠ a → request b ≠ request a) → s₃.ordinal a = request a := by
  obtain ⟨s₁, l₁, hadd, hlisted₁, hperm₁, hle, hreq⟩ := addAll_listed (s := ⟨none, next, request⟩) (l := []) fuel same
    ⟨rfl, (fun a ha => by cases ha), (fun a ha => by cases ha), List.Pairwise.nil⟩ (List.Perm.refl [])
    (show Requested request exps request [] from fun a ha => by cases ha) (fun a ha => by cases ha) hd
    (fun a _ ha => by cases ha) (by simpa using hfuel)
    (fun a ha => ⟨rfl, ha⟩) hrange
  rw [List.length_nil, Nat.zero_add] at hle
  obtain ⟨s₂, l₂, hcheck, hstep⟩ := checkAll_step fuel hlisted₁ (by omega) hchecks
  have hlength₂ := hstep.perm.length_eq
  obtain ⟨s₃, l₃, hassign, hperm₃, hassigned, hkept⟩ := assignOrdinals_assigned fuel hstep.listed (by omega) (by omega)
  refine ⟨s₁, l₁, s₂, l₂, s₃, l₃, ⟨hadd, hlisted₁, hperm₁⟩, ⟨hcheck, hstep.listed, hstep.perm.trans hperm₁⟩,
    ⟨hassign, hassigned, hperm₃.trans (hstep.perm.trans hperm₁)⟩, fun a ha hne hunique => ?_⟩
  have ha₁ : a ∈ l₁ := hstep.perm.mem_iff.mp (hperm₃.mem_iff.mp ha)
  have hgiven : s₁.ordinal a = request a := by
    obtain heq | ⟨-, b, hb, hba, hsame⟩ := hreq a ha₁
    · exact heq
    · exact absurd hsame (hunique b hb hba)
  have hkept₂ := hstep.kept a ha₁ (by rwa [hgiven])
  rw [hkept a (by rwa [hkept₂, hgiven]), hkept₂, hgiven]

end Run

/-- Two exports, the second one without an ordinal. -/
theorem exportOrdinals_assigned_two :
    ∃ s₁ l₁ s₂ l₂ s₃ l₃,
      (addAll 3 (fun a b : Bool => a == b) [true, false] ⟨none, fun _ => none, fun a => if a then 1 else 0⟩ [] =
          some (s₁, newNames (fun a b : Bool => a == b) [true, false] []) ∧ Listed s₁ l₁ ∧
        l₁.Perm (newNames (fun a b : Bool => a == b) [true, false] [])) ∧
      (checkAll 3 [] s₁ = some s₂ ∧ Listed s₂ l₂ ∧ l₂.Perm (newNames (fun a b : Bool => a == b) [true, false] [])) ∧
      (assignOrdinals 3 s₂ = some s₃ ∧ Assigned s₃ l₃ ∧
        l₃.Perm (newNames (fun a b : Bool => a == b) [true, false] [])) ∧
      ∀ a ∈ l₃, (if a then (1 : ℤ) else 0) ≠ 0 →
        (∀ b ∈ [true, false], b ≠ a → (if b then (1 : ℤ) else 0) ≠ if a then 1 else 0) →
          s₃.ordinal a = if a then 1 else 0 :=
  exportOrdinals_assigned 3 _ _ _ _ _ (by decide) (by decide) (by decide) (by decide) (fun c hc => by cases hc)

/-- The export that asks for ordinal 4294967295 of 32 bits is put first, and the other one gets no ordinal. -/
theorem not_exportOrdinals_assigned :
    ¬ ∀ (request : Bool → ℤ) (exps : List Bool), exps.Nodup → (∀ a ∈ exps, -2 ^ 31 ≤ request a ∧ request a < 2 ^ 31) →
      ∃ s₁ accepted s₃ l₃,
        addAll 3 (fun a b : Bool => a == b) exps ⟨none, fun _ => none, request⟩ [] = some (s₁, accepted) ∧
        assignOrdinals 3 s₁ = some s₃ ∧ Assigned s₃ l₃ ∧ l₃.Perm accepted := by
  intro h
  obtain ⟨s₁, accepted, s₃, l₃, hadd, hassign, ⟨-, hpos, -⟩, hperm⟩ :=
    h (fun a => if a then wrap32 4294967295 else 0) [false, true] (by decide) (by decide)
  obtain ⟨rfl, rfl⟩ := Prod.mk.inj (Option.some.inj hadd)
  obtain rfl := Option.some.inj hassign
  have := hpos false (hperm.mem_iff.mpr (by decide))
  revert this
  decide

end OpenWatcom.ExportList
