import OpenWatcom.Lib.Chains

/-! # The export list

`AddToExportList` puts an export into a linked list that is kept in the order of the ordinals, and `CheckExport` gives
an export the ordinal it has in an old library, both by moving the pointers of the list. -/

namespace OpenWatcom.ExportList

open Chains

variable {α : Type*} [DecidableEq α]

/-- `FmtData.u.os2fam.exports`, with the fields `next` and `ordinal` of the exports.  Ordinal 0 is none. -/
structure Exports (α : Type*) where
  exports : Option α
  next : α → Option α
  ordinal : α → ℤ

namespace Exports

/-- What a pointer to a link holds: the head of the list, or the field `next` of an export. -/
def link (s : Exports α) : Option α → Option α
  | none => s.exports
  | some a => s.next a

/-- The store after a link is set. -/
def setLink (s : Exports α) (owner v : Option α) : Exports α :=
  match owner with
  | none => { s with exports := v }
  | some a => { s with next := Function.update s.next a v }

def setOrdinal (s : Exports α) (a : α) (v : ℤ) : Exports α := { s with ordinal := Function.update s.ordinal a v }

end Exports

/-- The loop of `FindPlace`, with what it returns.  A null pointer that is followed is an error. -/
def findPlaceLoop (s : Exports α) (exp : α) : ℕ → Option α → α → Option (Exports α × Option α)
  | 0, _, _ => none
  | n + 1, prev, place =>
      if s.ordinal place = s.ordinal exp then some (s.setOrdinal exp 0, none)
      else if s.ordinal place > s.ordinal exp then
        match prev with
        | none => none
        | some prev => some ((s.setLink (some exp) (some place)).setLink (some prev) (some exp), s.next exp)
      else
        match s.next place with
        | none => some ((s.setLink (some place) (some exp)).setLink (some exp) none, s.next exp)
        | some place' => findPlaceLoop s exp n (some place) place'

/-- `FindPlace`. -/
def findPlace (fuel : ℕ) (s : Exports α) (exp : α) : Option (Exports α × Option α) :=
  match s.next exp with
  | none => some (s, none)
  | some place => if s.ordinal place ≤ s.ordinal exp then findPlaceLoop s exp fuel none place else some (s, none)

/-- The loop of `CheckExport`, where `isNamed` says whether an export has the name. -/
def checkExportLoop (fuel : ℕ) (s : Exports α) (isNamed : α → Bool) (ordinal : ℤ) :
    ℕ → Option α → Option α → Option (Exports α)
  | 0, _, _ => none
  | _ + 1, _, none => some s
  | n + 1, prev, some place =>
      if isNamed place then
        if s.ordinal place = 0 then
          match findPlace fuel (s.setOrdinal place ordinal) place with
          | none => none
          | some (s, none) => some s
          | some (s, some place) => some (s.setLink prev (some place))
        else some s
      else checkExportLoop fuel s isNamed ordinal n (some place) (s.next place)

/-- `CheckExport`. -/
def checkExport (fuel : ℕ) (s : Exports α) (isNamed : α → Bool) (ordinal : ℤ) : Option (Exports α) :=
  checkExportLoop fuel s isNamed ordinal fuel none s.exports

/-- The loop of `AddToExportList`, with its pointers `owner` and `place`; it gives nothing when the name is there. -/
def addLoop (s : Exports α) (isNamed : α → Bool) (exp : α) :
    ℕ → Option α → Option (Option α) → Option (Exports α × Option (Option α × Option (Option α)))
  | 0, _, _ => none
  | n + 1, owner, place =>
      match s.link owner with
      | none => some (s, some (owner, place))
      | some curr =>
          if isNamed curr then some (s, none)
          else
            match place with
            | some place => addLoop s isNamed exp n (some curr) (some place)
            | none =>
                if s.ordinal exp = 0 then
                  addLoop s isNamed exp n (some curr) (if s.ordinal curr ≠ 0 then some owner else none)
                else if s.ordinal curr = s.ordinal exp then
                  addLoop (s.setOrdinal exp 0) isNamed exp n (some curr) (some none)
                else addLoop s isNamed exp n (some curr) (if s.ordinal curr > s.ordinal exp then some owner else none)

/-- `AddToExportList`, and whether the export is accepted. -/
def addToExportList (fuel : ℕ) (s : Exports α) (isNamed : α → Bool) (exp : α) : Option (Exports α × Bool) :=
  match addLoop s isNamed exp fuel none none with
  | none => none
  | some (s, none) => some (s, false)
  | some (s, some (owner, place)) =>
      let place := place.getD owner
      some ((s.setLink (some exp) (s.link place)).setLink place (some exp), true)

/-! ### The pointers -/

namespace Exports

variable {s : Exports α} {l m u v : List α} {a b exp : α} {p q : Option α}

/-- A link between a list and what is behind it. -/
theorem setLink_chain (h : Path s.next s.exports u q) (hu : u.Nodup) (hv : Chain s.next p v)
    (hdisj : ∀ a ∈ u, a ∉ v) :
    Chain (s.setLink u.getLast? p).next (s.setLink u.getLast? p).exports (u ++ v) := by
  obtain rfl | ⟨w, b, rfl⟩ := u.eq_nil_or_concat'
  · exact hv
  · rw [List.getLast?_concat]
    obtain ⟨r, hw, hb, rfl⟩ := path_append.mp h
    have hbw : b ∉ w := by simpa using (List.nodup_append'.mp hu).2.2
    have hbv : b ∉ v := hdisj b (by simp)
    rw [List.append_assoc]
    refine path_append.mpr ⟨r, hw.congr fun a ha => ?_, hb, ?_⟩
    · exact Function.update_of_ne (ne_of_mem_of_not_mem ha hbw) _ _
    · dsimp only [setLink]
      rw [Function.update_self]
      exact hv.congr fun a ha => Function.update_of_ne (ne_of_mem_of_not_mem ha hbv) _ _

theorem setLink_comm (h : a ≠ b) :
    (s.setLink (some a) p).setLink (some b) q = (s.setLink (some b) q).setLink (some a) p := by
  simp only [setLink, Function.update_comm h]

/-- An export is taken from before a list and put behind the node `b` of it. -/
theorem relocate_chain {next : α → Option α} (h : Chain next (some exp) (exp :: (m ++ b :: v))) :
    Chain (Function.update (Function.update next exp (next b)) b (some exp)) (next exp) (m ++ b :: exp :: v) := by
  have hd := h.nodup
  simp only [List.nodup_cons, List.mem_append, List.mem_cons, not_or, List.nodup_append'] at hd
  obtain ⟨⟨hexpm, hexpb, hexpv⟩, -, ⟨hbv, -⟩, hdisj⟩ := hd
  have hbm : b ∉ m := fun hb => List.disjoint_left.mp hdisj hb List.mem_cons_self
  obtain ⟨r, hm, hb, hv⟩ := path_append.mp h.2
  have hne : ∀ x, x ≠ exp → x ≠ b → Function.update (Function.update next exp (next b)) b (some exp) x = next x :=
    fun x hx hxb => by rw [Function.update_of_ne hxb, Function.update_of_ne hx]
  refine path_append.mpr ⟨r, hm.congr fun a ha => hne a ?_ ?_, hb, ?_, ?_⟩
  · exact fun heq => hexpm (heq ▸ ha)
  · exact fun heq => hbm (heq ▸ ha)
  · exact Function.update_self ..
  · rw [Function.update_of_ne hexpb, Function.update_self]
    exact hv.congr fun a ha => hne a (fun heq => hexpv (heq ▸ ha)) (fun heq => hbv (heq ▸ ha))

end Exports

/-- The ordinals are in range, those without one come first, and the others are in order. -/
structure Ordered (ordinal : α → ℤ) (l : List α) : Prop where
  nonneg : ∀ a ∈ l, 0 ≤ ordinal a
  lt : ∀ a ∈ l, ordinal a < 2 ^ 31
  pairwise : l.Pairwise fun a b => ordinal a = 0 ∨ ordinal a < ordinal b

/-- The pointers lead through the exports of the list, in the order of the ordinals. -/
structure Listed (s : Exports α) (l : List α) : Prop where
  chain : Chain s.next s.exports l
  ordered : Ordered s.ordinal l

section FindPlace

variable {s : Exports α} {exp : α}

/-- What `FindPlace` does with the export before a list. -/
def Placed (s : Exports α) (exp : α) (rest : List α) (s' : Exports α) (ret : Option α) : Prop :=
  (ret = none ∧ s' = s.setOrdinal exp 0) ∨
    ∃ m b v, rest = m ++ b :: v ∧ ret = s.next exp ∧ s'.ordinal = s.ordinal ∧ s'.exports = s.exports ∧
      (∀ x, x ∉ exp :: rest → s'.next x = s.next x) ∧ Chain s'.next ret (m ++ b :: exp :: v) ∧
      (∀ a ∈ m ++ [b], s.ordinal a < s.ordinal exp) ∧ ∀ a ∈ v, s.ordinal exp < s.ordinal a

/-- The export is put behind the node `b`. -/
theorem placed_behind {m v : List α} {b : α} (h : Chain s.next (some exp) (exp :: (m ++ b :: v)))
    (hm : ∀ a ∈ m ++ [b], s.ordinal a < s.ordinal exp) (hv : ∀ a ∈ v, s.ordinal exp < s.ordinal a) :
    Placed s exp (m ++ b :: v) ((s.setLink (some exp) (s.next b)).setLink (some b) (some exp)) (s.next exp) := by
  refine .inr ⟨m, b, v, rfl, rfl, rfl, rfl, fun x hx => ?_, Exports.relocate_chain h, hm, hv⟩
  simp only [List.mem_cons, List.mem_append, not_or] at hx
  exact (Function.update_of_ne hx.2.2.1 _ _).trans (Function.update_of_ne hx.1 _ _)

theorem findPlaceLoop_placed (n : ℕ) {place : α} {m v : List α}
    (h : Chain s.next (some exp) (exp :: (m ++ place :: v))) (hn : v.length < n)
    (hm : ∀ a ∈ m, s.ordinal a < s.ordinal exp) (hexp : 0 ≤ s.ordinal exp)
    (hpair : (place :: v).Pairwise fun a b => s.ordinal a = 0 ∨ s.ordinal a < s.ordinal b)
    (hfirst : m = [] → s.ordinal place ≤ s.ordinal exp) :
    ∃ s' ret, findPlaceLoop s exp n m.getLast? place = some (s', ret) ∧ Placed s exp (m ++ place :: v) s' ret := by
  induction n generalizing m place v with
  | zero => cases hn
  | succ n ih =>
      unfold findPlaceLoop
      obtain ⟨r, -, rfl, hv⟩ := path_append.mp h.2
      split_ifs with heq hgt
      · exact ⟨_, _, rfl, .inl ⟨rfl, rfl⟩⟩
      · obtain rfl | ⟨w, b, rfl⟩ := m.eq_nil_or_concat'
        · exact absurd (hfirst rfl) (not_le.mpr hgt)
        · rw [List.getLast?_concat]
          rw [List.append_assoc, List.singleton_append] at h ⊢
          obtain ⟨r, -, rfl, hb, -⟩ := path_append.mp h.2
          refine ⟨_, _, rfl, hb ▸ placed_behind h hm fun a ha => ?_⟩
          obtain rfl | ha := List.mem_cons.mp ha
          · exact hgt
          · obtain h0 | hlt := List.rel_of_pairwise_cons hpair ha
            · omega
            · omega
      · have hlt : s.ordinal place < s.ordinal exp := by omega
        have hm' : ∀ a ∈ m ++ [place], s.ordinal a < s.ordinal exp := by
          simpa [or_imp, forall_and] using ⟨hm, hlt⟩
        cases v with
        | nil =>
            have hnone : s.next place = none := hv
            have hne : place ≠ exp := fun heq' => by rw [heq'] at hlt; exact lt_irrefl _ hlt
            have hplaced := placed_behind h hm' (fun a ha => by cases ha)
            rw [hnone] at hplaced ⊢
            rw [Exports.setLink_comm hne]
            exact ⟨_, _, rfl, hplaced⟩
        | cons c v =>
            rw [hv.1]
            have hnext := ih (m := m ++ [place]) (v := v) (by simpa using h)
              (by simpa using hn) hm' hpair.of_cons (by simp)
            simpa using hnext

/-- What `FindPlace` returns, for an export before a list in order. -/
theorem findPlace_placed (fuel : ℕ) {rest : List α} (h : Chain s.next (some exp) (exp :: rest))
    (hn : rest.length ≤ fuel) (hexp : 0 ≤ s.ordinal exp)
    (hpair : rest.Pairwise fun a b => s.ordinal a = 0 ∨ s.ordinal a < s.ordinal b) :
    ∃ s' ret, findPlace fuel s exp = some (s', ret) ∧
      (Placed s exp rest s' ret ∨ (ret = none ∧ s' = s ∧ ∀ a ∈ rest, s.ordinal exp < s.ordinal a)) := by
  unfold findPlace
  cases rest with
  | nil =>
      rw [show s.next exp = none from h.2]
      exact ⟨_, _, rfl, .inr ⟨rfl, rfl, fun a ha => by cases ha⟩⟩
  | cons place v =>
      rw [h.2.1]
      dsimp only
      split_ifs with hle
      · obtain ⟨s', ret, hloop, hplaced⟩ := findPlaceLoop_placed (m := []) fuel h (by simpa using hn)
          (fun a ha => by cases ha) hexp hpair (fun _ => hle)
        exact ⟨s', ret, hloop, .inl hplaced⟩
      · refine ⟨_, _, rfl, .inr ⟨rfl, rfl, fun a ha => ?_⟩⟩
        obtain rfl | ha := List.mem_cons.mp ha
        · omega
        · obtain h0 | hlt := List.rel_of_pairwise_cons hpair ha <;> omega

end FindPlace

/-! ### The old library -/

section CheckExport

variable {s s' : Exports α} {l l' : List α} {exp : α} {ordinal : ℤ} {o : α → ℤ}

omit [DecidableEq α] in
theorem Ordered.zeros {o : α → ℤ} {z rest : List α} {exp : α} (h : Ordered o (z ++ exp :: rest)) (hexp : o exp = 0) :
    ∀ a ∈ z, o a = 0 := by
  intro a ha
  have hpair := (List.pairwise_append.mp h.pairwise).2.2 a ha exp List.mem_cons_self
  have hnonneg := h.nonneg a (by simp [ha])
  omega

omit [DecidableEq α] in
/-- The exports without an ordinal, then exports in order. -/
theorem Ordered.of_zeros {o : α → ℤ} {z m : List α} (hz : ∀ a ∈ z, o a = 0) (h : Ordered o m) : Ordered o (z ++ m) where
  nonneg a ha := (List.mem_append.mp ha).elim (fun h' => (hz a h').ge) (h.nonneg a)
  lt a ha := (List.mem_append.mp ha).elim (fun h' => by rw [hz a h']; norm_num) (h.lt a)
  pairwise := by
    refine List.pairwise_append.mpr ⟨?_, h.pairwise, fun a ha b _ => .inl (hz a ha)⟩
    exact List.Pairwise.imp_of_mem (fun ha _ _ => .inl (hz _ ha)) (List.pairwise_of_forall (R := fun _ _ => True)
      fun _ _ => trivial)

omit [DecidableEq α] in
/-- An export put where its ordinal belongs. -/
theorem Ordered.insert {o : α → ℤ} {m v : List α} {exp : α} (h : Ordered o (m ++ v)) (h0 : 0 ≤ o exp)
    (hlt : o exp < 2 ^ 31) (hm : ∀ a ∈ m, o a = 0 ∨ o a < o exp) (hv : ∀ a ∈ v, o exp = 0 ∨ o exp < o a) :
    Ordered o (m ++ exp :: v) where
  nonneg a ha := by
    obtain ha | rfl | ha := by simpa using ha
    · exact h.nonneg a (by simp [ha])
    · exact h0
    · exact h.nonneg a (by simp [ha])
  lt a ha := by
    obtain ha | rfl | ha := by simpa using ha
    · exact h.lt a (by simp [ha])
    · exact hlt
    · exact h.lt a (by simp [ha])
  pairwise := by
    obtain ⟨hpm, hpv, hcross⟩ := List.pairwise_append.mp h.pairwise
    refine List.pairwise_append.mpr ⟨hpm, List.pairwise_cons.mpr ⟨hv, hpv⟩, fun a ha b hb => ?_⟩
    obtain rfl | hb := List.mem_cons.mp hb
    · exact hm a ha
    · exact hcross a ha b hb

omit [DecidableEq α] in
theorem Ordered.congr {o o' : α → ℤ} (h : Ordered o l) (ho : ∀ a ∈ l, o' a = o a) : Ordered o' l where
  nonneg a ha := ho a ha ▸ h.nonneg a ha
  lt a ha := ho a ha ▸ h.lt a ha
  pairwise := h.pairwise.imp_of_mem fun ha hb hab => by rwa [ho _ ha, ho _ hb]

omit [DecidableEq α] in
theorem Ordered.sublist (h : Ordered o l) (hl : l'.Sublist l) : Ordered o l' where
  nonneg a ha := h.nonneg a (hl.subset ha)
  lt a ha := h.lt a (hl.subset ha)
  pairwise := h.pairwise.sublist hl

/-- What a step does: the same exports are listed, and the ordinals that were given stay. -/
structure Step (s : Exports α) (l : List α) (s' : Exports α) (l' : List α) : Prop where
  listed : Listed s' l'
  perm : l'.Perm l
  kept : ∀ a ∈ l, s.ordinal a ≠ 0 → s'.ordinal a = s.ordinal a

/-- What `CheckExport` does with the export it has found. -/
theorem checkExport_found (fuel : ℕ) {z rest : List α} (h : Listed s (z ++ exp :: rest)) (hn : rest.length ≤ fuel)
    (hexp : s.ordinal exp = 0) (h0 : 0 ≤ ordinal) (hlt : ordinal < 2 ^ 31) :
    ∃ s₁ ret, findPlace fuel (s.setOrdinal exp ordinal) exp = some (s₁, ret) ∧
      ∃ l', Step s (z ++ exp :: rest) (match ret with | none => s₁ | some _ => s₁.setLink z.getLast? ret) l' := by
  have hd := h.chain.nodup
  obtain ⟨hdz, hdr, hdisj⟩ := List.nodup_append'.mp hd
  obtain ⟨hexpr, hdrest⟩ := List.nodup_cons.mp hdr
  have hexpz : exp ∉ z := fun hz => List.disjoint_left.mp hdisj hz List.mem_cons_self
  have hrest : ∀ a ∈ rest, (s.setOrdinal exp ordinal).ordinal a = s.ordinal a :=
    fun a ha => Function.update_of_ne (ne_of_mem_of_not_mem ha hexpr) _ _
  have hz : ∀ a ∈ z, (s.setOrdinal exp ordinal).ordinal a = 0 := fun a ha =>
    (Function.update_of_ne (ne_of_mem_of_not_mem ha hexpz) _ _).trans (h.ordered.zeros hexp a ha)
  have hself : (s.setOrdinal exp ordinal).ordinal exp = ordinal := Function.update_self ..
  have hself0 : 0 ≤ (s.setOrdinal exp ordinal).ordinal exp := h0.trans_eq hself.symm
  have hselflt : (s.setOrdinal exp ordinal).ordinal exp < 2 ^ 31 := hself.trans_lt hlt
  have hkept : ∀ a ∈ z ++ exp :: rest, s.ordinal a ≠ 0 → (s.setOrdinal exp ordinal).ordinal a = s.ordinal a := by
    intro a _ hne
    exact Function.update_of_ne (fun heq : a = exp => hne (heq ▸ hexp)) _ _
  have hordrest : Ordered (s.setOrdinal exp ordinal).ordinal rest :=
    (h.ordered.sublist ((List.sublist_cons_self exp rest).trans (List.sublist_append_right z _))).congr hrest
  obtain ⟨r, hpathz, hchain⟩ := path_append.mp h.chain
  obtain rfl := hchain.1
  obtain ⟨s₁, ret, hfind, hplaced⟩ := findPlace_placed (s := s.setOrdinal exp ordinal) fuel hchain hn
    hself0 hordrest.pairwise
  refine ⟨s₁, ret, hfind, ?_⟩
  obtain (⟨rfl, rfl⟩ | ⟨m, b, v, rfl, hret, hord, hhead, hframe, hmoved, hbefore, hafter⟩) | ⟨rfl, rfl, hall⟩ := hplaced
  · -- a second export with the ordinal: nothing has changed
    have hsame : (s.setOrdinal exp ordinal).setOrdinal exp 0 = s := by
      rw [Exports.setOrdinal, Exports.setOrdinal]
      dsimp only
      rw [Function.update_idem, ← hexp, Function.update_eq_self]
    refine ⟨z ++ exp :: rest, ?_⟩
    dsimp only
    rw [hsame]
    exact ⟨h, List.Perm.refl _, fun a _ _ => rfl⟩
  · obtain ⟨c, rfl⟩ : ∃ c, ret = some c := by
      cases ret with
      | none => cases m <;> exact nomatch hmoved
      | some c => exact ⟨c, rfl⟩
    refine ⟨z ++ (m ++ b :: exp :: v), ⟨⟨?_, ?_⟩, ?_, fun a ha hne => ?_⟩⟩
    · refine Exports.setLink_chain (q := some exp) ?_ hdz hmoved fun a ha hmem => ?_
      · rw [hhead]
        refine hpathz.congr fun a ha => hframe a fun hmem => ?_
        exact List.disjoint_left.mp hdisj ha hmem
      · refine List.disjoint_left.mp hdisj ha ?_
        simp only [List.mem_append, List.mem_cons] at hmem ⊢
        tauto
    · have hinsert : Ordered (s.setOrdinal exp ordinal).ordinal ((m ++ [b]) ++ exp :: v) :=
        (by simpa using hordrest : Ordered _ ((m ++ [b]) ++ v)).insert hself0 hselflt
          (fun a ha => .inr (hbefore a ha)) fun a ha => .inr (hafter a ha)
      have := Ordered.of_zeros hz hinsert
      have hsame : (s₁.setLink z.getLast? (some c)).ordinal = (s.setOrdinal exp ordinal).ordinal := by
        rw [← hord]
        cases z.getLast? <;> rfl
      rw [hsame]
      simpa using this
    · refine List.Perm.append_left z ?_
      simpa using (List.perm_middle : (m ++ [b] ++ exp :: v).Perm (exp :: (m ++ [b] ++ v)))
    · have hsame : (s₁.setLink z.getLast? (some c)).ordinal = (s.setOrdinal exp ordinal).ordinal := by
        rw [← hord]
        cases z.getLast? <;> rfl
      rw [hsame]
      exact hkept a ha hne
  · refine ⟨z ++ exp :: rest, ⟨h.chain, ?_⟩, List.Perm.refl _, hkept⟩
    exact Ordered.of_zeros hz (Ordered.insert (m := []) hordrest hself0 hselflt
      (fun a ha => by cases ha) fun a ha => .inr (hall a ha))

theorem checkExportLoop_step (fuel n : ℕ) (isNamed : α → Bool) {z rest : List α} (h : Listed s (z ++ rest))
    (hfuel : rest.length ≤ fuel) (hn : rest.length < n) (h0 : 0 ≤ ordinal) (hlt : ordinal < 2 ^ 31) :
    ∃ s' l', checkExportLoop fuel s isNamed ordinal n z.getLast? rest.head? = some s' ∧ Step s (z ++ rest) s' l' := by
  have hsame : Step s (z ++ rest) s (z ++ rest) := ⟨h, List.Perm.refl _, fun a _ _ => rfl⟩
  induction n generalizing z rest with
  | zero => cases hn
  | succ n ih =>
      cases rest with
      | nil => exact ⟨s, _, rfl, hsame⟩
      | cons place rest =>
          rw [List.head?_cons, checkExportLoop]
          split_ifs with hname hzero
          · obtain ⟨s₁, ret, hfind, l', hstep⟩ :=
              checkExport_found fuel h (Nat.le_of_lt (by simpa using hfuel)) hzero h0 hlt
            rw [hfind]
            cases ret with
            | none => exact ⟨_, l', rfl, hstep⟩
            | some c => exact ⟨_, l', rfl, hstep⟩
          · exact ⟨s, _, rfl, hsame⟩
          · have hnext : s.next place = rest.head? := by
              obtain ⟨r, -, rfl, hrest⟩ := path_append.mp h.chain
              cases rest with
              | nil => exact hrest
              | cons c rest => exact hrest.1
            have hstep := ih (show Listed s (z ++ [place] ++ rest) by simpa using h)
              (Nat.le_of_lt (by simpa using hfuel))
              (by simpa using hn) (by simpa using hsame)
            rw [hnext]
            simpa using hstep

/-- `CheckExport` keeps the list in order, with the same exports and the ordinals that they have. -/
theorem checkExport_step (fuel : ℕ) (isNamed : α → Bool) (h : Listed s l) (hfuel : l.length < fuel) (h0 : 0 ≤ ordinal)
    (hlt : ordinal < 2 ^ 31) : ∃ s' l', checkExport fuel s isNamed ordinal = some s' ∧ Step s l s' l' := by
  have hstep := checkExportLoop_step fuel fuel isNamed (show Listed s ([] ++ l) from h) hfuel.le hfuel h0 hlt
  have hhead : s.exports = l.head? := by
    cases l with
    | nil => exact h.chain
    | cons a l => exact h.chain.1
  rw [checkExport, hhead]
  exact hstep

end CheckExport

/-! ### A new export -/

section AddToExportList

variable {s s' : Exports α} {l z rest : List α} {exp : α} {isNamed : α → Bool}

omit [DecidableEq α] in
theorem Listed.link_getLast? (h : Listed s (z ++ rest)) : s.link z.getLast? = rest.head? := by
  obtain ⟨r, hz, hrest⟩ := path_append.mp h.chain
  obtain rfl : r = rest.head? := by
    cases rest with
    | nil => exact hrest
    | cons a rest => exact hrest.1
  obtain rfl | ⟨w, b, rfl⟩ := z.eq_nil_or_concat'
  · exact hz
  · obtain ⟨r, -, rfl, hb⟩ := path_append.mp hz
    rw [List.getLast?_concat]
    exact hb

theorem Listed.setOrdinal (h : Listed s l) (hexp : exp ∉ l) (v : ℤ) : Listed (s.setOrdinal exp v) l :=
  ⟨h.chain, h.ordered.congr fun _ ha => Function.update_of_ne (ne_of_mem_of_not_mem ha hexp) _ _⟩

/-- The place that the loop has found, if it has found one: the export belongs behind the exports `m`. -/
def Belongs (s : Exports α) (exp : α) (z : List α) (place : Option (Option α)) (rest : List α) : Prop :=
  match place with
  | none => ∀ a ∈ z, s.ordinal a = 0 ∨ s.ordinal a < s.ordinal exp
  | some place => ∃ m v, z = m ++ v ∧ place = m.getLast? ∧ (∀ a ∈ m, s.ordinal a = 0 ∨ s.ordinal a < s.ordinal exp) ∧
      ∀ a ∈ v ++ rest, s.ordinal exp = 0 ∨ s.ordinal exp < s.ordinal a

omit [DecidableEq α] in
/-- The loop goes on behind `curr` with a place that it has found. -/
theorem Belongs.found {curr : α} {place : Option α} (h : Belongs s exp z (some place) (curr :: rest)) :
    Belongs s exp (z ++ [curr]) (some place) rest := by
  obtain ⟨m, v, rfl, rfl, hm, hv⟩ := h
  exact ⟨m, v ++ [curr], by simp, rfl, hm, by simpa using hv⟩

omit [DecidableEq α] in
/-- The place is before `curr`. -/
theorem Belongs.here {curr : α} (h : Belongs s exp z none (curr :: rest)) (hord : Ordered s.ordinal (z ++ curr :: rest))
    (h0 : 0 ≤ s.ordinal exp) (hcurr : s.ordinal exp < s.ordinal curr) :
    Belongs s exp (z ++ [curr]) (some z.getLast?) rest := by
  refine ⟨z, [curr], rfl, rfl, h, fun a ha => .inr ?_⟩
  obtain rfl | ha := List.mem_cons.mp ha
  · exact hcurr
  · have := List.rel_of_pairwise_cons (List.pairwise_append.mp hord.pairwise).2.1 ha
    omega

omit [DecidableEq α] in
/-- The place is behind `curr`, or further on. -/
theorem Belongs.further {curr : α} (h : Belongs s exp z none (curr :: rest))
    (hcurr : s.ordinal curr = 0 ∨ s.ordinal curr < s.ordinal exp) : Belongs s exp (z ++ [curr]) none rest := by
  intro a ha
  obtain ha | ha := List.mem_append.mp ha
  · exact h a ha
  · obtain rfl := List.mem_singleton.mp ha
    exact hcurr

variable (isNamed) in
/-- How the loop ends that has `rest` to go, behind `z`: at an export of the name, or at the end with a place. -/
def LoopEnds (s : Exports α) (exp : α) (z rest : List α)
    (res : Option (Exports α × Option (Option α × Option (Option α)))) : Prop :=
  ∃ s' r, res = some (s', r) ∧
    (s' = s ∨ s' = s.setOrdinal exp 0 ∧ ∃ a ∈ z ++ rest, s.ordinal a = s.ordinal exp) ∧
      ((r = none ∧ ∃ a ∈ rest, isNamed a = true) ∨
        ((∀ a ∈ rest, isNamed a = false) ∧
          ∃ place', r = some ((z ++ rest).getLast?, place') ∧ Belongs s' exp (z ++ rest) place' []))

/-- An export of another name is passed, which may take the ordinal of the new one away. -/
theorem LoopEnds.cons {t : Exports α} {curr : α} {res : Option (Exports α × Option (Option α × Option (Option α)))}
    (h : LoopEnds isNamed t exp (z ++ [curr]) rest res) (hname : isNamed curr = false)
    (ht : t = s ∨ t = s.setOrdinal exp 0 ∧ s.ordinal curr = s.ordinal exp) :
    LoopEnds isNamed s exp z (curr :: rest) res := by
  obtain ⟨s', r, hres, hs', hr⟩ := h
  rw [List.append_assoc, List.singleton_append] at hr hs'
  refine ⟨s', r, hres, ?_, ?_⟩
  · obtain rfl | ⟨rfl, heq⟩ := ht
    · exact hs'
    · refine .inr ⟨?_, curr, by simp, heq⟩
      obtain rfl | ⟨rfl, -⟩ := hs'
      · rfl
      · simp only [Exports.setOrdinal, Function.update_idem]
  · obtain ⟨rfl, a, ha, hnamed⟩ | ⟨hall, hr⟩ := hr
    · exact .inl ⟨rfl, a, List.mem_cons_of_mem _ ha, hnamed⟩
    · refine .inr ⟨fun a ha => ?_, hr⟩
      obtain rfl | ha := List.mem_cons.mp ha
      · exact hname
      · exact hall a ha

variable (isNamed) in
theorem addLoop_spec (n : ℕ) {place : Option (Option α)} (h : Listed s (z ++ rest)) (hexp : exp ∉ z ++ rest)
    (hn : rest.length < n) (h0 : 0 ≤ s.ordinal exp) (hplace : Belongs s exp z place rest) :
    LoopEnds isNamed s exp z rest (addLoop s isNamed exp n z.getLast? place) := by
  induction n generalizing s z rest place with
  | zero => cases hn
  | succ n ih =>
      unfold addLoop
      rw [h.link_getLast?]
      cases rest with
      | nil =>
          refine ⟨s, _, rfl, .inl rfl, .inr ⟨(fun a ha => by cases ha), place, ?_, ?_⟩⟩
          · rw [List.append_nil]
          · rw [List.append_nil]
            exact hplace
      | cons curr rest =>
          rw [List.head?_cons]
          dsimp only
          by_cases hname : isNamed curr = true
          · rw [if_pos hname]
            exact ⟨s, none, rfl, .inl rfl, .inl ⟨rfl, curr, List.mem_cons_self, hname⟩⟩
          · rw [if_neg hname]
            -- the rest of the loop, from a store and a place
            have hnext : ∀ {t : Exports α} {place : Option (Option α)}, Listed t (z ++ curr :: rest) →
                0 ≤ t.ordinal exp → Belongs t exp (z ++ [curr]) place rest →
                (t = s ∨ t = s.setOrdinal exp 0 ∧ s.ordinal curr = s.ordinal exp) →
                LoopEnds isNamed s exp z (curr :: rest) (addLoop t isNamed exp n (some curr) place) := by
              intro t place ht ht0 hbelongs hts
              have hloop := ih (show Listed t (z ++ [curr] ++ rest) by simpa using ht) (by simpa using hexp)
                (by simpa using hn) ht0 hbelongs
              rw [List.getLast?_concat] at hloop
              exact hloop.cons (by simpa using hname) hts
            cases place with
            | some place => exact hnext h h0 hplace.found (.inl rfl)
            | none =>
                dsimp only
                have hcurr0 := h.ordered.nonneg curr (by simp)
                split_ifs with hzero hcurr heq hgt
                · exact hnext h h0 (hplace.here h.ordered h0 (by omega)) (.inl rfl)
                · exact hnext h h0 (hplace.further (.inl (not_not.mp hcurr))) (.inl rfl)
                · refine hnext (h.setOrdinal hexp 0) ?_ ?_ (.inr ⟨rfl, heq⟩)
                  · simp [Exports.setOrdinal]
                  · exact ⟨[], z ++ [curr], rfl, rfl, (fun a ha => by cases ha),
                      fun a _ => .inl (by simp [Exports.setOrdinal])⟩
                · exact hnext h h0 (hplace.here h.ordered h0 hgt) (.inl rfl)
                · exact hnext h h0 (hplace.further (.inr (by omega))) (.inl rfl)

variable (isNamed) in
/-- `AddToExportList` refuses an export whose name is listed, and puts any other where its ordinal belongs; a second
export with an ordinal loses it. -/
theorem addToExportList_spec (fuel : ℕ) (h : Listed s l) (hexp : exp ∉ l) (hfuel : l.length < fuel)
    (h0 : 0 ≤ s.ordinal exp) (hlt : s.ordinal exp < 2 ^ 31) :
    ∃ s' accepted l', addToExportList fuel s isNamed exp = some (s', accepted) ∧ Listed s' l' ∧
      l'.Perm (if accepted then exp :: l else l) ∧ (accepted = false ↔ ∃ a ∈ l, isNamed a = true) ∧
        (∀ a, a ≠ exp → s'.ordinal a = s.ordinal a) ∧
          (s'.ordinal exp = s.ordinal exp ∨ s'.ordinal exp = 0 ∧ ∃ a ∈ l, s.ordinal a = s.ordinal exp) := by
  obtain ⟨s₁, r, hloop, hs₁, hr⟩ := addLoop_spec isNamed fuel (show Listed s ([] ++ l) from h) hexp hfuel h0
    (show Belongs s exp [] none l from fun a ha => by cases ha)
  have hlisted : Listed s₁ l := by
    obtain rfl | ⟨rfl, -⟩ := hs₁
    · exact h
    · exact h.setOrdinal hexp 0
  have hothers : ∀ a, a ≠ exp → s₁.ordinal a = s.ordinal a := by
    intro a ha
    obtain rfl | ⟨rfl, -⟩ := hs₁
    · rfl
    · exact Function.update_of_ne ha _ _
  have hown : s₁.ordinal exp = s.ordinal exp ∨ s₁.ordinal exp = 0 ∧ ∃ a ∈ l, s.ordinal a = s.ordinal exp := by
    obtain rfl | ⟨rfl, heq⟩ := hs₁
    · exact .inl rfl
    · exact .inr ⟨Function.update_self .., heq⟩
  have hown0 : 0 ≤ s₁.ordinal exp ∧ s₁.ordinal exp < 2 ^ 31 := by
    obtain heq | ⟨heq, -⟩ := hown <;> rw [heq]
    · exact ⟨h0, hlt⟩
    · norm_num
  rw [addToExportList, show (none : Option α) = ([] : List α).getLast? from rfl, hloop]
  obtain ⟨rfl, hnamed⟩ | ⟨hnone, place, rfl, hbelongs⟩ := hr
  · exact ⟨s₁, false, l, rfl, hlisted, List.Perm.refl _, by simpa using hnamed, hothers, hown⟩
  · -- the place is a link of the list: behind the exports `m`
    obtain ⟨m, v, hl, hplace, hm, hv⟩ : ∃ m v, l = m ++ v ∧ place.getD l.getLast? = m.getLast? ∧
        (∀ a ∈ m, s₁.ordinal a = 0 ∨ s₁.ordinal a < s₁.ordinal exp) ∧
          ∀ a ∈ v, s₁.ordinal exp = 0 ∨ s₁.ordinal exp < s₁.ordinal a := by
      cases place with
      | none => exact ⟨l, [], by simp, rfl, hbelongs, fun a ha => by cases ha⟩
      | some place =>
          obtain ⟨m, v, hl, rfl, hm, hv⟩ := hbelongs
          exact ⟨m, v, hl, rfl, hm, by simpa using hv⟩
    subst hl
    dsimp only
    rw [List.nil_append, hplace, hlisted.link_getLast?]
    have hnotin : exp ∉ m ∧ exp ∉ v := by simpa using hexp
    have hd := List.nodup_append'.mp hlisted.chain.nodup
    obtain ⟨r, hpath, hrest⟩ := path_append.mp hlisted.chain
    obtain rfl : r = v.head? := by
      cases v with
      | nil => exact hrest
      | cons a v => exact hrest.1
    have hordinal : ((s₁.setLink (some exp) v.head?).setLink m.getLast? (some exp)).ordinal = s₁.ordinal := by
      cases m.getLast? <;> rfl
    refine ⟨_, true, m ++ exp :: v, rfl, ⟨?_, ?_⟩, List.perm_middle, by simpa using hnone, ?_, ?_⟩
    · refine Exports.setLink_chain (s := s₁.setLink (some exp) v.head?) (q := v.head?) ?_ hd.1 ⟨rfl, ?_⟩ fun a ha => ?_
      · exact hpath.congr fun a ha => Function.update_of_ne (ne_of_mem_of_not_mem ha hnotin.1) _ _
      · rw [show (s₁.setLink (some exp) v.head?).next exp = v.head? from Function.update_self ..]
        exact hrest.congr fun a ha => Function.update_of_ne (ne_of_mem_of_not_mem ha hnotin.2) _ _
      · rw [List.mem_cons, not_or]
        exact ⟨ne_of_mem_of_not_mem ha hnotin.1, List.disjoint_left.mp hd.2.2 ha⟩
    · rw [hordinal]
      exact hlisted.ordered.insert hown0.1 hown0.2 hm hv
    · rwa [hordinal]
    · rwa [hordinal]

end AddToExportList

end OpenWatcom.ExportList
