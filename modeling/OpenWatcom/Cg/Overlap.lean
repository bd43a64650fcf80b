import Mathlib.Tactic

/-! # The overlap of two operands

`Overlaps` says whether writing one operand can change another, from a table of tests of two operand classes. -/

namespace OpenWatcom.Overlap

/-- The part of `union name` that the tests read, for registers of `w` bits. -/
inductive Name (w : ℕ)
  | constant
  | memory
  /-- A part of a temporary, with its flag `ALIAS` and its pointer `alias`. -/
  | temp (offset : ℤ) (size : ℕ) (flag : Bool) (target : ℕ)
  | register (reg : BitVec w)
  | indexed (index base : Option ℕ)

/-- `name_class_def`. -/
inductive NameClass
  | N_CONSTANT | N_MEMORY | N_TEMP | N_REGISTER | N_INDEXED
  deriving DecidableEq

namespace Name

variable {w : ℕ}

def nameClass : Name w → NameClass
  | constant => .N_CONSTANT
  | memory => .N_MEMORY
  | temp .. => .N_TEMP
  | register _ => .N_REGISTER
  | indexed .. => .N_INDEXED

/-- `temp_flags & ALIAS`. -/
def isAlias : Name w → Bool
  | temp _ _ flag _ => flag
  | _ => false

/-- The name that `alias` points at. -/
def next (p : ℕ) : Name w → ℕ
  | temp _ _ _ target => target
  | _ => p

/-- The operands that give the address of an indexed name. -/
def addressing : Name w → List ℕ
  | indexed index base => index.toList ++ base.toList
  | _ => []

end Name

/-- The names of a function by their addresses; from every part of a temporary the aliases lead to its own name. -/
structure Names (w : ℕ) where
  name : ℕ → Name w
  alias_ends : ∀ p, ∃ n, (name ((fun p => (name p).next p)^[n] p)).isAlias = false

/-- The entries of `OverlapTable`. -/
inductive Test
  | ovNo | ovYes | ovTemp | ovReg | ovIndex | ovUses

/-- `OverlapTable`, by the classes of the result and of the operand. -/
def overlapTable : NameClass → NameClass → Test
  | .N_MEMORY, .N_MEMORY => .ovYes
  | .N_TEMP, .N_TEMP => .ovTemp
  | .N_TEMP, .N_INDEXED => .ovUses
  | .N_REGISTER, .N_REGISTER => .ovReg
  | .N_REGISTER, .N_INDEXED => .ovUses
  | .N_INDEXED, .N_INDEXED => .ovIndex
  | _, _ => .ovNo

/-- `Conflicts`. -/
def conflicts (start end_ start2 end2 : ℤ) : Bool :=
  if (start2 ≥ start ∧ start2 ≤ end_) ∨ (end2 ≥ start ∧ end2 ≤ end_) then true else false

namespace Names

variable {w : ℕ} (N : Names w)

/-- `DeAlias`. -/
def deAlias (p : ℕ) : ℕ := (fun p => (N.name p).next p)^[Nat.find (N.alias_ends p)] p

/-- `ovTemp`. -/
def ovTemp (op1 op2 : ℕ) : Bool :=
  if N.deAlias op1 = N.deAlias op2 then
    match N.name op1, N.name op2 with
    | .temp offset1 size1 _ _, .temp offset2 size2 _ _ =>
        conflicts offset1 (offset1 + size1) offset2 (offset2 + size2)
    | _, _ => false
  else false

/-- `ovReg`, with `HW_Ovlap`. -/
def ovReg (op1 op2 : ℕ) : Bool :=
  match N.name op1, N.name op2 with
  | .register reg1, .register reg2 => reg1 &&& reg2 != 0
  | _, _ => false

/-- `Overlaps`, without the test for a null operand. -/
def overlapsAt (result op : ℕ) : Bool :=
  if result = op then true
  else
    match _h : overlapTable (N.name result).nameClass (N.name op).nameClass with
    | .ovNo => false
    | .ovYes => true
    | .ovTemp => N.ovTemp result op
    | .ovReg => N.ovReg result op
    | .ovIndex => true
    -- `ovUses`: the operands of the address come first now
    | .ovUses => (N.name op).addressing.any (fun used => overlapsAt used result)
  termination_by if (N.name op).nameClass = .N_INDEXED then 1 else 0
  decreasing_by
    generalize (N.name result).nameClass = c1 at *
    generalize (N.name op).nameClass = c2 at *
    cases c1 <;> cases c2 <;> cases _h <;> decide

/-- `Overlaps`. -/
def overlaps : Option ℕ → Option ℕ → Bool
  | some result, some op => N.overlapsAt result op
  | _, _ => false

/-- `CondOverlaps`. -/
def condOverlaps : Option ℕ → Option ℕ → Bool
  | some result, some ccop => N.overlapsAt result ccop
  | _, _ => true

/-- The test of the table, without its termination. -/
theorem overlapsAt_eq {a b : ℕ} (hab : a ≠ b) :
    N.overlapsAt a b =
      match overlapTable (N.name a).nameClass (N.name b).nameClass with
      | .ovNo => false
      | .ovYes => true
      | .ovTemp => N.ovTemp a b
      | .ovReg => N.ovReg a b
      | .ovIndex => true
      | .ovUses => (N.name b).addressing.any (fun used => N.overlapsAt used a) := by
  rw [overlapsAt, if_neg hab]
  split <;> rename_i h <;> rw [h]

/-- `DeAlias` goes along the aliases while the flag is set. -/
theorem deAlias_eq (p : ℕ) : N.deAlias p = if (N.name p).isAlias then N.deAlias ((N.name p).next p) else p := by
  unfold deAlias
  split
  case isTrue h =>
    rw [Nat.find_comp_succ (N.alias_ends p) (N.alias_ends ((N.name p).next p)) (by simpa using h),
      Function.iterate_succ_apply]
    rfl
  case isFalse h =>
    rw [(Nat.find_eq_zero _).mpr (by simpa using h)]
    rfl

/-! ### What an operand occupies -/

/-- A place that an operand may occupy: a byte of a temporary, a bit of the register set, or the memory of the indexed
names, of which no more is known. -/
inductive Place
  | byte (owner : ℕ) (x : ℤ)
  | bit (i : ℕ)
  | storage

/-- The places of an operand. -/
def places (p : ℕ) : Set Place :=
  match N.name p with
  | .temp offset size _ _ => {c | ∃ x, c = .byte (N.deAlias p) x ∧ offset ≤ x ∧ x < offset + size}
  | .register reg => {c | ∃ i, c = .bit i ∧ reg.getLsbD i = true}
  | .indexed _ _ => {.storage}
  | _ => ∅

/-- Writing the first operand can change the second, or what its address is made of. -/
def Changes (a b : ℕ) : Prop :=
  (N.places a ∩ N.places b).Nonempty ∨ ∃ used ∈ (N.name b).addressing, (N.places a ∩ N.places used).Nonempty

/-- The first part of a temporary lies in the second with room on both sides. -/
def StrictlyInside (a b : ℕ) : Prop :=
  match N.name a, N.name b with
  | .temp offset1 size1 _ _, .temp offset2 size2 _ _ =>
      N.deAlias a = N.deAlias b ∧ offset2 < offset1 ∧ offset1 + size1 < offset2 + size2
  | _, _ => False

/-- The operands share a place, or are parts of one temporary that meet. -/
def Touch (a b : ℕ) : Prop :=
  match N.name a, N.name b with
  | .temp offset1 size1 _ _, .temp offset2 size2 _ _ =>
      N.deAlias a = N.deAlias b ∧ offset1 ≤ offset2 + size2 ∧ offset2 ≤ offset1 + size1
  | _, _ => (N.places a ∩ N.places b).Nonempty

/-- A temporary or a register. -/
def Simple (p : ℕ) : Prop := (N.name p).nameClass = .N_TEMP ∨ (N.name p).nameClass = .N_REGISTER

/-- A temporary, a register or an indexed name whose index and base are such. -/
def Operand (p : ℕ) : Prop :=
  N.Simple p ∨ (N.name p).nameClass = .N_INDEXED ∧ ∀ used ∈ (N.name p).addressing, N.Simple used

variable {N} {a b : ℕ}

theorem conflicts_iff {start start2 : ℤ} {size size2 : ℕ} :
    conflicts start (start + size) start2 (start2 + size2) = true ↔
      (start ≤ start2 + size2 ∧ start2 ≤ start + size) ∧ ¬ (start2 < start ∧ start + size < start2 + size2) := by
  unfold conflicts
  split <;> simp <;> omega

theorem places_inter_nonempty_of_register {reg1 reg2 : BitVec w} (ha : N.name a = .register reg1)
    (hb : N.name b = .register reg2) : (N.places a ∩ N.places b).Nonempty ↔ ¬ reg1 &&& reg2 = 0 := by
  simp only [places, ha, hb]
  constructor
  · rintro ⟨c, ⟨i, rfl, hi⟩, j, heq, hj⟩ h0
    obtain rfl := Place.bit.inj heq
    have := congrArg (fun v => v.getLsbD i) h0
    simp [hi, hj] at this
  · intro h0
    obtain ⟨i, hi, hbit⟩ : ∃ i, ∃ h : i < w, (reg1 &&& reg2).getLsbD i = true := by
      by_contra hno
      push Not at hno
      exact h0 (BitVec.eq_of_getLsbD_eq (fun i hi => by simpa using hno i hi))
    rw [BitVec.getLsbD_and, Bool.and_eq_true] at hbit
    exact ⟨.bit i, ⟨i, rfl, hbit.1⟩, i, rfl, hbit.2⟩

/-- What the test of two temporaries or registers finds. -/
theorem overlapsAt_simple (ha : N.Simple a) (hb : N.Simple b) :
    N.overlapsAt a b = true ↔ a = b ∨ N.Touch a b ∧ ¬ N.StrictlyInside a b := by
  obtain rfl | hab := eq_or_ne a b
  · simp [overlapsAt]
  rw [N.overlapsAt_eq hab]
  unfold Simple at ha hb
  unfold Touch StrictlyInside
  cases hna : N.name a <;> rw [hna] at ha <;> simp only [Name.nameClass, reduceCtorEq, or_false, or_self] at ha <;>
    cases hnb : N.name b <;> rw [hnb] at hb <;> simp only [Name.nameClass, reduceCtorEq, or_false, or_self] at hb
  case temp.temp offset1 size1 _ _ offset2 size2 _ _ =>
    simp only [Name.nameClass, overlapTable, ovTemp, hna, hnb, hab, false_or]
    split
    case isTrue hsame => simp [hsame, conflicts_iff]
    case isFalse hdiff => simp [hdiff]
  case temp.register => simp [Name.nameClass, overlapTable, hab, places, hna, hnb, Set.Nonempty]
  case register.temp => simp [Name.nameClass, overlapTable, hab, places, hna, hnb, Set.Nonempty]
  case register.register reg1 reg2 =>
    simp only [Name.nameClass, overlapTable, ovReg, hna, hnb, hab, false_or, bne_iff_ne, ne_eq, not_false_eq_true,
      and_true, places_inter_nonempty_of_register hna hnb]

/-- An indexed name is found through the operands of its address. -/
theorem overlapsAt_indexed (ha : N.Simple a) (hb : (N.name b).nameClass = .N_INDEXED) :
    N.overlapsAt a b = true ↔ ∃ used ∈ (N.name b).addressing, N.overlapsAt used a = true := by
  have hab : a ≠ b := by
    rintro rfl
    simp [Simple, hb] at ha
  rw [N.overlapsAt_eq hab]
  obtain ha | ha := ha <;> simp [ha, hb, overlapTable]

theorem overlapsAt_indexed_simple (ha : (N.name a).nameClass = .N_INDEXED) (hb : N.Simple b) :
    N.overlapsAt a b = false := by
  have hab : a ≠ b := by
    rintro rfl
    simp [Simple, ha] at hb
  rw [N.overlapsAt_eq hab]
  obtain hb | hb := hb <;> simp [ha, hb, overlapTable]

theorem overlapsAt_indexed_indexed (ha : (N.name a).nameClass = .N_INDEXED) (hb : (N.name b).nameClass = .N_INDEXED) :
    N.overlapsAt a b = true := by
  obtain rfl | hab := eq_or_ne a b
  · simp [overlapsAt]
  · simp [N.overlapsAt_eq hab, ha, hb, overlapTable]

theorem Simple.not_indexed (h : N.Simple a) : (N.name a).nameClass ≠ .N_INDEXED := by
  obtain h | h := h <;> simp [h]

theorem Simple.addressing (h : N.Simple a) : (N.name a).addressing = [] := by
  unfold Simple at h
  cases hn : N.name a <;> simp_all [Name.nameClass, Name.addressing]

theorem StrictlyInside.simple (h : N.StrictlyInside a b) : N.Simple a ∧ N.Simple b := by
  unfold StrictlyInside at h
  unfold Simple
  split at h
  case h_1 hna hnb => simp [hna, hnb, Name.nameClass]
  case h_2 => exact h.elim

/-- Operands with a place in common touch. -/
theorem touch_of_places (h : (N.places a ∩ N.places b).Nonempty) : N.Touch a b := by
  unfold Touch
  split
  case h_1 hna hnb =>
    obtain ⟨c, hca, hcb⟩ := h
    simp only [places, hna, hnb, Set.mem_ofPred_eq] at hca hcb
    obtain ⟨x, rfl, hx⟩ := hca
    obtain ⟨y, heq, hy⟩ := hcb
    obtain ⟨hsame, rfl⟩ := Place.byte.inj heq
    exact ⟨hsame, by omega, by omega⟩
  case h_2 => exact h

theorem Changes.touch (h : N.Changes a b) (hb : N.Simple b) : N.Touch a b := by
  unfold Changes at h
  rw [hb.addressing] at h
  exact touch_of_places (h.resolve_right (by simp))

theorem not_strictlyInside_self (a : ℕ) : ¬ N.StrictlyInside a a := by
  unfold StrictlyInside
  cases N.name a <;> simp

theorem Touch.symm (h : N.Touch a b) : N.Touch b a := by
  unfold Touch at h ⊢
  cases hna : N.name a <;> cases hnb : N.name b <;> simp only [hna, hnb] at h ⊢ <;>
    first | exact ⟨h.1.symm, h.2.2, h.2.1⟩ | (rw [Set.inter_comm]; exact h)

/-- An indexed name is in memory. -/
theorem not_changes_of_indexed (ha : (N.name a).nameClass = .N_INDEXED) (hb : N.Simple b) : ¬ N.Changes a b := by
  have hplaces : N.places a = {.storage} := by
    cases hna : N.name a <;> simp [hna, Name.nameClass] at ha
    simp [places, hna]
  unfold Changes
  rw [hb.addressing, hplaces]
  unfold Simple at hb
  cases hnb : N.name b <;> simp_all [Name.nameClass, places, Set.Nonempty]

/-- The written part is found in the changed operand: it does not lie strictly inside it, and an operand of the address
of an indexed name is found in the written one. -/
def Found (N : Names w) (a b : ℕ) : Prop :=
  ¬ N.StrictlyInside a b ∧ (N.Simple a → (N.name b).nameClass = .N_INDEXED →
    ∃ used ∈ (N.name b).addressing, used = a ∨ N.Touch used a ∧ ¬ N.StrictlyInside used a)

/-- The changed operand is found in the written one: it is no indexed name changed through its address, and does not lie
strictly inside. -/
def FoundBack (N : Names w) (a b : ℕ) : Prop :=
  (N.Simple a → N.Simple b) ∧ ¬ N.StrictlyInside b a

theorem overlapsAt_of_touch (ha : N.Simple a) (hb : N.Simple b) (h : N.Touch a b) :
    N.overlapsAt a b = true ↔ ¬ N.StrictlyInside a b := by
  rw [overlapsAt_simple ha hb]
  constructor
  · rintro (rfl | ⟨-, hin⟩)
    · exact not_strictlyInside_self a
    · exact hin
  · exact fun hin => .inr ⟨h, hin⟩

/-- What the test makes of a change, with the written operand first. -/
theorem overlapsAt_iff_found (ha : N.Operand a) (hb : N.Operand b) (h : N.Changes a b) :
    N.overlapsAt a b = true ↔ N.Found a b := by
  unfold Found
  obtain ha | ⟨ha, -⟩ := ha <;> obtain hb | ⟨hb, hused⟩ := hb
  · rw [overlapsAt_of_touch ha hb (h.touch hb)]
    exact (and_iff_left fun _ hidx => absurd hidx hb.not_indexed).symm
  · rw [overlapsAt_indexed ha hb, and_iff_right fun hin => hin.simple.2.not_indexed hb]
    simp only [ha, hb, forall_const]
    refine exists_congr fun used => and_congr_right fun hmem => overlapsAt_simple (hused used hmem) ha
  · exact absurd h (not_changes_of_indexed ha hb)
  · rw [overlapsAt_indexed_indexed ha hb]
    simp only [true_iff]
    exact ⟨fun hin => hin.simple.1.not_indexed ha, fun hs => absurd ha hs.not_indexed⟩

/-- What the test makes of a change, with the written operand second. -/
theorem overlapsAt_iff_foundBack (ha : N.Operand a) (hb : N.Operand b) (h : N.Changes a b) :
    N.overlapsAt b a = true ↔ N.FoundBack a b := by
  unfold FoundBack
  obtain ha | ⟨ha, -⟩ := ha <;> obtain hb | ⟨hb, -⟩ := hb
  · rw [overlapsAt_of_touch hb ha (h.touch hb).symm]
    exact (and_iff_right fun _ => hb).symm
  · rw [overlapsAt_indexed_simple hb ha]
    simp only [Bool.false_eq_true, false_iff, not_and]
    exact fun hs => absurd hb (hs ha).not_indexed
  · exact absurd h (not_changes_of_indexed ha hb)
  · rw [overlapsAt_indexed_indexed hb ha]
    simp only [true_iff]
    exact ⟨fun hs => absurd ha hs.not_indexed, fun hin => hin.simple.1.not_indexed hb⟩

/-- An operand that is changed by writing another is found by both tests exactly when the written part does not lie
strictly inside it and is found through its address, and in the other order exactly when it is no indexed name changed
through its address and does not lie strictly inside the written part. -/
theorem overlaps_changed_iff (ha : N.Operand a) (hb : N.Operand b) :
    ((N.Changes a b → N.overlaps (some a) (some b) = true ∧ N.condOverlaps (some a) (some b) = true) ↔
        (N.Changes a b → N.Found a b)) ∧
      ((N.Changes a b → N.overlaps (some b) (some a) = true ∧ N.condOverlaps (some b) (some a) = true) ↔
        (N.Changes a b → N.FoundBack a b)) := by
  constructor
  · refine forall_congr' fun h => ?_
    rw [overlaps, condOverlaps, and_self, overlapsAt_iff_found ha hb h]
  · refine forall_congr' fun h => ?_
    rw [overlaps, condOverlaps, and_self, overlapsAt_iff_foundBack ha hb h]

end Names

/-- A temporary of four bytes at 0, and its second byte as a part of it. -/
def partNames : Names 8 where
  name
    | 0 => .temp 0 4 false 0
    | 1 => .temp 1 1 true 0
    | _ => .constant
  alias_ends
    | 0 => ⟨0, rfl⟩
    | 1 => ⟨1, rfl⟩
    | _ + 2 => ⟨0, rfl⟩

theorem partNames_deAlias : partNames.deAlias 1 = partNames.deAlias 0 := partNames.deAlias_eq 1

theorem partNames_changes : partNames.Changes 1 0 :=
  .inl ⟨.byte (partNames.deAlias 1) 1, ⟨1, rfl, by decide, by decide⟩,
    1, by rw [partNames_deAlias], by decide, by decide⟩

theorem overlaps_changed_iff_part :
    (partNames.Changes 1 0 →
        partNames.overlaps (some 0) (some 1) = true ∧ partNames.condOverlaps (some 0) (some 1) = true) ↔
      (partNames.Changes 1 0 → partNames.FoundBack 1 0) :=
  (Names.overlaps_changed_iff (.inl (.inl rfl)) (.inl (.inl rfl))).2

/-- Writing the part changes the temporary, and is not found. -/
theorem not_overlaps_part :
    ¬ ∀ (N : Names 8) (a b : ℕ), N.Operand a → N.Operand b → N.Changes a b →
      N.overlaps (some a) (some b) = true ∧ N.condOverlaps (some a) (some b) = true ∧
        N.overlaps (some b) (some a) = true ∧ N.condOverlaps (some b) (some a) = true := by
  intro h
  obtain ⟨hfound, -⟩ := h partNames 1 0 (.inl (.inl rfl)) (.inl (.inl rfl)) partNames_changes
  have hinside : partNames.StrictlyInside 1 0 := ⟨partNames_deAlias, by decide, by decide⟩
  exact (Names.overlapsAt_of_touch (.inl rfl) (.inl rfl) (partNames_changes.touch (.inl rfl))).mp hfound hinside

end OpenWatcom.Overlap
