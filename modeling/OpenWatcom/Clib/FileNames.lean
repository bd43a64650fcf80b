import OpenWatcom.Clib.DiskIo

/-! # What `name_to_fcb` makes of a name

`fileParts` cuts a name into the drive, the part before its first dot and the part behind it, and
`nameFcb` is the FCB with these parts.  `nameToFcb_eq` puts `name_to_fcb` together from the two, and
`nameFcb_base`, `nameFcb_type` say which byte stands where: in upper case, padded with spaces, and what
does not fit is dropped without an error. -/

namespace OpenWatcom.Clib

/-- The FCB with spaces for name and type. -/
def blankFcb : Fcb := fun i => if 1 ≤ i.val ∧ i.val < 12 then 0x20 else 0

/-- The characters before the first dot and those behind it. -/
def cutDot (p : List Byte) : List Byte × List Byte :=
  (p.takeWhile (· ≠ 0x2E), (p.dropWhile (· ≠ 0x2E)).drop 1)

/-- The drive byte, 0 without a drive letter, and what follows it; none for a wrong drive. -/
def driveOf (name : List Byte) : Option (Byte × List Byte) :=
  match name with
  | d :: 0x3A :: rest =>
    if upcase d < 0x41 ∨ 0x50 < upcase d then none else some (upcase d - 0x41 + 1, rest)
  | _ => some (0, name)

/-- The drive byte, the characters before the first dot and those behind it. -/
def fileParts (name : List Byte) : Option (Byte × List Byte × List Byte) :=
  (driveOf name).map fun r => (r.1, cutDot r.2)

/-- The FCB with these parts. -/
def nameFcb (drive : Byte) (base type : List Byte) : Fcb :=
  putName 9 3 0 type (putName 1 8 0 base (Function.update blankFcb 0 drive))

/-- The character in place `k` of a part that is padded with spaces. -/
def padded (cs : List Byte) (k : ℕ) : Byte := (cs[k]?).getD 0x20

theorem update_blankFcb_zero : Function.update blankFcb 0 0 = blankFcb := by
  funext i
  by_cases h : i = 0
  · subst h
    rfl
  · exact Function.update_of_ne h _ _

theorem driveOf_drive (d : Byte) (rest : List Byte) : driveOf (d :: 0x3A :: rest) =
    if upcase d < 0x41 ∨ 0x50 < upcase d then none else some (upcase d - 0x41 + 1, rest) := rfl

theorem driveOf_of_no_drive {name : List Byte} (h : ∀ d rest, name = d :: 0x3A :: rest → False) :
    driveOf name = some (0, name) := by
  unfold driveOf
  split
  · exact (h _ _ rfl).elim
  · rfl

/-- The end of `name_to_fcb`, behind the drive. -/
theorem parts_eq (drive : Byte) (p : List Byte) :
    (let base := p.takeWhile (· ≠ 0x2E)
      let fcb := putName 1 8 0 base (Function.update blankFcb 0 drive)
      if base = [] then (false, fcb)
      else (true, putName 9 3 0 ((p.dropWhile (· ≠ 0x2E)).drop 1) fcb)) =
    (decide ((cutDot p).1 ≠ []),
      if (cutDot p).1 = [] then nameFcb drive [] [] else nameFcb drive (cutDot p).1 (cutDot p).2) := by
  have hcut : (cutDot p).1 = p.takeWhile (· ≠ 0x2E) := rfl
  dsimp only
  by_cases hbase : p.takeWhile (· ≠ 0x2E) = []
  · rw [hcut, if_pos hbase, if_pos hbase, hbase]
    rfl
  · rw [hcut, if_neg hbase, if_neg hbase, decide_eq_true hbase]
    rfl

/-- `name_to_fcb` by the parts of the name. -/
theorem nameToFcb_eq (name : List Byte) : nameToFcb name = match fileParts name with
    | none => (false, blankFcb)
    | some (drive, base, type) =>
      (decide (base ≠ []), if base = [] then nameFcb drive [] [] else nameFcb drive base type) := by
  unfold nameToFcb
  split
  · rename_i d rest
    rw [fileParts, driveOf_drive]
    dsimp only
    by_cases hd : upcase d < 0x41 ∨ 0x50 < upcase d
    · rw [if_pos hd, if_pos hd]
      rfl
    · rw [if_neg hd, if_neg hd]
      exact parts_eq _ _
  · rename_i hdrive
    rw [fileParts, driveOf_of_no_drive fun d rest h => hdrive d rest h]
    have h := parts_eq 0 name
    rw [update_blankFcb_zero] at h
    exact h

/-- What `putName` stores. -/
theorem putName_apply (base width : ℕ) (hfit : base + width ≤ 36) : ∀ (i : ℕ) (cs : List Byte) (fcb : Fcb)
    (j : Fin 36), putName base width i cs fcb j =
      if base + i ≤ j.val ∧ j.val < base + width then ((cs[j.val - (base + i)]?).map upcase).getD (fcb j)
      else fcb j
  | i, [], fcb, j => by
      simp [putName]
  | i, c :: cs, fcb, j => by
      rw [putName, putName_apply base width hfit (i + 1) cs]
      by_cases hi : i < width
      · rw [if_pos hi]
        have hplace : (Fin.ofNat 36 (base + i)).val = base + i := Nat.mod_eq_of_lt (by omega)
        by_cases hj : j.val = base + i
        · have heq : j = Fin.ofNat 36 (base + i) := Fin.ext (hj.trans hplace.symm)
          rw [if_neg (by omega), if_pos (by omega), hj, Nat.sub_self, heq, Function.update_self]
          rfl
        · have hne : j ≠ Fin.ofNat 36 (base + i) := fun h => hj (by rw [h, hplace])
          rw [Function.update_of_ne hne]
          by_cases hin : base + i ≤ j.val ∧ j.val < base + width
          · rw [if_pos (by omega), if_pos hin,
              show j.val - (base + i) = j.val - (base + (i + 1)) + 1 by omega, List.getElem?_cons_succ]
          · rw [if_neg (by omega), if_neg hin]
      · rw [if_neg hi, if_neg (by omega), if_neg (by omega)]

theorem padded_map_upcase (cs : List Byte) (k : ℕ) :
    padded (cs.map upcase) k = ((cs[k]?).map upcase).getD 0x20 := by
  rw [padded, List.getElem?_map]

/-- The name of the FCB. -/
theorem nameFcb_base (drive : Byte) (base type : List Byte) {k : ℕ} (hk : k < 8) :
    nameFcb drive base type (Fin.ofNat 36 (1 + k)) = padded (base.map upcase) k := by
  have hval : (Fin.ofNat 36 (1 + k)).val = 1 + k := Nat.mod_eq_of_lt (by omega)
  have hne : Fin.ofNat 36 (1 + k) ≠ 0 := fun h => by rw [h, Fin.val_zero] at hval; omega
  rw [nameFcb, putName_apply 9 3 (by decide), if_neg (by omega), putName_apply 1 8 (by decide),
    if_pos (by omega), hval, padded_map_upcase, Function.update_of_ne hne, Nat.add_zero,
    Nat.add_sub_cancel_left, blankFcb, if_pos (by omega)]

/-- The type of the FCB. -/
theorem nameFcb_type (drive : Byte) (base type : List Byte) {k : ℕ} (hk : k < 3) :
    nameFcb drive base type (Fin.ofNat 36 (9 + k)) = padded (type.map upcase) k := by
  have hval : (Fin.ofNat 36 (9 + k)).val = 9 + k := Nat.mod_eq_of_lt (by omega)
  have hne : Fin.ofNat 36 (9 + k) ≠ 0 := fun h => by rw [h, Fin.val_zero] at hval; omega
  rw [nameFcb, putName_apply 9 3 (by decide), if_pos (by omega), putName_apply 1 8 (by decide),
    if_neg (by omega), hval, padded_map_upcase, Function.update_of_ne hne, Nat.add_zero,
    Nat.add_sub_cancel_left, blankFcb, if_pos (by omega)]

/-- An index of the eleven bytes is a place of the name or of the type. -/
theorem name_place {i : Fin 12} (hi : i ≠ 0) :
    (∃ k < 8, i.val = 1 + k) ∨ ∃ k < 3, i.val = 9 + k := by
  have hpos : i.val ≠ 0 := fun h => hi (Fin.ext h)
  have hlt := i.isLt
  by_cases h : i.val < 9
  · exact .inl ⟨i.val - 1, by omega, by omega⟩
  · exact .inr ⟨i.val - 9, by omega, by omega⟩

/-! ### Characters -/

/-- Only small letters change. -/
theorem upcase_eq_iff {c d : Byte} (hd : d < 0x41 ∨ 0x7A < d) : upcase c = d ↔ c = d := by
  unfold upcase
  split_ifs with h
  · obtain ⟨h1, h2⟩ := h
    rw [UInt8.le_iff_toNat_le] at h1 h2
    simp only [UInt8.lt_iff_toNat_lt, UInt8.reduceToNat] at hd h1 h2
    have hsub : (c - 0x20).toNat = c.toNat - 32 := by
      rw [UInt8.toNat_sub_of_le _ _ (by rw [UInt8.le_iff_toNat_le]; simp only [UInt8.reduceToNat]; omega)]
      rfl
    constructor
    · intro heq
      have := congrArg UInt8.toNat heq
      omega
    · rintro rfl
      omega
  · rfl

theorem lt_of_upcase_lt {c : Byte} (h : upcase c < 0x80) : c < 0x80 := by
  unfold upcase at h
  split_ifs at h with hc
  · have := hc.2
    rw [UInt8.le_iff_toNat_le] at this
    rw [UInt8.lt_iff_toNat_lt]
    simp only [UInt8.reduceToNat] at this ⊢
    omega
  · exact h

theorem upcase_lt {c : Byte} (h : c < 0x80) : upcase c < 0x80 := by
  unfold upcase
  split_ifs with hc
  · have h1 := hc.1
    rw [UInt8.le_iff_toNat_le] at h1
    rw [UInt8.lt_iff_toNat_lt] at h ⊢
    simp only [UInt8.reduceToNat] at h h1 ⊢
    rw [UInt8.toNat_sub_of_le _ _ (by rw [UInt8.le_iff_toNat_le]; simp only [UInt8.reduceToNat]; omega)]
    omega
  · exact h

theorem and_seven {c : Byte} (h : c < 0x80) : c &&& 0x7F = c := by
  apply UInt8.toNat_inj.mp
  rw [UInt8.lt_iff_toNat_lt] at h
  rw [UInt8.toNat_and]
  simp only [UInt8.reduceToNat] at h ⊢
  rw [show (127 : ℕ) = 2 ^ 7 - 1 by rfl, Nat.and_two_pow_sub_one_eq_mod]
  exact Nat.mod_eq_of_lt h

/-- The eighth bit does not count. -/
theorem or_and_seven (c : Byte) : (c ||| 0x80) &&& 0x7F = c &&& 0x7F := by
  apply UInt8.toNat_inj.mp
  rw [UInt8.toNat_and, UInt8.toNat_or, Nat.and_or_distrib_right, UInt8.toNat_and]
  exact Nat.or_zero _

end OpenWatcom.Clib
