import OpenWatcom.Cfloat.Rounding
import OpenWatcom.Cg.Select

/-! # Constants of the integer types

The folder keeps a constant as a decimal number and goes through 64 or 32 bits to compute with it.  `IsConst cf z`
says that the number is the integer `z`; the conversions are given by `z` then. -/

namespace OpenWatcom.Cg

open Cfloat

/-! ### Values of a type -/

namespace TypeDef

/-- `tipe->length * 8`. -/
def bits (t : TypeDef) : ℕ := t.length.bits

/-- `HasBigConst`, for the integer types. -/
def hasBigConst (t : TypeDef) : Bool := t.length = .eight

/-- The value that the low bits of `z` stand for. -/
def wrap (t : TypeDef) (z : ℤ) : ℤ := intOf t.signed (BitVec.ofInt t.bits z)

/-- The least value. -/
def low (t : TypeDef) : ℤ := if t.signed then -2 ^ (t.bits - 1) else 0

/-- `z` is a value of the type. -/
def Has (t : TypeDef) (z : ℤ) : Prop := t.low ≤ z ∧ z < t.low + 2 ^ t.bits

instance (t : TypeDef) (z : ℤ) : Decidable (t.Has z) := inferInstanceAs (Decidable (_ ∧ _))

theorem bits_pos (t : TypeDef) : 0 < t.bits := t.length.bits_pos

theorem bits_le (t : TypeDef) : t.bits ≤ 64 := t.length.bits_le

theorem two_pow_bits (t : TypeDef) : (2 : ℤ) ^ t.bits = 2 * 2 ^ (t.bits - 1) := by
  have hpos := t.bits_pos
  rw [← pow_succ', Nat.sub_add_cancel hpos]

theorem wrap_emod (t : TypeDef) (z : ℤ) : t.wrap z % 2 ^ t.bits = z % 2 ^ t.bits := by
  unfold wrap intOf
  cases t.signed with
  | true =>
      rw [if_pos rfl, BitVec.toInt_ofInt]
      have hmod := Int.bmod_emod (x := z) (m := 2 ^ t.bits)
      push_cast at hmod
      exact hmod
  | false =>
      rw [if_neg Bool.false_ne_true, BitVec.toNat_ofInt]
      have hpos : (0 : ℤ) < 2 ^ t.bits := by positivity
      have hnonneg := Int.emod_nonneg z (ne_of_gt hpos)
      push_cast
      rw [Int.toNat_of_nonneg hnonneg, Int.emod_emod]

theorem wrap_has (t : TypeDef) (z : ℤ) : t.Has (t.wrap z) := by
  have hpow := t.two_pow_bits
  unfold Has low wrap intOf
  cases t.signed with
  | true =>
      simp only [if_true]
      have hlow := BitVec.le_toInt (BitVec.ofInt t.bits z)
      have hhigh := BitVec.toInt_lt (x := BitVec.ofInt t.bits z)
      exact ⟨hlow, by omega⟩
  | false =>
      simp only [Bool.false_eq_true, if_false, zero_add]
      exact ⟨Int.natCast_nonneg _, by exact_mod_cast BitVec.isLt _⟩

/-- A value of the type is given by its low bits. -/
theorem eq_of_emod {t : TypeDef} {a b : ℤ} (ha : t.Has a) (hb : t.Has b)
    (h : a % 2 ^ t.bits = b % 2 ^ t.bits) : a = b := by
  obtain ⟨hla, hha⟩ := ha
  obtain ⟨hlb, hhb⟩ := hb
  have hsub : (a - t.low) % 2 ^ t.bits = (b - t.low) % 2 ^ t.bits := Int.ModEq.sub_right t.low h
  rw [Int.emod_eq_of_lt (by omega) (by omega), Int.emod_eq_of_lt (by omega) (by omega)] at hsub
  omega

theorem wrap_eq {t : TypeDef} {z : ℤ} (h : t.Has z) : t.wrap z = z :=
  eq_of_emod (t.wrap_has z) h (t.wrap_emod z)

theorem wrap_congr (t : TypeDef) {a b : ℤ} (h : a % 2 ^ t.bits = b % 2 ^ t.bits) :
    t.wrap a = t.wrap b := by
  refine eq_of_emod (t.wrap_has a) (t.wrap_has b) ?_
  rw [t.wrap_emod, t.wrap_emod, h]

theorem bits_ge (t : TypeDef) : 8 ≤ t.bits := by
  unfold bits
  cases t.length <;> decide

/-- Every value has 64 bits. -/
theorem Has.bounds {t : TypeDef} {z : ℤ} (h : t.Has z) : -2 ^ 63 ≤ z ∧ z < 2 ^ 64 := by
  obtain ⟨hlow, hhigh⟩ := h
  have hpow : (2 : ℤ) ^ t.bits ≤ 2 ^ 64 := pow_le_pow_right₀ (by norm_num) t.bits_le
  have hdouble := t.two_pow_bits
  unfold low at hlow hhigh
  split at hlow
  · rw [if_pos ‹_›] at hhigh
    omega
  · rw [if_neg ‹_›] at hhigh
    omega

/-- A value of a type of at most 32 bits. -/
theorem Has.bounds_small {t : TypeDef} {z : ℤ} (h : t.Has z) (ht : t.hasBigConst = false) :
    t.bits ≤ 32 ∧ -2 ^ 31 ≤ z ∧ z < 2 ^ 32 := by
  obtain ⟨hlow, hhigh⟩ := h
  have hbits : t.bits ≤ 32 := by
    obtain ⟨length, signed⟩ := t
    cases length with
    | eight => cases ht
    | _ => exact Nat.le_of_ble_eq_true rfl
  have hpow : (2 : ℤ) ^ t.bits ≤ 2 ^ 32 := pow_le_pow_right₀ (by norm_num) hbits
  have hdouble := t.two_pow_bits
  unfold low at hlow hhigh
  split at hlow
  · rw [if_pos ‹_›] at hhigh
    omega
  · rw [if_neg ‹_›] at hhigh
    omega

theorem Has.nonneg {t : TypeDef} {z : ℤ} (h : t.Has z) (hs : t.signed = false) : 0 ≤ z := by
  have hlow : t.low = 0 := if_neg (ne_true_of_eq_false hs)
  exact hlow ▸ h.1

theorem Has.bounds_signed {t : TypeDef} {z : ℤ} (h : t.Has z) (hs : t.signed = true) :
    -2 ^ 63 ≤ z ∧ z < 2 ^ 63 := by
  obtain ⟨hlow, hhigh⟩ := h
  have hlow0 : t.low = -2 ^ (t.bits - 1) := if_pos hs
  have hpow : (2 : ℤ) ^ (t.bits - 1) ≤ 2 ^ 63 := by
    have := t.bits_le
    exact pow_le_pow_right₀ (by norm_num) (by omega)
  have htwo := t.two_pow_bits
  omega

theorem Has.bounds_small32 {t : TypeDef} {z : ℤ} (h : t.Has z) (hbig : t.hasBigConst = false)
    (hs : t.signed = true) : -2 ^ 31 ≤ z ∧ z < 2 ^ 31 := by
  obtain ⟨hbits, -, -⟩ := h.bounds_small hbig
  obtain ⟨hlow, hhigh⟩ := h
  have hlow0 : t.low = -2 ^ (t.bits - 1) := if_pos hs
  have hpow : (2 : ℤ) ^ (t.bits - 1) ≤ 2 ^ 31 := pow_le_pow_right₀ (by norm_num) (by omega)
  have htwo := t.two_pow_bits
  omega

/-- A number that needs no sign and fits 7 bits is a value of every type. -/
theorem has_small (t : TypeDef) {z : ℤ} (h0 : 0 ≤ z) (h : z < 2 ^ 7) : t.Has z := by
  have hge : (2 : ℤ) ^ 7 ≤ 2 ^ (t.bits - 1) :=
    pow_le_pow_right₀ (by norm_num) (Nat.le_sub_of_add_le t.bits_ge)
  have hdouble := t.two_pow_bits
  unfold Has low
  split <;> omega

theorem low_nonpos (t : TypeDef) : t.low ≤ 0 := by
  have hpos : (0 : ℤ) < 2 ^ (t.bits - 1) := by positivity
  unfold low
  split <;> omega

/-- Shifting to the right keeps the type. -/
theorem Has.shiftRight {t : TypeDef} {z : ℤ} (h : t.Has z) (n : ℕ) : t.Has (z >>> n) := by
  obtain ⟨hlow, hhigh⟩ := h
  have hpos : (0 : ℤ) < 2 ^ n := by positivity
  have hlow0 := t.low_nonpos
  rw [Int.shiftRight_eq_div_pow]
  push_cast
  constructor
  · rw [Int.le_ediv_iff_mul_le hpos]
    nlinarith
  · rcases lt_or_ge z 0 with hneg | hnonneg
    · have hdiv : z / 2 ^ n < 0 := Int.ediv_neg_of_neg_of_pos hneg hpos
      have hmax := t.has_small (le_refl 0) (by norm_num)
      exact lt_trans hdiv hmax.2
    · exact lt_of_le_of_lt (Int.ediv_le_self _ hnonneg) hhigh

theorem wrap_wrap (t : TypeDef) (z : ℤ) : t.wrap (t.wrap z) = t.wrap z := wrap_eq (t.wrap_has z)

/-- The bits of the value. -/
theorem ofInt_wrap (t : TypeDef) (z : ℤ) : BitVec.ofInt t.bits (t.wrap z) = BitVec.ofInt t.bits z := by
  unfold wrap intOf
  cases t.signed with
  | true => exact BitVec.ofInt_toInt
  | false =>
      simp only [Bool.false_eq_true, if_false, BitVec.ofInt_natCast]
      exact BitVec.ofNat_toNat ..|>.trans (BitVec.setWidth_eq _)

end TypeDef

/-! ### Reading a constant -/

/-- The decimal number is the integer `z`. -/
structure IsConst (cf : CFloat) (z : ℤ) : Prop where
  normal : cf.Normal
  val : cf.val = z

/-- `CFTest`. -/
def cfTest (cf : CFloat) : ℤ := cf.sign

/-- `CFIs32`. -/
def cfIs32 (cf : CFloat) : Bool := cfIsI32 cf || cfIsU32 cf

/-- `CFIs64`. -/
def cfIs64 (cf : CFloat) : Bool := cfIsI64 cf || cfIsU64 cf

/-- `CFConvertByType`; the result is an `int_32`. -/
def cfConvertByType (cf : CFloat) (t : TypeDef) : BitVec 32 :=
  let data := cfCnvF32 cf
  match t.length with
  | .one => if t.signed then (data.setWidth 8).signExtend 32 else (data.setWidth 8).setWidth 32
  | .two => if t.signed then (data.setWidth 16).signExtend 32 else (data.setWidth 16).setWidth 32
  | _ => data

/-- `CFGetInteger64Value`. -/
def cfGetInteger64Value (cf : CFloat) : BitVec 64 :=
  let trunc := cfTrunc cf
  if cfTest trunc < 0 then u64Neg (cfCnvF64 trunc.negate) else cfCnvF64 trunc

namespace IsConst

variable {cf : CFloat} {z : ℤ}

theorem sign_cases (h : IsConst cf z) :
    cf.sign = 0 ∧ z = 0 ∨ cf.sign = 1 ∧ 0 < z ∨ cf.sign = -1 ∧ z < 0 := by
  have hval := h.val
  rcases h.normal.sign with hs | hs | hs
  · rw [h.normal.eq_zero hs, cfAlloc_val] at hval
    exact .inl ⟨hs, by exact_mod_cast hval.symm⟩
  · obtain ⟨heq, hpos⟩ := h.normal.val_pos hs
    rw [← heq, hval] at hpos
    exact .inr (.inl ⟨hs, by exact_mod_cast hpos⟩)
  · obtain ⟨heq, hpos⟩ := h.normal.val_neg hs
    have hneg : cf.val < 0 := by
      rw [heq]
      exact neg_lt_zero.2 hpos
    rw [hval] at hneg
    exact .inr (.inr ⟨hs, by exact_mod_cast hneg⟩)

theorem cfTest_neg (h : IsConst cf z) : cfTest cf < 0 ↔ z < 0 := by
  unfold cfTest
  have := h.sign_cases
  omega

theorem cfTest_zero (h : IsConst cf z) : cfTest cf = 0 ↔ z = 0 := by
  unfold cfTest
  have := h.sign_cases
  omega

/-- An integer has nothing to truncate. -/
theorem cfTrunc_eq (h : IsConst cf z) : cfTrunc cf = cf := by
  unfold cfTrunc
  rcases h.normal with rfl | hproper
  · rfl
  · have hle := hproper.len_le_of_int h.val
    obtain ⟨d, t, hmant, -⟩ := hproper.trimmed.head
    have hlen : 0 < cf.len := by
      unfold CFloat.len
      rw [hmant, List.length_cons]
      omega
    rw [if_neg (by omega), if_pos hle]

theorem negate (h : IsConst cf z) : IsConst cf.negate (-z) where
  normal := h.normal.negate
  val := by
    rw [CFloat.negate_val, h.val]
    push_cast
    rfl

/-- The integer is the only one. -/
theorem exists_iff (h : IsConst cf z) (p : ℤ → Prop) : (∃ n : ℤ, cf.val = n ∧ p n) ↔ p z := by
  constructor
  · rintro ⟨n, hn, hp⟩
    obtain rfl : z = n := by exact_mod_cast h.val.symm.trans hn
    exact hp
  · exact fun hp => ⟨z, h.val, hp⟩

theorem cfIsI32_iff (h : IsConst cf z) : cfIsI32 cf = true ↔ -2 ^ 31 ≤ z ∧ z < 2 ^ 31 := by
  rw [Cfloat.cfIsI32_iff h.normal]
  exact h.exists_iff fun n => -2 ^ 31 ≤ n ∧ n < 2 ^ 31

theorem cfIsU32_iff (h : IsConst cf z) : cfIsU32 cf = true ↔ 0 ≤ z ∧ z < 2 ^ 32 := by
  rw [Cfloat.cfIsU32_iff h.normal, h.exists_iff fun n => 0 ≤ n ∧ n ≤ 2 ^ 32 - 1]
  omega

theorem cfIs64_of (h : IsConst cf z) (hlow : -2 ^ 63 ≤ z) (hhigh : z < 2 ^ 64) : cfIs64 cf = true := by
  unfold cfIs64
  rw [Bool.or_eq_true, Cfloat.cfIsI64_iff h.normal, Cfloat.cfIsU64_iff h.normal,
    h.exists_iff fun n => -9223372936854775807 ≤ n ∧ n < 9223372936854775807,
    h.exists_iff fun n => 0 ≤ n ∧ n ≤ 2 ^ 64 - 1]
  omega

theorem cfCnvF32_eq (h : IsConst cf z) (hlow : -2 ^ 31 ≤ z) (hhigh : z < 2 ^ 32) :
    cfCnvF32 cf = BitVec.ofInt 32 z := by
  refine cfCnvF_spec (cOps_lawful 32) h.normal ?_ h.val
  rw [Bool.or_eq_true, h.cfIsU32_iff, h.cfIsI32_iff]
  omega

theorem cfCnvF64_eq (h : IsConst cf z) (hlow : -2 ^ 63 ≤ z) (hhigh : z < 2 ^ 64) :
    cfCnvF64 cf = BitVec.ofInt 64 z :=
  cfCnvF_spec u64Ops_lawful h.normal (h.cfIs64_of hlow hhigh) h.val

theorem cfGetInteger64Value_eq (h : IsConst cf z) (hlow : -2 ^ 63 ≤ z) (hhigh : z < 2 ^ 64) :
    cfGetInteger64Value cf = BitVec.ofInt 64 z := by
  unfold cfGetInteger64Value
  rw [h.cfTrunc_eq]
  dsimp only
  by_cases hneg : z < 0
  · rw [if_pos (h.cfTest_neg.2 hneg), u64Neg_eq, h.negate.cfCnvF64_eq (by omega) (by omega),
      BitVec.ofInt_neg, BitVec.neg_neg]
  · rw [if_neg (fun hlt => hneg (h.cfTest_neg.1 hlt)), h.cfCnvF64_eq hlow hhigh]

end IsConst

/-! ### Making a constant -/

/-- `IntToCF`. -/
def intToCF (value : BitVec 64) (t : TypeDef) : CFloat :=
  if t.signed then
    match t.length with
    | .one => cfCnvI32F ((value.setWidth 8).signExtend 32)
    | .two => cfCnvI32F ((value.setWidth 16).signExtend 32)
    | .four => cfCnvI32F (lo32 value)
    | .eight => cfCnvI64F (lo32 value) (hi32 value)
  else
    match t.length with
    | .one => cfCnvU32F ((value.setWidth 8).setWidth 32)
    | .two => cfCnvU32F ((value.setWidth 16).setWidth 32)
    | .four => cfCnvU32F (lo32 value)
    | .eight => cfCnvU64F (lo32 value) (hi32 value)

/-- `c.lo.u.int_value` of the name that `AllocConst` makes. -/
def intValue (cf : CFloat) : BitVec 32 :=
  if cfCnvF32 cf = 0 ∧ (cfIsI64 cf || cfIsU64 cf) then lo32 (cfCnvF64 cf) else cfCnvF32 cf

/-- The constant of the type that `IntToType` makes from an `int_32`. -/
def intToType (value : BitVec 32) (t : TypeDef) : CFloat := intToCF (value.signExtend 64) t

/-- `CnvCFToType` for an integer type. -/
def cnvCFToType (cf : CFloat) (t : TypeDef) : CFloat := intToCF (cfGetInteger64Value cf) t

theorem cfCnvI32F_isConst (data : BitVec 32) : IsConst (cfCnvI32F data) data.toInt :=
  let h := cfCnvLongToF_spec data true
  ⟨h.1, h.2⟩

theorem cfCnvU32F_isConst (data : BitVec 32) : IsConst (cfCnvU32F data) data.toNat :=
  let h := cfCnvLongToF_spec data false
  ⟨h.1, h.2⟩

theorem hi32_append_lo32 (a : BitVec 64) : hi32 a ++ lo32 a = a := by
  apply BitVec.eq_of_toNat_eq
  rw [toNat_halves, toNat_eq_halves a]

theorem ofInt_toInt_setWidth {n : ℕ} (hn : n ≤ 64) (value : BitVec 64) :
    BitVec.ofInt n value.toInt = value.setWidth n := by
  apply BitVec.eq_of_toInt_eq
  rw [BitVec.toInt_ofInt, BitVec.toInt_setWidth, BitVec.toInt_eq_toNat_bmod]
  exact Int.bmod_bmod_of_dvd (pow_dvd_pow 2 hn)

/-- The value of the low bits, in the type. -/
theorem intToCF_isConst (value : BitVec 64) (t : TypeDef) :
    IsConst (intToCF value t) (t.wrap value.toInt) := by
  obtain ⟨length, signed⟩ := t
  have hwrap : TypeDef.wrap ⟨length, signed⟩ value.toInt = intOf signed (value.setWidth length.bits) := by
    unfold TypeDef.wrap TypeDef.bits
    rw [ofInt_toInt_setWidth length.bits_le]
  rw [hwrap]
  unfold intToCF intOf
  cases signed with
  | true =>
      simp only [if_true]
      cases length with
      | one =>
          rw [← BitVec.toInt_signExtend_of_le (show IntLength.one.bits ≤ 32 by decide)]
          exact cfCnvI32F_isConst _
      | two =>
          rw [← BitVec.toInt_signExtend_of_le (show IntLength.two.bits ≤ 32 by decide)]
          exact cfCnvI32F_isConst _
      | four => exact cfCnvI32F_isConst _
      | eight =>
          have h := cfCnvI64F_spec (lo32 value) (hi32 value)
          rw [hi32_append_lo32] at h
          have heq : value.setWidth IntLength.eight.bits = value := BitVec.setWidth_eq value
          exact ⟨h.1, by rw [h.2, heq]; rfl⟩
  | false =>
      simp only [Bool.false_eq_true, if_false]
      cases length with
      | one =>
          rw [← BitVec.toNat_setWidth_of_le (show IntLength.one.bits ≤ 32 by decide)]
          exact cfCnvU32F_isConst _
      | two =>
          rw [← BitVec.toNat_setWidth_of_le (show IntLength.two.bits ≤ 32 by decide)]
          exact cfCnvU32F_isConst _
      | four => exact cfCnvU32F_isConst _
      | eight =>
          have h := cfCnvU64F_spec (lo32 value) (hi32 value)
          rw [hi32_append_lo32] at h
          have heq : value.setWidth IntLength.eight.bits = value := BitVec.setWidth_eq value
          exact ⟨h.1, by rw [h.2, heq]; norm_cast⟩

theorem intToType_isConst (value : BitVec 32) (t : TypeDef) :
    IsConst (intToType value t) (t.wrap value.toInt) := by
  have h := intToCF_isConst (value.signExtend 64) t
  rwa [BitVec.toInt_signExtend_of_le (by decide)] at h

theorem bmod_bits (t : TypeDef) (z : ℤ) {n : ℕ} (hn : t.bits ≤ n) :
    t.wrap (z.bmod (2 ^ n)) = t.wrap z := by
  refine t.wrap_congr ?_
  have hdvd : (2 : ℤ) ^ t.bits ∣ 2 ^ n := pow_dvd_pow 2 hn
  have hmod := Int.bmod_emod (x := z) (m := 2 ^ n)
  push_cast at hmod
  rw [← Int.emod_emod_of_dvd _ hdvd, hmod, Int.emod_emod_of_dvd _ hdvd]

theorem toNat_ofInt_of_bounds {w : ℕ} {z : ℤ} (h0 : 0 ≤ z) (hhigh : z < 2 ^ w) :
    ((BitVec.ofInt w z).toNat : ℤ) = z := by
  rw [BitVec.toNat_ofInt]
  push_cast
  rw [Int.emod_eq_of_lt h0 hhigh, Int.toNat_of_nonneg h0]

/-- The value of the bits as a number of the type, however they are read. -/
theorem wrap_toInt (t : TypeDef) {n : ℕ} (hn : t.bits ≤ n) (b : BitVec n) : t.wrap b.toInt = t.wrap b.toNat := by
  rw [BitVec.toInt_eq_toNat_bmod, bmod_bits t _ hn]

theorem cnvCFToType_isConst {cf : CFloat} {z : ℤ} (h : IsConst cf z) (hlow : -2 ^ 63 ≤ z)
    (hhigh : z < 2 ^ 64) (t : TypeDef) : IsConst (cnvCFToType cf t) (t.wrap z) := by
  have hconst := intToCF_isConst (cfGetInteger64Value cf) t
  have hwrap : t.wrap (cfGetInteger64Value cf).toInt = t.wrap z := by
    rw [h.cfGetInteger64Value_eq hlow hhigh, BitVec.toInt_ofInt, bmod_bits t z t.bits_le]
  exact hwrap ▸ hconst

theorem setWidth_ofInt {m n : ℕ} (hn : n ≤ m) (z : ℤ) :
    (BitVec.ofInt m z).setWidth n = BitVec.ofInt n z := by
  have hdvd : (2 : ℤ) ^ n ∣ 2 ^ m := pow_dvd_pow 2 hn
  have hpos : (0 : ℤ) < 2 ^ m := by positivity
  have hnonneg := Int.emod_nonneg z (ne_of_gt hpos)
  apply BitVec.eq_of_toNat_eq
  rw [BitVec.toNat_setWidth, BitVec.toNat_ofInt, BitVec.toNat_ofInt]
  push_cast
  zify
  rw [Int.toNat_of_nonneg hnonneg, Int.emod_emod_of_dvd z hdvd, Int.toNat_of_nonneg]
  exact Int.emod_nonneg z (by positivity)

/-- The bits of the value in a type of at most 32 bits. -/
theorem cfConvertByType_eq {cf : CFloat} {z : ℤ} (h : IsConst cf z) (hlow : -2 ^ 31 ≤ z)
    (hhigh : z < 2 ^ 32) {t : TypeDef} (ht : t.hasBigConst = false) :
    cfConvertByType cf t = BitVec.ofInt 32 (t.wrap z) := by
  obtain ⟨length, signed⟩ := t
  unfold cfConvertByType TypeDef.wrap TypeDef.bits intOf
  rw [h.cfCnvF32_eq hlow hhigh]
  cases length with
  | one =>
      dsimp only
      rw [setWidth_ofInt (by decide)]
      cases signed with
      | true => rfl
      | false =>
          simp only [Bool.false_eq_true, if_false, BitVec.ofInt_natCast]
          exact (BitVec.ofNat_toNat 32 _).symm
  | two =>
      dsimp only
      rw [setWidth_ofInt (by decide)]
      cases signed with
      | true => rfl
      | false =>
          simp only [Bool.false_eq_true, if_false, BitVec.ofInt_natCast]
          exact (BitVec.ofNat_toNat 32 _).symm
  | four =>
      have hwrap := TypeDef.ofInt_wrap ⟨.four, signed⟩ z
      exact hwrap.symm
  | eight => cases ht

theorem intValue_eq {cf : CFloat} {z : ℤ} (h : IsConst cf z) (hlow : -2 ^ 31 ≤ z) (hhigh : z < 2 ^ 32) :
    intValue cf = BitVec.ofInt 32 z := by
  unfold intValue
  rw [h.cfCnvF64_eq (by omega) (by omega), h.cfCnvF32_eq hlow hhigh]
  split
  · exact setWidth_ofInt (by decide) z
  · rfl

/-! ### Powers of two -/

/-- `_IsPowerOfTwo`. -/
def isPowerOfTwo (x : BitVec 32) : Bool := x &&& (1#32 - x) = x

/-- The loop of `GetLog2`, which ends for a power of two. -/
def log2Loop (value : BitVec 32) : ℕ → BitVec 32 → ℤ → ℤ
  | 0, _, _ => -1
  | n + 1, count, log => if count = value then log else log2Loop value n (count + count) (log + 1)

/-- `GetLog2`. -/
def getLog2 (value : BitVec 32) : ℤ :=
  if isPowerOfTwo value ∧ value ≠ 0 then log2Loop value 32 1#32 0 else -1

theorem log2Loop_sound (value : BitVec 32) {n k : ℕ} (hk : n + k = 32)
    (h : log2Loop value n (BitVec.ofNat 32 (2 ^ k)) k ≠ -1) :
    ∃ j < 32, log2Loop value n (BitVec.ofNat 32 (2 ^ k)) k = (j : ℕ) ∧ value.toNat = 2 ^ j := by
  induction n generalizing k with
  | zero => exact absurd rfl h
  | succ n ih =>
      have hpow : BitVec.ofNat 32 (2 ^ k) + BitVec.ofNat 32 (2 ^ k) = BitVec.ofNat 32 (2 ^ (k + 1)) := by
        rw [← BitVec.ofNat_add, ← two_mul, ← pow_succ']
      rw [log2Loop] at h ⊢
      by_cases heq : BitVec.ofNat 32 (2 ^ k) = value
      · refine ⟨k, by omega, if_pos heq, ?_⟩
        rw [← heq, BitVec.toNat_ofNat]
        exact Nat.mod_eq_of_lt (Nat.pow_lt_pow_right (by norm_num) (by omega))
      · rw [if_neg heq, hpow] at h ⊢
        exact ih (k := k + 1) (by omega) h

/-- A value that `GetLog2` knows is a power of two. -/
theorem getLog2_sound {value : BitVec 32} (h : getLog2 value ≠ -1) :
    ∃ j < 32, getLog2 value = (j : ℕ) ∧ value.toNat = 2 ^ j := by
  unfold getLog2 at h ⊢
  split at h
  case isTrue hcond =>
    rw [if_pos hcond]
    exact log2Loop_sound value (n := 32) (k := 0) rfl h
  case isFalse => exact absurd rfl h

/-! ### Division in 64 bits -/

/-- `U64Sub`. -/
def u64Sub (a b : BitVec 64) : BitVec 64 := u64Add a (u64Neg b)

/-- The first loop of `U64Div`: the divisor is shifted until it is not below the dividend. -/
def divShift (a : BitVec 64) : ℕ → BitVec 64 → ℕ → Option (BitVec 64 × ℕ)
  | 0, _, _ => none
  | n + 1, b, count =>
    if b.msb then some (b, count)
    else if u64Cmp a b ≤ 0 then some (b, count)
    else divShift a n (b <<< 1) (count + 1)

/-- The second loop, of `count + 1` rounds. -/
def divLoop : ℕ → BitVec 64 → BitVec 64 → BitVec 64 → BitVec 64 × BitVec 64
  | 0, div, a, _ => (div, a)
  | n + 1, div, a, b =>
    if 0 ≤ u64Cmp a b then divLoop n ((div <<< 1) ||| 1#64) (u64Sub a b) (b >>> 1)
    else divLoop n (div <<< 1) a (b >>> 1)

/-- `U64Div`: the quotient and the remainder; `none` when the host divides by 0, or the loop has no end. -/
def u64Div (a b : BitVec 64) : Option (BitVec 64 × BitVec 64) :=
  if hi32 a = 0 ∧ hi32 b = 0 then
    if lo32 b = 0 then none
    else some ((lo32 a / lo32 b).setWidth 64, (lo32 a % lo32 b).setWidth 64)
  else
    (divShift a 64 b 0).map fun p => divLoop (p.2 + 1) 0 a p.1

/-- `I64Div`. -/
def i64Div (a b : BitVec 64) : Option (BitVec 64 × BitVec 64) :=
  let tmpA := if a.msb then u64Neg a else a
  let tmpB := if b.msb then u64Neg b else b
  (u64Div tmpA tmpB).map fun p =>
    (if a.msb ^^ b.msb then u64Neg p.1 else p.1, if a.msb then u64Neg p.2 else p.2)

theorem u64Cmp_le (a b : BitVec 64) : u64Cmp a b ≤ 0 ↔ a.toNat ≤ b.toNat := by
  unfold u64Cmp
  split
  · omega
  · split <;> omega

theorem u64Cmp_ge (a b : BitVec 64) : 0 ≤ u64Cmp a b ↔ b.toNat ≤ a.toNat := by
  unfold u64Cmp
  split
  · omega
  · split <;> omega

theorem toNat_u64Sub {a b : BitVec 64} (h : b.toNat ≤ a.toNat) : (u64Sub a b).toNat = a.toNat - b.toNat := by
  have ha := a.isLt
  rw [u64Sub, u64Neg_eq, u64Add_eq, BitVec.toNat_add, BitVec.toNat_neg]
  omega

/-- The divisor shifted by `count` is such that the quotient has `count + 1` bits. -/
theorem divShift_spec (a : BitVec 64) {d n c : ℕ} {b : BitVec 64} (hb : b.toNat = d * 2 ^ c)
    (hpos : 0 < b.toNat) (hn : 2 ^ 63 ≤ b.toNat * 2 ^ n) :
    ∃ b' c', divShift a (n + 1) b c = some (b', c') ∧ b'.toNat = d * 2 ^ c' ∧ a.toNat < 2 * b'.toNat := by
  have ha := a.isLt
  have hblt := b.isLt
  induction n generalizing b c with
  | zero =>
      have hmsb : b.msb = true := by
        rw [BitVec.msb_eq_decide]
        exact decide_eq_true (by omega)
      exact ⟨b, c, by rw [divShift, if_pos hmsb], hb, by omega⟩
  | succ n ih =>
      rw [divShift]
      by_cases hmsb : b.msb = true
      · have hge : 2 ^ 63 ≤ b.toNat := by
          rw [BitVec.msb_eq_decide] at hmsb
          exact of_decide_eq_true hmsb
        exact ⟨b, c, if_pos hmsb, hb, by omega⟩
      · have hlt : b.toNat < 2 ^ 63 := by
          rw [BitVec.msb_eq_decide, decide_eq_true_eq] at hmsb
          omega
        rw [if_neg hmsb]
        by_cases hcmp : u64Cmp a b ≤ 0
        · have hle := (u64Cmp_le a b).1 hcmp
          exact ⟨b, c, if_pos hcmp, hb, by omega⟩
        · rw [if_neg hcmp]
          have hshift : (b <<< 1).toNat = b.toNat * 2 := by
            rw [BitVec.toNat_shiftLeft, Nat.shiftLeft_eq]
            omega
          have hpow : b.toNat * 2 ^ (n + 1) = b.toNat * 2 * 2 ^ n := by ring
          refine ih ?_ (by omega) (by rw [hshift]; omega) (b <<< 1).isLt
          rw [hshift, hb]
          ring

/-- One round of the second loop: the next bit of the quotient, and what is left of the dividend. -/
theorem divLoop_round (d : ℕ) (hd : 0 < d) {k : ℕ} {div a b : BitVec 64} (hb : b.toNat = d * 2 ^ k)
    (ha : a.toNat < 2 * b.toNat) (hdiv : 2 * div.toNat + 1 < 2 ^ 64) :
    ∃ div' a' : BitVec 64, (∀ n, divLoop (n + 1) div a b = divLoop n div' a' (b >>> 1)) ∧
      a'.toNat < b.toNat ∧ a'.toNat % d = a.toNat % d ∧
      div'.toNat * 2 ^ k + a'.toNat / d = div.toNat * 2 ^ (k + 1) + a.toNat / d := by
  have hshift : (div <<< 1).toNat = 2 * div.toNat := by
    rw [BitVec.toNat_shiftLeft, Nat.shiftLeft_eq]
    omega
  by_cases hcmp : 0 ≤ u64Cmp a b
  · have hge := (u64Cmp_ge a b).1 hcmp
    have hor : ((div <<< 1) ||| 1#64).toNat = 2 * div.toNat + 1 := by
      have heq : 2 * div.toNat = div.toNat <<< 1 := by rw [Nat.shiftLeft_eq, Nat.mul_comm, pow_one]
      rw [BitVec.toNat_or, hshift, heq]
      exact (Nat.shiftLeft_add_eq_or_of_lt (by decide) _).symm
    have hsub := toNat_u64Sub hge
    have hsplit : a.toNat = (u64Sub a b).toNat + 2 ^ k * d := by
      rw [hsub, Nat.mul_comm, ← hb]
      omega
    refine ⟨(div <<< 1) ||| 1#64, u64Sub a b, fun n => by rw [divLoop, if_pos hcmp], by omega, ?_, ?_⟩
    · rw [hsplit, Nat.add_mul_mod_self_right]
    · rw [hsplit, Nat.add_mul_div_right _ _ hd, hor, pow_succ]
      ring
  · have hlt : a.toNat < b.toNat := by
      rw [u64Cmp_ge] at hcmp
      omega
    refine ⟨div <<< 1, a, fun n => by rw [divLoop, if_neg hcmp], hlt, rfl, ?_⟩
    rw [hshift, pow_succ]
    ring

theorem divLoop_spec (d : ℕ) (hd : 0 < d) {k : ℕ} {div a b : BitVec 64} (hb : b.toNat = d * 2 ^ k)
    (ha : a.toNat < 2 * b.toNat) (hdiv : div.toNat * 2 ^ (k + 1) + a.toNat / d < 2 ^ 64) :
    (divLoop (k + 1) div a b).1.toNat = div.toNat * 2 ^ (k + 1) + a.toNat / d ∧
      (divLoop (k + 1) div a b).2.toNat = a.toNat % d := by
  have hlow := lt_of_le_of_lt (Nat.le_add_right _ _) hdiv
  induction k generalizing div a b with
  | zero =>
      have hbit : 2 * div.toNat + 1 < 2 ^ 64 := by omega
      obtain ⟨div', a', hround, hlt, hrem, hquot⟩ := divLoop_round d hd hb ha hbit
      have hsmall : a'.toNat < d := by omega
      rw [hround, ← hquot, ← hrem, divLoop, Nat.div_eq_of_lt hsmall, Nat.mod_eq_of_lt hsmall]
      simp
  | succ k ih =>
      have hle : div.toNat * 2 ≤ div.toNat * 2 ^ (k + 1 + 1) :=
        Nat.mul_le_mul_left _ (by rw [pow_succ]; have := Nat.one_le_two_pow (n := k + 1); omega)
      have hbit : 2 * div.toNat + 1 < 2 ^ 64 := by omega
      obtain ⟨div', a', hround, hlt, hrem, hquot⟩ := divLoop_round d hd hb ha hbit
      have hshift : (b >>> 1).toNat = d * 2 ^ k := by
        rw [BitVec.toNat_ushiftRight, Nat.shiftRight_eq_div_pow, hb, pow_succ, ← Nat.mul_assoc]
        exact Nat.mul_div_cancel _ (by norm_num)
      have ha' : a'.toNat < 2 * (b >>> 1).toNat := by
        rw [hshift, ← Nat.mul_assoc, Nat.mul_comm 2, Nat.mul_assoc, ← pow_succ', ← hb]
        exact hlt
      rw [hround, ← hquot, ← hrem]
      exact ih hshift ha' (hquot ▸ hdiv) (lt_of_le_of_lt (Nat.le_add_right _ _) (hquot ▸ hdiv))

/-- `U64Div` divides, whenever the divisor is not 0. -/
theorem u64Div_spec (a : BitVec 64) {b : BitVec 64} (hb : b ≠ 0) : u64Div a b = some (a / b, a % b) := by
  have hpos : 0 < b.toNat := by
    rcases Nat.eq_zero_or_pos b.toNat with h0 | h0
    · exact absurd (BitVec.eq_of_toNat_eq h0) hb
    · exact h0
  have hahalves := toNat_eq_halves a
  have hbhalves := toNat_eq_halves b
  unfold u64Div
  by_cases hsmall : hi32 a = 0 ∧ hi32 b = 0
  · have ha32 : a.toNat = (lo32 a).toNat := by
      rw [hsmall.1] at hahalves
      simpa using hahalves
    have hb32 : b.toNat = (lo32 b).toNat := by
      rw [hsmall.2] at hbhalves
      simpa using hbhalves
    have hlo : lo32 b ≠ 0 := by
      intro h0
      rw [h0] at hb32
      exact absurd hb32 (Nat.ne_of_gt hpos)
    rw [if_pos hsmall, if_neg hlo]
    congr 2
    · apply BitVec.eq_of_toNat_eq
      rw [BitVec.toNat_setWidth_of_le (by decide), BitVec.toNat_udiv, BitVec.toNat_udiv, ha32, hb32]
    · apply BitVec.eq_of_toNat_eq
      rw [BitVec.toNat_setWidth_of_le (by decide), BitVec.toNat_umod, BitVec.toNat_umod, ha32, hb32]
  · rw [if_neg hsmall]
    obtain ⟨b', c', hshift, hb', ha'⟩ := divShift_spec a (n := 63) (d := b.toNat) (c := 0) (b := b) (by simp)
      hpos (by omega)
    have hquot : a.toNat / b.toNat < 2 ^ 64 := lt_of_le_of_lt (Nat.div_le_self _ _) a.isLt
    have hzero : (0#64).toNat * 2 ^ (c' + 1) + a.toNat / b.toNat < 2 ^ 64 := by simpa using hquot
    obtain ⟨hq, hr⟩ := divLoop_spec b.toNat hpos hb' ha' hzero
    rw [hshift]
    dsimp only [Option.map]
    congr 1
    refine Prod.ext (BitVec.eq_of_toNat_eq ?_) (BitVec.eq_of_toNat_eq ?_)
    · rw [BitVec.toNat_udiv]
      simpa using hq
    · rw [BitVec.toNat_umod]
      exact hr

/-- `I64Div` is the signed division of the 64 bits: the quotient of the least value and -1 wraps. -/
theorem i64Div_spec (a : BitVec 64) {b : BitVec 64} (hb : b ≠ 0) :
    i64Div a b = some (a.sdiv b, a.srem b) := by
  have hneg : -b ≠ 0 := by
    intro h0
    exact hb (BitVec.neg_eq_zero_iff.1 h0)
  unfold i64Div
  simp only [u64Neg_eq]
  rw [BitVec.sdiv_eq, BitVec.srem_eq]
  have hpos : ∀ a, u64Div a b = some (a / b, a % b) := fun a => u64Div_spec a hb
  have hnegated : ∀ a, u64Div a (-b) = some (a / -b, a % -b) := fun a => u64Div_spec a hneg
  cases a.msb <;> cases b.msb <;> simp [hpos, hnegated]

end OpenWatcom.Cg
