import OpenWatcom.Cfloat.Products

/-! # Integers as decimal constants

The conversions between decimal constants and machine integers, and the tests for the range of an integer type.
A machine integer is a bit vector. -/

namespace OpenWatcom.Cfloat

open OpenWatcom

/-! ### Integers to numbers -/

/-- `MaxNegI32`. -/
def maxNegI32 : CFloat := ⟨10, -1, [2, 1, 4, 7, 4, 8, 3, 6, 4, 8]⟩

/-- `High64Mult`. -/
def high64Mult : CFloat := ⟨10, 1, [4, 2, 9, 4, 9, 6, 7, 2, 9, 6]⟩

/-- The loop of `CFCnvLongToF`, which puts the digits of the dividend in front of those it has. -/
def cnvLoop (dividend : ℕ) (digits : List ℕ) : List ℕ :=
  if dividend = 0 then digits else cnvLoop (dividend / 10) (dividend % 10 :: digits)
termination_by dividend
decreasing_by omega

/-- `CFCnvLongToF`. -/
def cfCnvLongToF (data : BitVec 32) (isSigned : Bool) : CFloat :=
  if data = 0 then cfAlloc
  else if isSigned ∧ -data = data then maxNegI32
  else
    let neg := data.msb && isSigned
    let digits := cnvLoop (if neg then -data else data).toNat []
    cfClean ⟨digits.length, if neg then -1 else 1, digits⟩

def cfCnvI32F (data : BitVec 32) : CFloat := cfCnvLongToF data true

def cfCnvU32F (data : BitVec 32) : CFloat := cfCnvLongToF data false

/-- `CFCnvU64F`. -/
def cfCnvU64F (lo32 hi32 : BitVec 32) : CFloat :=
  cfAdd (cfMul (cfCnvU32F hi32) high64Mult) (cfCnvU32F lo32)

/-- `CFCnvI64F`. -/
def cfCnvI64F (lo32 hi32 : BitVec 32) : CFloat :=
  if hi32.msb then
    let lo := ~~~lo32 + 1
    let hi := if lo = 0 then ~~~hi32 + 1 else ~~~hi32
    { cfCnvU64F lo hi with sign := -1 }
  else cfCnvU64F lo32 hi32

theorem cnvLoop_eq (n : ℕ) (digits : List ℕ) : cnvLoop n digits = (Nat.digits 10 n).reverse ++ digits := by
  induction n using Nat.strong_induction_on generalizing digits with
  | _ n ih =>
      unfold cnvLoop
      by_cases hn : n = 0
      · rw [if_pos hn, hn, Nat.digits_zero, List.reverse_nil, List.nil_append]
      · rw [if_neg hn, ih (n / 10) (Nat.div_lt_self (Nat.pos_of_ne_zero hn) (by decide)),
          Nat.digits_def' (by decide) (Nat.pos_of_ne_zero hn), List.reverse_cons, List.append_assoc,
          List.singleton_append]

/-- Digits without zeros at their ends, to be evaluated. -/
theorem trimmed_iff {l : List ℕ} : Trimmed l ↔ Digits l ∧ l.headD 0 ≠ 0 ∧ l.getLastD 0 ≠ 0 := by
  constructor
  · intro h
    obtain ⟨d, t, rfl, hd⟩ := h.head
    refine ⟨h.digits, hd, ?_⟩
    rw [List.getLastD_eq_getLast?, List.getLast?_eq_getLast_of_ne_nil (List.cons_ne_nil d t)]
    exact h.last _
  · rintro ⟨hdigits, hhead, hlast⟩
    cases l with
    | nil => exact absurd rfl hhead
    | cons d t =>
        refine ⟨hdigits, ⟨d, t, rfl, hhead⟩, fun h => ?_⟩
        rwa [List.getLastD_eq_getLast?, List.getLast?_eq_getLast_of_ne_nil h] at hlast

instance (l : List ℕ) : Decidable (Trimmed l) := decidable_of_iff _ trimmed_iff.symm

theorem short_nat {n : ℕ} (hn : n < 10 ^ cfMaxPrec) : Short n := by
  refine ⟨n, 0, hn, ?_⟩
  rw [zpow_zero, mul_one, Nat.abs_cast]

/-- A positive integer, with the sign that is put before it. -/
theorem cnvLoop_spec {n : ℕ} (h0 : n ≠ 0) (hn : n < 10 ^ cfMaxPrec) {sign : ℤ} (hs : sign = 1 ∨ sign = -1) :
    (cfClean ⟨(cnvLoop n []).length, sign, cnvLoop n []⟩).Proper ∧
      (cfClean ⟨(cnvLoop n []).length, sign, cnvLoop n []⟩).val = sign * n := by
  have hval : decVal (cnvLoop n []) = n := by
    rw [cnvLoop_eq, List.append_nil]
    unfold decVal
    rw [List.reverse_reverse, Nat.ofDigits_digits]
  have hdigits : Digits (cnvLoop n []) := by
    intro d hd
    rw [cnvLoop_eq, List.append_nil, List.mem_reverse] at hd
    exact Nat.digits_lt_base (by decide) hd
  generalize cnvLoop n [] = digits at hval hdigits ⊢
  have hmag : CFloat.mag ⟨digits.length, sign, digits⟩ = n := by
    unfold CFloat.mag CFloat.len
    dsimp only
    rw [sub_self, zpow_zero, mul_one, hval]
  have hrough : CFloat.Rough ⟨digits.length, sign, digits⟩ := ⟨hs, hdigits, by rwa [hval]⟩
  have hnum : CFloat.val ⟨digits.length, sign, digits⟩ = sign * n := by
    unfold CFloat.val
    rw [hmag]
  rw [← hnum]
  apply cfClean_spec hrough
  refine ⟨n, 0, hn, ?_⟩
  rw [hrough.abs_val, hmag, zpow_zero, mul_one]

/-- The value that the bits stand for. -/
def intOf (isSigned : Bool) {w : ℕ} (data : BitVec w) : ℤ := if isSigned then data.toInt else data.toNat

/-- Every 32-bit integer becomes its number. -/
theorem cfCnvLongToF_spec (data : BitVec 32) (isSigned : Bool) :
    (cfCnvLongToF data isSigned).Normal ∧ (cfCnvLongToF data isSigned).val = intOf isSigned data := by
  unfold cfCnvLongToF
  by_cases h0 : data = 0
  · rw [if_pos h0, cfAlloc_val, h0]
    refine ⟨.zero, ?_⟩
    cases isSigned <;> simp [intOf]
  · rw [if_neg h0]
    have hne : data.toNat ≠ 0 := fun h => h0 (BitVec.eq_of_toNat_eq h)
    have hlt := data.isLt
    have hbig : 2 ^ 32 ≤ 10 ^ cfMaxPrec := by decide
    by_cases hmin : isSigned ∧ -data = data
    · rw [if_pos hmin]
      obtain ⟨hsigned, hneg⟩ := hmin
      have hdata : data = 0x80000000#32 := by
        have hnat := congrArg BitVec.toNat hneg
        rw [BitVec.toNat_neg] at hnat
        apply BitVec.eq_of_toNat_eq
        rw [BitVec.toNat_ofNat]
        omega
      subst hdata
      subst hsigned
      refine ⟨.inr ⟨.inr rfl, by decide⟩, ?_⟩
      norm_num [CFloat.val, CFloat.mag, CFloat.len, maxNegI32, decVal, Nat.ofDigits, intOf, BitVec.toInt]
    · rw [if_neg hmin]
      dsimp only
      by_cases hneg : (data.msb && isSigned) = true
      · rw [if_pos hneg, if_pos hneg]
        obtain ⟨hmsb, hsigned⟩ := Bool.and_eq_true_iff.mp hneg
        subst hsigned
        have hge := BitVec.msb_eq_true_iff_two_mul_ge.mp hmsb
        have hnat : (-data).toNat = 2 ^ 32 - data.toNat := by
          rw [BitVec.toNat_neg]
          omega
        obtain ⟨hproper, hval⟩ := cnvLoop_spec (n := (-data).toNat) (by omega) (by omega) (.inr rfl : (-1 : ℤ) = 1 ∨ _)
        refine ⟨.inr hproper, ?_⟩
        rw [hval, hnat]
        unfold intOf
        rw [if_pos rfl, BitVec.toInt_eq_msb_cond, if_pos hmsb, Nat.cast_sub hlt.le]
        push_cast
        ring
      · rw [if_neg hneg, if_neg hneg]
        obtain ⟨hproper, hval⟩ := cnvLoop_spec hne (by omega) (.inl rfl : (1 : ℤ) = 1 ∨ _)
        refine ⟨.inr hproper, ?_⟩
        rw [hval]
        unfold intOf
        cases isSigned with
        | false => simp
        | true =>
            have hmsb : data.msb = false := by simpa using hneg
            rw [if_pos rfl, BitVec.toInt_eq_msb_cond, hmsb]
            simp

/-- A natural number is its digits with zeros behind them. -/
theorem CFloat.Proper.nat_mag {f : CFloat} (h : f.Proper) {n : ℕ} (hn : f.mag = n) :
    ∃ k : ℕ, f.exp = f.len + k ∧ decVal f.mant * 10 ^ k = n := by
  unfold CFloat.mag at hn
  obtain hle | hlt := le_or_gt f.len f.exp
  · obtain ⟨k, hk⟩ := Int.le.dest hle
    refine ⟨k, hk.symm, ?_⟩
    rw [← hk, add_sub_cancel_left, zpow_natCast] at hn
    exact_mod_cast hn
  · obtain ⟨k, hk⟩ := Int.le.dest (Int.add_one_le_of_lt hlt)
    have hexp : f.exp - f.len = -((k + 1 : ℕ) : ℤ) := by
      push_cast
      omega
    rw [hexp, zpow_neg, zpow_natCast, ← div_eq_mul_inv, div_eq_iff (by positivity)] at hn
    have hnat : decVal f.mant = n * 10 ^ (k + 1) := by exact_mod_cast hn
    refine absurd ⟨n * 10 ^ k, ?_⟩ h.trimmed.not_dvd
    rw [hnat, pow_succ]
    ring

theorem CFloat.Proper.decVal_le {f : CFloat} (h : f.Proper) {n : ℕ} (hn : f.mag = n) : decVal f.mant ≤ n := by
  obtain ⟨k, -, rfl⟩ := h.nat_mag hn
  exact Nat.le_mul_of_pos_right _ (Nat.pow_pos (by decide))

theorem CFloat.Normal.sign_of_pos {f : CFloat} (h : f.Normal) (hval : 0 < f.val) : f.sign = 1 := by
  obtain hs | hs | hs := h.sign
  · rw [h.eq_zero hs, cfAlloc_val] at hval
    exact absurd hval (lt_irrefl 0)
  · exact hs
  · obtain ⟨hneg, hpos⟩ := h.val_neg hs
    rw [hneg] at hval
    linarith

theorem toNat_halves (hi lo : BitVec 32) : (hi ++ lo : BitVec 64).toNat = 2 ^ 32 * hi.toNat + lo.toNat := by
  rw [BitVec.toNat_append, ← Nat.shiftLeft_add_eq_or_of_lt lo.isLt, Nat.shiftLeft_eq, Nat.mul_comm]

/-- Every unsigned 64-bit integer becomes its number. -/
theorem cfCnvU64F_spec (lo32 hi32 : BitVec 32) :
    (cfCnvU64F lo32 hi32).Normal ∧ (cfCnvU64F lo32 hi32).val = (hi32 ++ lo32 : BitVec 64).toNat := by
  obtain ⟨hlo, hloval⟩ := cfCnvLongToF_spec lo32 false
  obtain ⟨hhi, hhival⟩ := cfCnvLongToF_spec hi32 false
  have hl := lo32.isLt
  have hh := hi32.isLt
  have hbig : 2 ^ 64 ≤ 10 ^ cfMaxPrec := by decide
  have hmult : high64Mult.Proper := ⟨.inl rfl, by decide⟩
  have hmultval : high64Mult.val = 2 ^ 32 := by
    norm_num [CFloat.val, CFloat.mag, CFloat.len, high64Mult, decVal, Nat.ofDigits]
  -- The high half, moved to its place.
  have hprod : (cfMul (cfCnvU32F hi32) high64Mult).Normal ∧
      (cfMul (cfCnvU32F hi32) high64Mult).val = ((2 ^ 32 * hi32.toNat : ℕ) : ℚ) := by
    change (cfCnvU32F hi32).Normal at hhi
    change (cfCnvU32F hi32).val = _ at hhival
    generalize cfCnvU32F hi32 = f at hhi hhival
    have hval : f.val = hi32.toNat := by simpa [intOf] using hhival
    obtain rfl | hproper := hhi
    · rw [cfAlloc_val] at hval
      have h0 : hi32.toNat = 0 := by exact_mod_cast hval.symm
      rw [h0]
      exact ⟨.zero, by unfold cfMul; simp [cfAlloc, CFloat.val]⟩
    · have hmag : f.mag = hi32.toNat := by rw [← hproper.abs_val, hval, Nat.abs_cast]
      have hfit : decVal f.mant * decVal high64Mult.mant < 10 ^ cfMaxPrec := by
        have hdigits : decVal high64Mult.mant = 2 ^ 32 := by decide
        have hle := hproper.decVal_le hmag
        rw [hdigits]
        omega
      obtain ⟨hnormal, hprod⟩ := cfMul_exact hproper hmult hfit
      refine ⟨hnormal, ?_⟩
      rw [hprod, hval, hmultval]
      push_cast
      ring
  have hsum : (cfMul (cfCnvU32F hi32) high64Mult).val + (cfCnvU32F lo32).val =
      ((hi32 ++ lo32 : BitVec 64).toNat : ℚ) := by
    have hlo' : (cfCnvU32F lo32).val = lo32.toNat := hloval.trans (by simp [intOf])
    rw [hprod.2, hlo', toNat_halves]
    push_cast
    rfl
  unfold cfCnvU64F
  rw [← hsum]
  apply cfAdd_exact hprod.1 hlo
  change Short ((cfMul (cfCnvU32F hi32) high64Mult).val + (cfCnvU32F lo32).val)
  rw [hsum]
  exact short_nat (lt_of_lt_of_le (hi32 ++ lo32 : BitVec 64).isLt hbig)

/-- The low half of the two's complement. -/
theorem toNat_negLo (lo : BitVec 32) : (~~~lo + 1).toNat = (2 ^ 32 - lo.toNat) % 2 ^ 32 := by
  have hl := lo.isLt
  have hone : (1 : BitVec 32).toNat = 1 := rfl
  rw [BitVec.toNat_add, BitVec.toNat_not, hone]
  omega

/-- The high half of the two's complement. -/
theorem toNat_negHi (hi lo : BitVec 32) : (if ~~~lo + 1 = 0 then ~~~hi + 1 else ~~~hi).toNat =
    (2 ^ 32 - 1 - hi.toNat + if lo.toNat = 0 then 1 else 0) % 2 ^ 32 := by
  have hl := lo.isLt
  have hh := hi.isLt
  have hone : (1 : BitVec 32).toNat = 1 := rfl
  have hlo := toNat_negLo lo
  have hiff : ~~~lo + 1 = 0 ↔ lo.toNat = 0 := by
    constructor
    · intro h
      rw [h] at hlo
      change 0 = _ at hlo
      omega
    · intro h
      apply BitVec.eq_of_toNat_eq
      rw [hlo, h]
      rfl
  by_cases h : lo.toNat = 0
  · rw [if_pos (hiff.mpr h), if_pos h, BitVec.toNat_add, BitVec.toNat_not, hone]
  · rw [if_neg fun h' => h (hiff.mp h'), if_neg h, BitVec.toNat_not]
    omega

/-- Every signed 64-bit integer becomes its number. -/
theorem cfCnvI64F_spec (lo32 hi32 : BitVec 32) :
    (cfCnvI64F lo32 hi32).Normal ∧ (cfCnvI64F lo32 hi32).val = (hi32 ++ lo32 : BitVec 64).toInt := by
  have hl := lo32.isLt
  have hh := hi32.isLt
  have hmsb : (hi32 ++ lo32 : BitVec 64).msb = hi32.msb := by
    rw [BitVec.msb_append]
    simp
  rw [BitVec.toInt_eq_msb_cond, hmsb]
  unfold cfCnvI64F
  by_cases hneg : hi32.msb = true
  · rw [if_pos hneg, if_pos hneg]
    dsimp only
    have hge := BitVec.msb_eq_true_iff_two_mul_ge.mp hneg
    obtain ⟨hnormal, hval⟩ := cfCnvU64F_spec (~~~lo32 + 1) (if ~~~lo32 + 1 = 0 then ~~~hi32 + 1 else ~~~hi32)
    -- The two's complement.
    have hcompl : 2 ^ 32 * ((2 ^ 32 - 1 - hi32.toNat + if lo32.toNat = 0 then 1 else 0) % 2 ^ 32) +
        (2 ^ 32 - lo32.toNat) % 2 ^ 32 = 2 ^ 64 - (2 ^ 32 * hi32.toNat + lo32.toNat) := by
      split_ifs <;> omega
    rw [toNat_halves, toNat_negLo, toNat_negHi, hcompl] at hval
    generalize cfCnvU64F (~~~lo32 + 1) (if ~~~lo32 + 1 = 0 then ~~~hi32 + 1 else ~~~hi32) = f at hnormal hval ⊢
    have hpos : 0 < f.val := by
      rw [hval]
      exact_mod_cast (by omega : 0 < 2 ^ 64 - (2 ^ 32 * hi32.toNat + lo32.toNat))
    have hnegate : ({ f with sign := -1 } : CFloat) = f.negate := by
      unfold CFloat.negate
      rw [hnormal.sign_of_pos hpos]
    rw [hnegate, CFloat.negate_val, hval, toNat_halves, Nat.cast_sub (by omega)]
    refine ⟨hnormal.negate, ?_⟩
    push_cast
    ring
  · rw [if_neg hneg, if_neg hneg]
    obtain ⟨hnormal, hval⟩ := cfCnvU64F_spec lo32 hi32
    exact ⟨hnormal, by rw [hval]; rfl⟩

/-! ### Ranges -/

def maxNegI8 : CFloat := ⟨3, -1, [1, 2, 8]⟩

def maxU8 : CFloat := ⟨3, 1, [2, 5, 5]⟩

def maxNegI16 : CFloat := ⟨5, -1, [3, 2, 7, 6, 8]⟩

def maxU16 : CFloat := ⟨5, 1, [6, 5, 5, 3, 5]⟩

def maxU32 : CFloat := ⟨10, 1, [4, 2, 9, 4, 9, 6, 7, 2, 9, 5]⟩

/-- The digits as the source has them: the number is larger than `2 ^ 63`. -/
def maxNegI64 : CFloat := ⟨19, -1, [9, 2, 2, 3, 3, 7, 2, 9, 3, 6, 8, 5, 4, 7, 7, 5, 8, 0, 7]⟩

def maxU64 : CFloat := ⟨20, 1, [1, 8, 4, 4, 6, 7, 4, 4, 0, 7, 3, 7, 0, 9, 5, 5, 1, 6, 1, 5]⟩

/-- `CFIsIntType`. -/
def cfIsIntType (f maxval : CFloat) : Bool :=
  if f.exp ≤ 0 ∨ maxval.exp < f.exp then false
  else if f.sign = -1 ∧ maxval.sign = 1 then false
  else if f.exp < f.len then false
  else
    let ord := cfOrder f maxval
    if 0 < ord then false
    else if ord = 0 ∧ f.sign = 1 ∧ maxval.sign = -1 then false
    else true

/-- The integers that a test accepts: those of an unsigned type up to its largest, or those of a signed type from its
smallest on. -/
def InRange (maxval : CFloat) (M : ℕ) (n : ℤ) : Prop :=
  if maxval.sign = 1 then 0 ≤ n ∧ n ≤ M else -M ≤ n ∧ n < M

instance (maxval : CFloat) (M : ℕ) (n : ℤ) : Decidable (InRange maxval M n) :=
  inferInstanceAs (Decidable (ite _ _ _))

/-- An integer has no digits behind the point. -/
theorem CFloat.Proper.len_le_of_int {f : CFloat} (h : f.Proper) {n : ℤ} (hn : f.val = n) : f.len ≤ f.exp := by
  have hmag : f.mag = n.natAbs := by
    rw [← h.abs_val, hn, Nat.cast_natAbs, Int.cast_abs]
  obtain ⟨k, hk, -⟩ := h.nat_mag hmag
  omega

theorem CFloat.Proper.int_of_len_le {f : CFloat} (hle : f.len ≤ f.exp) : ∃ n : ℕ, f.mag = n := by
  obtain ⟨k, hk⟩ := Int.le.dest hle
  refine ⟨decVal f.mant * 10 ^ k, ?_⟩
  unfold CFloat.mag
  rw [← hk, add_sub_cancel_left, zpow_natCast]
  push_cast
  rfl

theorem cfIsIntType_zero {maxval : CFloat} (hmax : maxval.Proper) (hexp : 0 < maxval.exp) :
    cfIsIntType cfAlloc maxval = true := by
  have hlow : cfOrder cfAlloc maxval ≤ 0 := by
    obtain ⟨d, t, hmant, hd⟩ := hmax.trimmed.head
    unfold cfOrder
    dsimp only
    split_ifs with heq
    · rw [hmant]
      unfold cfAlloc orderDigits
      rw [if_pos hd.symm]
      omega
    · unfold cfAlloc at heq ⊢
      dsimp only at heq ⊢
      omega
  unfold cfIsIntType
  rw [if_neg (by unfold cfAlloc; dsimp only; omega), if_neg fun h => absurd h.1 (by decide),
    if_neg (by decide)]
  dsimp only
  rw [if_neg (by omega), if_neg fun h => absurd h.2.1 (by decide)]

/-- A number with digits behind the point. -/
theorem cfIsIntType_fraction {f maxval : CFloat} (hpoint : f.exp < f.len) : ¬ cfIsIntType f maxval = true := by
  unfold cfIsIntType
  rw [if_pos hpoint]
  split_ifs <;> decide

/-- An integer `f`, of the size `n`. -/
theorem cfIsIntType_integer {f maxval : CFloat} (hf : f.Proper) (hmax : maxval.Proper) {M n : ℕ}
    (hM : maxval.mag = M) (hn : f.mag = n) (hpoint : ¬ f.exp < f.len) :
    cfIsIntType f maxval = true ↔ InRange maxval M (f.sign * n) := by
  have hMpos : 0 < M := by
    have hpos := hmax.mag_pos
    rw [hM] at hpos
    exact_mod_cast hpos
  have hnpos : 0 < n := by
    have hpos := hf.mag_pos
    rw [hn] at hpos
    exact_mod_cast hpos
  have hlen : 0 < f.len := by
    obtain ⟨d, t, hmant, -⟩ := hf.trimmed.head
    unfold CFloat.len
    rw [hmant, List.length_cons]
    omega
  obtain ⟨hless, hmore⟩ := cfOrder_spec hf.trimmed hmax.trimmed
  rw [hn, hM, Nat.cast_lt] at hless hmore
  have hbig : maxval.exp < f.exp → M < n := by
    intro hlt
    have hmag := mag_lt_of_exp_lt hmax.trimmed.digits hf.trimmed hlt
    rw [hn, hM] at hmag
    exact_mod_cast hmag
  unfold cfIsIntType InRange
  have hs' := hmax.sign
  have hsides : f.sign = 1 ∧ f.sign * n = n ∨ f.sign = -1 ∧ f.sign * n = -n := by
    obtain hs | hs := hf.sign
    · exact .inl ⟨hs, by rw [hs, one_mul]⟩
    · exact .inr ⟨hs, by rw [hs, neg_one_mul]⟩
  generalize f.sign * (n : ℤ) = x at hsides
  by_cases hlong : maxval.exp < f.exp
  · rw [if_pos (.inr hlong)]
    have hgt := hbig hlong
    refine iff_of_false (by decide) ?_
    split_ifs <;> omega
  · rw [if_neg (by omega)]
    by_cases hsigns : f.sign = -1 ∧ maxval.sign = 1
    · rw [if_pos hsigns]
      refine iff_of_false (by decide) ?_
      rw [if_pos hsigns.2]
      omega
    · rw [if_neg hsigns, if_neg hpoint]
      dsimp only
      obtain hlt | heq | hgt := lt_trichotomy n M
      · rw [if_neg (by omega), if_neg (by omega)]
        refine iff_of_true rfl ?_
        split_ifs <;> omega
      · rw [if_neg (by omega)]
        by_cases hequal : f.sign = 1 ∧ maxval.sign = -1
        · rw [if_pos ⟨by omega, hequal⟩]
          refine iff_of_false (by decide) ?_
          rw [if_neg (by omega)]
          omega
        · rw [if_neg fun h => hequal h.2]
          refine iff_of_true rfl ?_
          split_ifs <;> omega
      · rw [if_pos (by omega)]
        refine iff_of_false (by decide) ?_
        split_ifs <;> omega

/-- What `CFIsIntType` tests. -/
theorem cfIsIntType_iff {f maxval : CFloat} (hf : f.Normal) (hmax : maxval.Proper) {M : ℕ} (hM : maxval.mag = M)
    (hexp : 0 < maxval.exp) :
    cfIsIntType f maxval = true ↔ ∃ n : ℤ, f.val = n ∧ InRange maxval M n := by
  obtain rfl | hproper := hf
  · have hMpos : 0 < M := by
      have hpos := hmax.mag_pos
      rw [hM] at hpos
      exact_mod_cast hpos
    refine iff_of_true (cfIsIntType_zero hmax hexp) ⟨0, by rw [cfAlloc_val]; rfl, ?_⟩
    unfold InRange
    split_ifs <;> omega
  · by_cases hpoint : f.exp < f.len
    · refine iff_of_false (cfIsIntType_fraction hpoint) ?_
      rintro ⟨n, hn, -⟩
      exact absurd (hproper.len_le_of_int hn) (not_le.mpr hpoint)
    · obtain ⟨n, hn⟩ := CFloat.Proper.int_of_len_le (not_lt.mp hpoint)
      have hval : f.val = ((f.sign * n : ℤ) : ℚ) := by
        unfold CFloat.val
        rw [hn]
        push_cast
        rfl
      rw [cfIsIntType_integer hproper hmax hM hn hpoint]
      constructor
      · exact fun hrange => ⟨_, hval, hrange⟩
      · rintro ⟨m, hm, hrange⟩
        rw [hval] at hm
        rwa [Int.cast_inj.mp hm]

def cfIsI8 (f : CFloat) : Bool := cfIsIntType f maxNegI8

def cfIsI16 (f : CFloat) : Bool := cfIsIntType f maxNegI16

def cfIsI32 (f : CFloat) : Bool := cfIsIntType f maxNegI32

def cfIsI64 (f : CFloat) : Bool := cfIsIntType f maxNegI64

def cfIsU8 (f : CFloat) : Bool := cfIsIntType f maxU8

def cfIsU16 (f : CFloat) : Bool := cfIsIntType f maxU16

def cfIsU32 (f : CFloat) : Bool := cfIsIntType f maxU32

def cfIsU64 (f : CFloat) : Bool := cfIsIntType f maxU64

theorem CFloat.mag_of_exp {f : CFloat} (h : f.exp = f.len) : f.mag = decVal f.mant := by
  unfold CFloat.mag
  rw [h, sub_self, zpow_zero, mul_one]

/-- A test with one of the constants of the source, which have all their digits before the point. -/
theorem cfIsIntType_const {f maxval : CFloat} (hf : f.Normal) (hsign : maxval.sign = 1 ∨ maxval.sign = -1)
    (htrim : Trimmed maxval.mant) (hexp : maxval.exp = maxval.len) :
    cfIsIntType f maxval = true ↔ ∃ n : ℤ, f.val = n ∧ InRange maxval (decVal maxval.mant) n := by
  apply cfIsIntType_iff hf ⟨hsign, htrim⟩ (CFloat.mag_of_exp hexp)
  obtain ⟨d, t, hmant, -⟩ := htrim.head
  rw [hexp]
  unfold CFloat.len
  rw [hmant, List.length_cons]
  omega

theorem cfIsI32_iff {f : CFloat} (hf : f.Normal) :
    cfIsI32 f = true ↔ ∃ n : ℤ, f.val = n ∧ -2 ^ 31 ≤ n ∧ n < 2 ^ 31 :=
  cfIsIntType_const hf (.inr rfl) (by decide) rfl

theorem cfIsU32_iff {f : CFloat} (hf : f.Normal) :
    cfIsU32 f = true ↔ ∃ n : ℤ, f.val = n ∧ 0 ≤ n ∧ n ≤ 2 ^ 32 - 1 :=
  cfIsIntType_const hf (.inl rfl) (by decide) rfl

theorem cfIsI64_iff {f : CFloat} (hf : f.Normal) :
    cfIsI64 f = true ↔ ∃ n : ℤ, f.val = n ∧ -9223372936854775807 ≤ n ∧ n < 9223372936854775807 :=
  cfIsIntType_const hf (.inr rfl) (by decide) rfl

theorem cfIsU64_iff {f : CFloat} (hf : f.Normal) :
    cfIsU64 f = true ↔ ∃ n : ℤ, f.val = n ∧ 0 ≤ n ∧ n ≤ 2 ^ 64 - 1 :=
  cfIsIntType_const hf (.inl rfl) (by decide) rfl

/-! ### Arithmetic in halves -/

def lo32 (a : BitVec 64) : BitVec 32 := a.setWidth 32

def hi32 (a : BitVec 64) : BitVec 32 := (a >>> 32).setWidth 32

/-- `U64Add`. -/
def u64Add (a b : BitVec 64) : BitVec 64 :=
  let newValue := lo32 a + lo32 b
  (hi32 a + hi32 b + if newValue < lo32 a then 1 else 0) ++ newValue

/-- `U64Neg`. -/
def u64Neg (a : BitVec 64) : BitVec 64 :=
  let lo := ~~~lo32 a + 1
  (if lo = 0 then ~~~hi32 a + 1 else ~~~hi32 a) ++ lo

/-- The loop of `U64Mul`, which shifts one factor to the left and the other one to the right. -/
def u64MulLoop (res a b : BitVec 64) : BitVec 64 :=
  if b.toNat = 0 then res
  else u64MulLoop (if lo32 b &&& 1 ≠ 0 then u64Add res a else res) (a <<< 1) (b >>> 1)
termination_by b.toNat
decreasing_by
  rw [BitVec.toNat_ushiftRight, Nat.shiftRight_one]
  omega

/-- `U64Mul`. -/
def u64Mul (a b : BitVec 64) : BitVec 64 := u64MulLoop 0 a b

theorem toNat_eq_halves (a : BitVec 64) : a.toNat = 2 ^ 32 * (hi32 a).toNat + (lo32 a).toNat := by
  have hlt := a.isLt
  unfold hi32 lo32
  rw [BitVec.toNat_setWidth, BitVec.toNat_setWidth, BitVec.toNat_ushiftRight, Nat.shiftRight_eq_div_pow]
  omega

theorem u64Add_eq (a b : BitVec 64) : u64Add a b = a + b := by
  have ha := toNat_eq_halves a
  have hb := toNat_eq_halves b
  have hla := (lo32 a).isLt
  have hlb := (lo32 b).isLt
  have hone : (if lo32 a + lo32 b < lo32 a then (1 : BitVec 32) else 0).toNat =
      if 2 ^ 32 ≤ (lo32 a).toNat + (lo32 b).toNat then 1 else 0 := by
    have hiff : lo32 a + lo32 b < lo32 a ↔ 2 ^ 32 ≤ (lo32 a).toNat + (lo32 b).toNat := by
      rw [BitVec.lt_def, BitVec.toNat_add]
      omega
    by_cases h : 2 ^ 32 ≤ (lo32 a).toNat + (lo32 b).toNat
    · rw [if_pos (hiff.mpr h), if_pos h]
      rfl
    · rw [if_neg fun h' => h (hiff.mp h'), if_neg h]
      rfl
  apply BitVec.eq_of_toNat_eq
  unfold u64Add
  dsimp only
  rw [toNat_halves, BitVec.toNat_add, BitVec.toNat_add, BitVec.toNat_add, BitVec.toNat_add, hone, ha, hb]
  split_ifs <;> omega

theorem u64Neg_eq (a : BitVec 64) : u64Neg a = -a := by
  have ha := toNat_eq_halves a
  have hl := (lo32 a).isLt
  have hh := (hi32 a).isLt
  apply BitVec.eq_of_toNat_eq
  unfold u64Neg
  dsimp only
  rw [toNat_halves, toNat_negLo, toNat_negHi, BitVec.toNat_neg, ha]
  split_ifs <;> omega

theorem u64MulLoop_eq (res a b : BitVec 64) : u64MulLoop res a b = res + a * b := by
  induction hb : b.toNat using Nat.strong_induction_on generalizing res a b with
  | _ n ih =>
      unfold u64MulLoop
      have hlt := a.isLt
      by_cases h0 : b.toNat = 0
      · rw [if_pos h0, BitVec.eq_of_toNat_eq (h0.trans rfl : b.toNat = (0#64).toNat), BitVec.mul_zero,
          BitVec.add_zero]
      · have hhalf : (b >>> 1).toNat = b.toNat / 2 := by rw [BitVec.toNat_ushiftRight, Nat.shiftRight_one]
        have hbit : (lo32 b &&& 1).toNat = b.toNat % 2 := by
          unfold lo32
          rw [BitVec.toNat_and, BitVec.toNat_setWidth]
          change b.toNat % 2 ^ 32 &&& 1 = _
          rw [Nat.and_one_is_mod]
          omega
        rw [if_neg h0, ih _ (by omega) _ _ _ rfl]
        apply BitVec.eq_of_toNat_eq
        -- Twice the one factor and half the other, and the bit that falls out.
        have hprod : a.toNat * 2 * (b.toNat / 2) + a.toNat * (b.toNat % 2) = a.toNat * b.toNat := by
          have hdiv := Nat.div_add_mod b.toNat 2
          calc a.toNat * 2 * (b.toNat / 2) + a.toNat * (b.toNat % 2)
              = a.toNat * (2 * (b.toNat / 2) + b.toNat % 2) := by ring
            _ = a.toNat * b.toNat := by rw [hdiv]
        have hshift : (a <<< 1).toNat = a.toNat * 2 % 2 ^ 64 := by
          rw [BitVec.toNat_shiftLeft, Nat.shiftLeft_eq, pow_one]
        rw [BitVec.toNat_add, BitVec.toNat_add, BitVec.toNat_mul, BitVec.toNat_mul, hhalf, hshift, ← hprod]
        obtain hodd | heven := Nat.mod_two_eq_zero_or_one b.toNat |>.symm
        · have hne : lo32 b &&& 1 ≠ 0 := by
            intro h
            rw [h, hodd] at hbit
            exact absurd hbit (by decide)
          rw [if_pos hne, u64Add_eq, BitVec.toNat_add, hodd, Nat.mul_one, Nat.mod_mul_mod, Nat.add_mod_mod,
            Nat.mod_add_mod, Nat.add_mod_mod]
          congr 1
          omega
        · have heq : lo32 b &&& 1 = 0 := BitVec.eq_of_toNat_eq (by rw [hbit, heven]; rfl)
          rw [if_neg (not_not.mpr heq), heven, Nat.mul_zero, Nat.add_zero, Nat.mod_mul_mod]

theorem u64Mul_eq (a b : BitVec 64) : u64Mul a b = a * b := by
  unfold u64Mul
  rw [u64MulLoop_eq]
  exact BitVec.zero_add _

/-! ### Numbers to integers -/

/-- The arithmetic of a conversion: that of C for 16 and 32 bits, and that in halves for 64. -/
structure IntOps (w : ℕ) where
  add : BitVec w → BitVec w → BitVec w
  mul : BitVec w → BitVec w → BitVec w
  div : BitVec w → BitVec w → BitVec w
  neg : BitVec w → BitVec w

/-- Arithmetic modulo the power of two. -/
structure IntOps.Lawful {w : ℕ} (ops : IntOps w) : Prop where
  add : ∀ a b, ops.add a b = a + b
  mul : ∀ a b, ops.mul a b = a * b
  neg : ∀ a, ops.neg a = -a

def cOps (w : ℕ) : IntOps w := ⟨(· + ·), (· * ·), BitVec.sdiv, (-·)⟩

def u64Ops : IntOps 64 := ⟨u64Add, u64Mul, BitVec.udiv, u64Neg⟩

theorem cOps_lawful (w : ℕ) : (cOps w).Lawful := ⟨fun _ _ => rfl, fun _ _ => rfl, fun _ => rfl⟩

theorem u64Ops_lawful : u64Ops.Lawful := ⟨u64Add_eq, u64Mul_eq, u64Neg_eq⟩

/-- `CFGetDec16`, `CFGetDec32` and `CFGetDec64`, each with its arithmetic. -/
def cfGetDec {w : ℕ} (ops : IntOps w) (str : List ℕ) : BitVec w :=
  str.foldl (fun number d => ops.add (ops.mul number 10) (BitVec.ofNat w d)) 0

/-- What `CFCnvF16`, `CFCnvF32` and `CFCnvF64` do, each with its arithmetic and the test that it makes. -/
def cfCnvF {w : ℕ} (ops : IntOps w) (isInt : CFloat → Bool) (f : CFloat) : BitVec w :=
  if isInt f then
    let data := (ops.mul · 10)^[(f.exp - f.len).toNat] (cfGetDec ops f.mant)
    let data := (ops.div · 10)^[(f.len - f.exp).toNat] data
    if f.sign = -1 then ops.neg data else data
  else 0

def cfCnvF16 (f : CFloat) : BitVec 16 := cfCnvF (cOps 16) (fun f => cfIsI16 f || cfIsU16 f) f

def cfCnvF32 (f : CFloat) : BitVec 32 := cfCnvF (cOps 32) (fun f => cfIsU32 f || cfIsI32 f) f

def cfCnvF64 (f : CFloat) : BitVec 64 := cfCnvF u64Ops (fun f => cfIsI64 f || cfIsU64 f) f

theorem cfGetDec_eq {w : ℕ} {ops : IntOps w} (hops : ops.Lawful) (str : List ℕ) :
    cfGetDec ops str = BitVec.ofNat w (decVal str) := by
  have hfold : ∀ (l : List ℕ) (a : ℕ),
      l.foldl (fun number d => ops.add (ops.mul number 10) (BitVec.ofNat w d)) (BitVec.ofNat w a) =
        BitVec.ofNat w (a * 10 ^ l.length + decVal l) := by
    intro l
    induction l with
    | nil => simp
    | cons d l ih =>
        intro a
        have hstep : ops.add (ops.mul (BitVec.ofNat w a) 10) (BitVec.ofNat w d) = BitVec.ofNat w (a * 10 + d) := by
          rw [hops.add, hops.mul, BitVec.ofNat_add, BitVec.ofNat_mul]
          rfl
        rw [List.foldl_cons, hstep, ih, decVal_cons, List.length_cons, pow_succ]
        congr 1
        ring
  have h0 := hfold str 0
  rwa [Nat.zero_mul, Nat.zero_add] at h0

theorem iterate_mul_ten {w : ℕ} {ops : IntOps w} (hops : ops.Lawful) (k x : ℕ) :
    (ops.mul · 10)^[k] (BitVec.ofNat w x) = BitVec.ofNat w (x * 10 ^ k) := by
  induction k generalizing x with
  | zero => simp
  | succ k ih =>
      have hstep : ops.mul (BitVec.ofNat w x) 10 = BitVec.ofNat w (x * 10) := by
        rw [hops.mul, BitVec.ofNat_mul]
        rfl
      rw [Function.iterate_succ_apply, hstep, ih, pow_succ]
      congr 1
      ring

/-- An integer that passes the test is converted to its bits. -/
theorem cfCnvF_spec {w : ℕ} {ops : IntOps w} (hops : ops.Lawful) {isInt : CFloat → Bool} {f : CFloat}
    (hf : f.Normal) (hint : isInt f = true) {n : ℤ} (hn : f.val = n) :
    cfCnvF ops isInt f = BitVec.ofInt w n := by
  unfold cfCnvF
  rw [if_pos hint, cfGetDec_eq hops, iterate_mul_ten hops]
  dsimp only
  rw [hops.neg]
  obtain rfl | hproper := hf
  · rw [cfAlloc_val] at hn
    obtain rfl : n = 0 := by exact_mod_cast hn.symm
    rw [if_neg (by decide)]
    rfl
  · have hle := hproper.len_le_of_int hn
    obtain ⟨k, hk⟩ := Int.le.dest hle
    have hmag : f.mag = ((decVal f.mant * 10 ^ k : ℕ) : ℚ) := by
      unfold CFloat.mag
      rw [← hk, add_sub_cancel_left, zpow_natCast]
      push_cast
      rfl
    have hval : n = f.sign * (decVal f.mant * 10 ^ k : ℕ) := by
      have hq : (n : ℚ) = f.sign * ((decVal f.mant * 10 ^ k : ℕ) : ℚ) := by
        rw [← hn, ← hmag]
        rfl
      exact_mod_cast hq
    have hnone : (f.len - f.exp).toNat = 0 := by omega
    have hzeros : (f.exp - f.len).toNat = k := by omega
    rw [hnone, hzeros, Function.iterate_zero_apply, hval]
    obtain hs | hs := hproper.sign
    · rw [if_neg (by omega), hs, one_mul, BitVec.ofInt_natCast]
    · rw [if_pos hs, hs, neg_one_mul, BitVec.ofInt_neg, BitVec.ofInt_natCast]

/-- There and back again, for 32 bits. -/
theorem cfCnvF32_cfCnvLongToF (data : BitVec 32) (isSigned : Bool) :
    cfCnvF32 (cfCnvLongToF data isSigned) = data := by
  obtain ⟨hnormal, hval⟩ := cfCnvLongToF_spec data isSigned
  have hlt := data.isLt
  have hint : (cfIsU32 (cfCnvLongToF data isSigned) || cfIsI32 (cfCnvLongToF data isSigned)) = true := by
    rw [Bool.or_eq_true, cfIsU32_iff hnormal, cfIsI32_iff hnormal]
    cases isSigned with
    | false => exact .inl ⟨data.toNat, hval, by omega, by omega⟩
    | true => exact .inr ⟨data.toInt, hval, BitVec.le_toInt data, BitVec.toInt_lt⟩
  unfold cfCnvF32
  rw [cfCnvF_spec (cOps_lawful 32) hnormal hint hval]
  cases isSigned with
  | false => exact (BitVec.ofInt_natCast ..).trans (BitVec.ofNat_toNat ..)
  | true => exact BitVec.ofInt_toInt

/-- There and back again, for unsigned 64 bits. -/
theorem cfCnvF64_cfCnvU64F (lo32 hi32 : BitVec 32) : cfCnvF64 (cfCnvU64F lo32 hi32) = hi32 ++ lo32 := by
  obtain ⟨hnormal, hval⟩ := cfCnvU64F_spec lo32 hi32
  have hlt := (hi32 ++ lo32 : BitVec 64).isLt
  have hval' : (cfCnvU64F lo32 hi32).val = (((hi32 ++ lo32 : BitVec 64).toNat : ℤ) : ℚ) := by
    rw [hval]
    rfl
  have hint : (cfIsI64 (cfCnvU64F lo32 hi32) || cfIsU64 (cfCnvU64F lo32 hi32)) = true := by
    rw [Bool.or_eq_true, cfIsU64_iff hnormal]
    exact .inr ⟨_, hval', by omega, by omega⟩
  unfold cfCnvF64
  rw [cfCnvF_spec u64Ops_lawful hnormal hint hval']
  exact (BitVec.ofInt_natCast ..).trans (BitVec.ofNat_toNat ..)

/-- There and back again, for signed 64 bits. -/
theorem cfCnvF64_cfCnvI64F (lo32 hi32 : BitVec 32) : cfCnvF64 (cfCnvI64F lo32 hi32) = hi32 ++ lo32 := by
  obtain ⟨hnormal, hval⟩ := cfCnvI64F_spec lo32 hi32
  have hint : (cfIsI64 (cfCnvI64F lo32 hi32) || cfIsU64 (cfCnvI64F lo32 hi32)) = true := by
    rw [Bool.or_eq_true, cfIsI64_iff hnormal]
    have hlow := BitVec.le_toInt (hi32 ++ lo32 : BitVec 64)
    have hhigh := BitVec.toInt_lt (x := (hi32 ++ lo32 : BitVec 64))
    exact .inl ⟨_, hval, by omega, by omega⟩
  unfold cfCnvF64
  rw [cfCnvF_spec u64Ops_lawful hnormal hint hval]
  exact BitVec.ofInt_toInt

end OpenWatcom.Cfloat
