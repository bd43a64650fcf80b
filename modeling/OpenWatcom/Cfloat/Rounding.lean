import OpenWatcom.Cfloat.Integers

/-! # Texts, truncation and rounding of decimal constants

`CFTrunc` cuts digits without `CFClean`, and `CFClean` cuts a number behind its 32nd digit when it has looked for zeros
at the end.  The results say when a number in normal form comes out: `cfTrunc_normal_iff`, `cfRound_normal_iff` and
`cfCnvSF_normal_iff`. -/

namespace OpenWatcom.Cfloat

open OpenWatcom

/-! ### The functions -/

/-- `CFTrunc`. -/
def cfTrunc (f : CFloat) : CFloat :=
  if f.exp ≤ 0 then cfAlloc
  else if f.len ≤ f.exp then f
  else { f with mant := f.mant.take f.exp.toNat }

/-- `CFRound`. -/
def cfRound (f : CFloat) : CFloat :=
  if f.exp < 0 then cfAlloc
  else if f.len ≤ f.exp then f
  else
    let trim := cfTrunc f
    if f.access f.exp < 5 then trim
    else if f.sign < 0 ∧ f.len = f.exp + 1 then trim
    else cfAdd trim ⟨1, f.sign, [1]⟩

def digitOf (c : Char) : ℕ := c.toNat - '0'.toNat

/-- The text behind the blanks and the sign, and the sign. -/
def scanSign (str : List Char) : Int × List Char :=
  match str.dropWhile (· = ' ') with
  | '-' :: rest => (-1, rest)
  | '+' :: rest => (1, rest)
  | rest => (1, rest)

/-- The digits before and behind the decimal point, and the text behind them. -/
def scanMant (str : List Char) : List Char × List Char × List Char :=
  let before := str.takeWhile Char.isDigit
  match str.dropWhile Char.isDigit with
  | '.' :: rest => (before, rest.takeWhile Char.isDigit, rest.dropWhile Char.isDigit)
  | rest => (before, [], rest)

/-- `CFGetDec16` of the digits at the front of a text. -/
def scanDec16 (str : List Char) : Int := (cfGetDec (cOps 16) ((str.takeWhile Char.isDigit).map digitOf)).toInt

/-- What the exponent of a text adds. -/
def scanExp (str : List Char) : Int :=
  match str with
  | 'E' :: rest | 'e' :: rest =>
    match rest with
    | '-' :: digits => -scanDec16 digits
    | '+' :: digits => scanDec16 digits
    | digits => scanDec16 digits
  | _ => 0

/-- The digits of the mantissa of a text. -/
def mantDigits (str : List Char) : List ℕ :=
  let parts := scanMant (scanSign str).2
  (parts.1 ++ parts.2.1).map digitOf

/-- `CFCnvSF`, which `DoConvert` does. -/
def cfCnvSF (str : List Char) : CFloat :=
  if mantDigits str = [] then cfAlloc
  else
    let parts := scanMant (scanSign str).2
    cfClean ⟨parts.1.length + scanExp parts.2.2, (scanSign str).1, mantDigits str⟩

/-! ### Truncation and rounding -/

/-- The integer in front of the point, where there are digits behind it. -/
theorem trunc_rough {f : CFloat} (h : f.Proper) (hpos : 0 < f.exp) (hlong : f.exp < f.len) :
    CFloat.Rough { f with mant := f.mant.take f.exp.toNat } ∧
      CFloat.mag { f with mant := f.mant.take f.exp.toNat } = decVal (f.mant.take f.exp.toNat) := by
  obtain ⟨d, t, hmant, hd⟩ := h.trimmed.head
  obtain ⟨k, hk⟩ : ∃ k : ℕ, f.exp.toNat = k + 1 := ⟨f.exp.toNat - 1, by omega⟩
  refine ⟨⟨h.sign, h.trimmed.digits.of_subset (List.take_subset _ _), ?_⟩, ?_⟩
  · dsimp only
    rw [hk, hmant, List.take_succ_cons]
    have hlow := le_decVal (l := t.take k) hd
    have hten : 0 < 10 ^ (t.take k).length := Nat.pow_pos (by decide)
    omega
  · apply CFloat.mag_of_exp
    unfold CFloat.len at *
    dsimp only
    rw [List.length_take]
    omega

/-- When `CFTrunc` returns a number in normal form. -/
theorem cfTrunc_normal_iff {f : CFloat} (h : f.Normal) :
    (cfTrunc f).Normal ↔ f.exp ≤ 0 ∨ f.len ≤ f.exp ∨ f.access (f.exp - 1) ≠ 0 := by
  unfold cfTrunc
  by_cases hexp : f.exp ≤ 0
  · rw [if_pos hexp]
    exact iff_of_true .zero (.inl hexp)
  · rw [if_neg hexp]
    by_cases hlen : f.len ≤ f.exp
    · rw [if_pos hlen]
      exact iff_of_true h (.inr (.inl hlen))
    · rw [if_neg hlen]
      obtain rfl | hproper := h
      · exact absurd (by decide) hlen
      · rw [normal_iff_of_sign (f := { f with mant := f.mant.take f.exp.toNat }) hproper.sign]
        dsimp only
        rw [hproper.trimmed.take_iff (by omega : 0 < f.exp.toNat)]
        have hindex : (f.exp - 1).toNat = f.exp.toNat - 1 := by omega
        have hshort : ¬ f.mant.length ≤ f.exp.toNat := by
          unfold CFloat.len at hlen
          omega
        unfold CFloat.access
        rw [hindex]
        exact ⟨fun hcase => .inr (.inr (hcase.resolve_left hshort)),
          fun hcase => .inr ((hcase.resolve_left hexp).resolve_left hlen)⟩

/-- `CFRound` adds one to the digits before the point. -/
def RoundsUp (f : CFloat) : Prop := 5 ≤ f.access f.exp ∧ ¬ (f.sign < 0 ∧ f.len = f.exp + 1)

instance (f : CFloat) : Decidable (RoundsUp f) := inferInstanceAs (Decidable (_ ∧ _))

theorem KeepsForm.congr {x y : ℚ} (h : |x| = |y|) : KeepsForm x ↔ KeepsForm y := by
  unfold KeepsForm
  rw [h]

/-- When `CFRound` returns a number in normal form. -/
theorem cfRound_normal_iff {f : CFloat} (h : f.Normal) :
    (cfRound f).Normal ↔ f.exp ≤ 0 ∨ f.len ≤ f.exp ∨
      if RoundsUp f then KeepsForm (decVal (f.mant.take f.exp.toNat) + 1) else f.access (f.exp - 1) ≠ 0 := by
  unfold cfRound
  by_cases hneg : f.exp < 0
  · rw [if_pos hneg]
    exact iff_of_true .zero (.inl hneg.le)
  · rw [if_neg hneg]
    by_cases hlen : f.len ≤ f.exp
    · rw [if_pos hlen]
      exact iff_of_true h (.inr (.inl hlen))
    · rw [if_neg hlen]
      dsimp only
      obtain rfl | hproper := h
      · exact absurd (by decide) hlen
      · have htrunc := cfTrunc_normal_iff (.inr hproper)
        by_cases hup : RoundsUp f
        · rw [if_neg (not_lt.mpr hup.1), if_neg hup.2, if_pos hup]
          have hone : CFloat.Proper ⟨1, f.sign, [1]⟩ := ⟨hproper.sign, (by decide : Trimmed [1])⟩
          by_cases hzero : f.exp ≤ 0
          · have htrim : cfTrunc f = cfAlloc := by
              unfold cfTrunc
              rw [if_pos hzero]
            rw [htrim, hone.rough.cfAdd_zero.2]
            exact iff_of_true (.inr hone) (.inl hzero)
          · obtain ⟨hrough, hmag⟩ := trunc_rough hproper (not_le.mp hzero) (not_le.mp hlen)
            have htrim : cfTrunc f = { f with mant := f.mant.take f.exp.toNat } := by
              unfold cfTrunc
              rw [if_neg hzero, if_neg hlen]
            rw [htrim]
            obtain ⟨raw, hraw, hadd, hval, -⟩ := cfAdd_same hrough hone.rough rfl
            have habs : |raw.val| = |(decVal (f.mant.take f.exp.toNat) : ℚ) + 1| := by
              have hunit : CFloat.mag ⟨1, f.sign, [1]⟩ = 1 := by
                norm_num [CFloat.mag, CFloat.len, decVal, Nat.ofDigits]
              rw [hval]
              unfold CFloat.val
              dsimp only
              rw [hmag, hunit, ← mul_add, abs_mul]
              obtain hs | hs := hproper.sign <;> simp [hs]
            rw [hadd, cfClean_normal_iff hraw, KeepsForm.congr habs]
            exact ⟨fun hk => .inr (.inr hk), fun hcase => (hcase.resolve_left hzero).resolve_left hlen⟩
        · rw [if_neg hup, ← htrunc]
          by_cases hlow : f.access f.exp < 5
          · rw [if_pos hlow]
          · rw [if_neg hlow]
            have hlast : f.sign < 0 ∧ f.len = f.exp + 1 := by
              by_contra hnot
              exact hup ⟨not_lt.mp hlow, hnot⟩
            rw [if_pos hlast]

/-! ### Texts -/

theorem digits_takeWhile (str : List Char) : Digits ((str.takeWhile Char.isDigit).map digitOf) := by
  intro d hd
  obtain ⟨c, hc, rfl⟩ := List.mem_map.mp hd
  have hdigit := List.mem_takeWhile_imp hc
  unfold Char.isDigit at hdigit
  unfold digitOf
  rw [Bool.and_eq_true, decide_eq_true_eq, decide_eq_true_eq] at hdigit
  have hhigh : c.toNat ≤ 57 := hdigit.2
  have hzero : '0'.toNat = 48 := rfl
  omega

theorem digits_mantDigits (str : List Char) : Digits (mantDigits str) := by
  unfold mantDigits scanMant
  dsimp only
  split
  · rw [List.map_append]
    intro d hd
    obtain hd | hd := List.mem_append.mp hd
    · exact digits_takeWhile _ d hd
    · exact digits_takeWhile _ d hd
  · rw [List.append_nil]
    exact digits_takeWhile _

theorem scanSign_sign (str : List Char) : (scanSign str).1 = 1 ∨ (scanSign str).1 = -1 := by
  unfold scanSign
  split
  · exact .inr rfl
  · exact .inl rfl
  · exact .inl rfl

/-- When `CFCnvSF` returns a number in normal form. -/
theorem cfCnvSF_normal_iff (str : List Char) :
    (cfCnvSF str).Normal ↔ decVal (mantDigits str) = 0 ∨ KeepsForm (decVal (mantDigits str)) := by
  unfold cfCnvSF
  by_cases hnil : mantDigits str = []
  · rw [if_pos hnil, hnil]
    exact iff_of_true .zero (.inl rfl)
  · rw [if_neg hnil]
    dsimp only
    have hdigits := digits_mantDigits str
    have hsign := scanSign_sign str
    generalize (scanSign str).1 = s at hsign
    generalize ((scanMant (scanSign str).2).1.length + scanExp (scanMant (scanSign str).2).2.2 : ℤ) = e
    generalize mantDigits str = mant at hnil hdigits
    by_cases h0 : decVal mant = 0
    · rw [cfClean_zero hnil h0]
      exact iff_of_true .zero (.inl h0)
    · have hraw : CFloat.Rough ⟨e, s, mant⟩ := ⟨hsign, hdigits, h0⟩
      rw [cfClean_normal_iff hraw]
      have hval : |CFloat.val ⟨e, s, mant⟩| = |(decVal mant : ℚ) * (10 : ℚ) ^ (e - mant.length)| := by
        rw [hraw.abs_val, ← abs_of_nonneg (CFloat.mag_nonneg _)]
        rfl
      rw [KeepsForm.congr hval, keepsForm_mul_zpow]
      exact ⟨.inr, fun hcase => hcase.resolve_left h0⟩

end OpenWatcom.Cfloat
