import OpenWatcom.Cfloat.Rounding

/-! # Rounding to the nearest integer

`CFRound` cuts the digits behind the point and adds one if the first of them is five or more.  A negative number with
one digit behind the point is only cut, whatever the digit is, and a sum of more than 32 digits is cut by `CFClean`
(`cfRound_nearest_iff`). -/

namespace OpenWatcom.Cfloat

open OpenWatcom

/-! ### The digits before and behind the point -/

/-- The number that the digits before the point make. -/
def CFloat.intPart (f : CFloat) : ℕ := decVal (f.mant.take f.exp.toNat)

/-- The digits behind the point are a five. -/
def CFloat.IsHalf (f : CFloat) : Prop := f.access f.exp = 5 ∧ f.len = f.exp + 1

instance (f : CFloat) : Decidable f.IsHalf := inferInstanceAs (Decidable (_ ∧ _))

/-- `r` is an integer that `f` is a half away from at most. -/
def Nearest (f r : CFloat) : Prop := ∃ n : ℤ, r.val = n ∧ |f.val - n| ≤ 1 / 2

/-- A number is not cut where it must be raised, and what is raised fits 32 digits; if it does not, the number is
halfway and the cut gives the integer below. -/
def RoundsRight (f : CFloat) : Prop :=
  0 ≤ f.exp → f.exp < f.len → 5 ≤ f.access f.exp →
    if f.sign < 0 ∧ f.len = f.exp + 1 then f.access f.exp = 5
    else cutNat (f.intPart + 1) = f.intPart + 1 ∨ f.IsHalf ∧ cutNat (f.intPart + 1) = f.intPart

/-- What the first digit of a fraction says about a half. -/
theorem half_of_digits {d : ℕ} {t : List ℕ} (h : Digits (d :: t)) (hlast : ∀ ht : t ≠ [], t.getLast ht ≠ 0) :
    (d < 5 ↔ 2 * decVal (d :: t) < 10 ^ (d :: t).length) ∧
      (2 * decVal (d :: t) = 10 ^ (d :: t).length ↔ d = 5 ∧ t = []) := by
  have hlt := decVal_lt h.tail
  have hpos : 0 < 10 ^ t.length := Nat.pow_pos (by decide)
  have hzero : decVal t = 0 ↔ t = [] := by
    constructor
    · intro h0
      by_contra hne
      exact not_ten_dvd_decVal h.tail hne (hlast hne) (h0 ▸ Nat.dvd_zero 10)
    · rintro rfl
      rfl
  rw [← hzero, decVal_cons, List.length_cons, pow_succ]
  have hmul : ∀ {a b : ℕ}, a ≤ b → a * 10 ^ t.length ≤ b * 10 ^ t.length := Nat.mul_le_mul_right _
  constructor
  · constructor
    · intro hd
      have := hmul (show d ≤ 4 by omega)
      omega
    · intro hd
      by_contra hge
      have := hmul (show 5 ≤ d by omega)
      omega
  · constructor
    · intro heq
      obtain hd | rfl | hd := lt_trichotomy d 5
      · have := hmul (show d ≤ 4 by omega)
        omega
      · exact ⟨rfl, by omega⟩
      · have := hmul (show 6 ≤ d by omega)
        omega
    · rintro ⟨rfl, h0⟩
      omega

/-- A number with digits behind the point is an integer and a fraction, which the digits compare with a half. -/
theorem CFloat.Proper.fraction {f : CFloat} (h : f.Proper) (hexp : 0 ≤ f.exp) (hlong : f.exp < f.len) :
    ∃ x : ℚ, f.mag = f.intPart + x ∧ (f.access f.exp < 5 ↔ x < 1 / 2) ∧ (f.IsHalf ↔ x = 1 / 2) ∧ 0 < x ∧ x < 1 := by
  unfold CFloat.IsHalf CFloat.intPart
  unfold CFloat.len at *
  obtain ⟨k, hk⟩ := Int.eq_ofNat_of_zero_le hexp
  have hlt : k < f.mant.length := by omega
  have hdrop : f.mant.drop k = f.mant[k] :: f.mant.drop (k + 1) := List.drop_eq_getElem_cons hlt
  have hdigits : Digits (f.mant[k] :: f.mant.drop (k + 1)) :=
    hdrop ▸ h.trimmed.digits.of_subset (List.drop_subset _ _)
  have hlast : ∀ ht : f.mant.drop (k + 1) ≠ [], (f.mant.drop (k + 1)).getLast ht ≠ 0 := by
    intro ht
    rw [List.getLast_drop]
    exact h.trimmed.last _
  obtain ⟨hlow, heq⟩ := half_of_digits hdigits hlast
  have hvallt := decVal_lt hdigits
  have hvalpos : 0 < decVal (f.mant[k] :: f.mant.drop (k + 1)) := by
    rw [← hdrop]
    refine Nat.pos_of_ne_zero fun h0 => ?_
    have hne : f.mant.drop k ≠ [] := by
      rw [hdrop]
      exact List.cons_ne_nil _ _
    refine not_ten_dvd_decVal (h.trimmed.digits.of_subset (List.drop_subset _ _)) hne ?_ (h0 ▸ Nat.dvd_zero 10)
    rw [List.getLast_drop]
    exact h.trimmed.last _
  have hacc : f.access f.exp = f.mant[k] := by
    unfold CFloat.access
    rw [hk, Int.toNat_natCast, List.getD_eq_getElem _ _ hlt]
  have hnil : f.mant.drop (k + 1) = [] ↔ (f.mant.length : ℤ) = k + 1 := by
    rw [List.drop_eq_nil_iff]
    omega
  have hsplit := decVal_append (f.mant.take k) (f.mant.drop k)
  rw [List.take_append_drop, hdrop] at hsplit
  have hlen : (f.mant[k] :: f.mant.drop (k + 1)).length = f.mant.length - k := by
    rw [← hdrop, List.length_drop]
  rw [hacc, hk, Int.toNat_natCast, hlow, ← hnil, ← heq]
  generalize decVal (f.mant[k] :: f.mant.drop (k + 1)) = v at *
  generalize hP : 10 ^ (f.mant[k] :: f.mant.drop (k + 1)).length = P at *
  have hPpos : (0 : ℚ) < P := by
    rw [← hP]
    push_cast
    positivity
  refine ⟨v / P, ?_, ?_, ?_, div_pos (by exact_mod_cast hvalpos) hPpos, ?_⟩
  · unfold CFloat.mag CFloat.len
    have hpow : (10 : ℚ) ^ (f.exp - f.mant.length) = (P : ℚ)⁻¹ := by
      rw [← hP, hlen, hk, Nat.cast_pow, Nat.cast_ofNat, ← zpow_natCast, ← zpow_neg]
      congr 1
      omega
    rw [hpow, hsplit]
    push_cast
    field_simp
  · exact (div_lt_half_iff (Nat.cast_pos.mp hPpos)).symm
  · exact (div_eq_half_iff (Nat.cast_pos.mp hPpos)).symm
  · rw [div_lt_one hPpos]
    exact_mod_cast hvallt

/-! ### What is returned -/

/-- What `CFTrunc` leaves is the integer before the point. -/
theorem cfTrunc_val {f : CFloat} (h : f.Proper) (hexp : 0 ≤ f.exp) (hlong : f.exp < f.len) :
    (cfTrunc f).val = f.sign * f.intPart := by
  unfold cfTrunc CFloat.intPart
  by_cases hzero : f.exp ≤ 0
  · have h0 : f.exp.toNat = 0 := by omega
    rw [if_pos hzero, cfAlloc_val, h0, List.take_zero, decVal_nil]
    simp
  · rw [if_neg hzero, if_neg (not_le.mpr hlong)]
    unfold CFloat.val
    rw [(trunc_rough h (not_le.mp hzero) hlong).2]

theorem cutNat_one : cutNat 1 = 1 := by
  unfold cutNat
  norm_num [cfMaxPrec, decVal, Nat.ofDigits]

/-- One more than the integer before the point, cut to 32 digits. -/
theorem cfAdd_one_val {f : CFloat} (h : f.Proper) (hexp : 0 ≤ f.exp) (hlong : f.exp < f.len) :
    (cfAdd (cfTrunc f) ⟨1, f.sign, [1]⟩).val = f.sign * cutNat (f.intPart + 1) := by
  have hone : CFloat.Proper ⟨1, f.sign, [1]⟩ := ⟨h.sign, (by decide : Trimmed [1])⟩
  have hunit : CFloat.mag ⟨1, f.sign, [1]⟩ = 1 := by norm_num [CFloat.mag, CFloat.len, decVal, Nat.ofDigits]
  by_cases hzero : f.exp ≤ 0
  · have htrim : cfTrunc f = cfAlloc := by
      unfold cfTrunc
      rw [if_pos hzero]
    have h0 : f.exp.toNat = 0 := by omega
    rw [htrim, hone.rough.cfAdd_zero.2]
    unfold CFloat.val CFloat.intPart
    rw [hunit, h0, List.take_zero, decVal_nil, cutNat_one]
    simp
  · obtain ⟨hrough, hmag⟩ := trunc_rough h (not_le.mp hzero) hlong
    have htrim : cfTrunc f = { f with mant := f.mant.take f.exp.toNat } := by
      unfold cfTrunc
      rw [if_neg hzero, if_neg (not_le.mpr hlong)]
    rw [htrim]
    obtain ⟨raw, hraw, hadd, hval, hsign⟩ := cfAdd_same hrough hone.rough rfl
    have hrawmag : raw.mag = ((f.intPart + 1 : ℕ) : ℚ) * (10 : ℚ) ^ (0 : ℤ) := by
      have habs := hraw.abs_val
      have hnonneg : (0 : ℚ) ≤ decVal (f.mant.take f.exp.toNat) + 1 := by positivity
      rw [hval] at habs
      unfold CFloat.val at habs
      dsimp only at habs
      rw [hmag, hunit, ← mul_add, abs_mul, abs_of_nonneg hnonneg] at habs
      unfold CFloat.intPart
      rw [← habs]
      obtain hs | hs := h.sign <;> simp [hs]
    have hclean := cfClean_mag hraw hrawmag
    rw [zpow_zero, mul_one] at hclean
    rw [hadd]
    unfold CFloat.val
    rw [hclean, hraw.cleaned.sign, hsign]

theorem cutNat_le {n : ℕ} : cutNat n ≤ n := by
  unfold cutNat
  have hsplit := decVal_append ((Nat.digits 10 n).reverse.take cfMaxPrec) ((Nat.digits 10 n).reverse.drop cfMaxPrec)
  rw [List.take_append_drop, List.length_drop, List.length_reverse] at hsplit
  have hval : decVal (Nat.digits 10 n).reverse = n := by
    unfold decVal
    rw [List.reverse_reverse, Nat.ofDigits_digits]
  omega

/-- The distance of a number from an integer on the same side. -/
theorem abs_sub_of_sign {s : ℤ} (hs : s = 1 ∨ s = -1) (x : ℚ) (n : ℕ) :
    |(s : ℚ) * x - ((s * n : ℤ) : ℚ)| = |x - n| := by
  obtain rfl | rfl := hs
  · simp
  · rw [← abs_neg]
    congr 1
    push_cast
    ring

theorem nearest_of_val {f r : CFloat} {n : ℕ} (hs : f.sign = 1 ∨ f.sign = -1) (hval : r.val = f.sign * n) :
    Nearest f r ↔ |f.mag - n| ≤ 1 / 2 := by
  have hcast : r.val = ((f.sign * n : ℤ) : ℚ) := by
    rw [hval]
    push_cast
    rfl
  rw [← abs_sub_of_sign hs]
  constructor
  · rintro ⟨m, hm, hle⟩
    rwa [← Int.cast_injective (hcast.symm.trans hm)] at hle
  · exact fun hle => ⟨_, hcast, hle⟩

theorem abs_fraction {m : ℕ} {x : ℚ} (hx : 0 < x) : |(m + x : ℚ) - m| = x := by
  rw [add_sub_cancel_left, abs_of_pos hx]

/-- `CFRound` gives an integer that is a half away at most, if and only if the number `RoundsRight`. -/
theorem cfRound_nearest_iff {f : CFloat} (h : f.Normal) : Nearest f (cfRound f) ↔ RoundsRight f := by
  unfold cfRound RoundsRight
  by_cases hneg : f.exp < 0
  · rw [if_pos hneg]
    refine iff_of_true ⟨0, by simpa using cfAlloc_val, ?_⟩ fun h0 => absurd h0 (not_le.mpr hneg)
    obtain rfl | hproper := h
    · exact absurd hneg (by decide)
    · have hlt := CFloat.mag_lt hproper.trimmed.digits
      have hle : (10 : ℚ) ^ f.exp ≤ (10 : ℚ) ^ (-1 : ℤ) := zpow_le_zpow_right₀ (by norm_num) (by omega)
      rw [Int.cast_zero, sub_zero, hproper.abs_val]
      norm_num at hle ⊢
      linarith
  · rw [if_neg hneg]
    by_cases hlen : f.len ≤ f.exp
    · rw [if_pos hlen]
      refine iff_of_true ?_ fun _ hlong => absurd hlong (not_lt.mpr hlen)
      obtain ⟨n, hn⟩ := CFloat.Proper.int_of_len_le hlen
      refine ⟨f.sign * n, ?_, ?_⟩
      · unfold CFloat.val
        rw [hn]
        push_cast
        rfl
      · unfold CFloat.val
        rw [hn]
        push_cast
        norm_num
    · rw [if_neg hlen]
      dsimp only
      obtain rfl | hproper := h
      · exact absurd (by decide) hlen
      · have hexp : 0 ≤ f.exp := not_lt.mp hneg
        have hlong : f.exp < f.len := not_le.mp hlen
        obtain ⟨x, hmag, hlow, hhalf, hpos, hone⟩ := hproper.fraction hexp hlong
        have htrim := nearest_of_val hproper.sign (cfTrunc_val hproper hexp hlong)
        rw [hmag, abs_fraction hpos] at htrim
        by_cases hfive : f.access f.exp < 5
        · -- The fraction is below a half.
          rw [if_pos hfive, htrim]
          exact iff_of_true (hlow.mp hfive).le fun _ _ h5 => absurd hfive (not_lt.mpr h5)
        · have hge : 1 / 2 ≤ x := not_lt.mp fun hx => hfive (hlow.mpr hx)
          rw [if_neg hfive, imp_iff_right hexp, imp_iff_right hlong, imp_iff_right (not_lt.mp hfive)]
          by_cases hlast : f.sign < 0 ∧ f.len = f.exp + 1
          · rw [if_pos hlast, if_pos hlast, htrim]
            have hfiveiff : f.access f.exp = 5 ↔ f.IsHalf := ⟨fun h5 => ⟨h5, hlast.2⟩, fun h5 => h5.1⟩
            rw [hfiveiff, hhalf]
            exact ⟨fun hle => le_antisymm hle hge, fun heq => heq.le⟩
          · rw [if_neg hlast, if_neg hlast,
              nearest_of_val hproper.sign (cfAdd_one_val hproper hexp hlong), hmag, hhalf]
            have hle := cutNat_le (n := f.intPart + 1)
            obtain heq | hlt := Nat.eq_or_lt_of_le hle
            · refine iff_of_true ?_ (.inl heq)
              rw [heq]
              push_cast
              rw [abs_le]
              constructor <;> linarith
            · have hcut : (cutNat (f.intPart + 1) : ℚ) ≤ f.intPart := by exact_mod_cast Nat.le_of_lt_succ hlt
              rw [abs_of_pos (by linarith)]
              constructor
              · intro hdist
                have heq : (cutNat (f.intPart + 1) : ℚ) = f.intPart := by linarith
                exact .inr ⟨by linarith, by exact_mod_cast heq⟩
              · rintro (heq | ⟨hx, heq⟩)
                · omega
                · rw [heq, hx]
                  linarith

/-- Two and a half. -/
theorem cfRound_nearest_half : CFloat.Normal ⟨1, 1, [2, 5]⟩ ∧
    (Nearest ⟨1, 1, [2, 5]⟩ (cfRound ⟨1, 1, [2, 5]⟩) ↔ RoundsRight ⟨1, 1, [2, 5]⟩) := by
  have h : CFloat.Normal ⟨1, 1, [2, 5]⟩ := .inr ⟨.inl rfl, (by decide : Trimmed [2, 5])⟩
  exact ⟨h, cfRound_nearest_iff h⟩

/-- The number -0.7 is rounded to 0. -/
theorem not_nearest_cfRound : cfRound ⟨0, -1, [7]⟩ = cfAlloc ∧ ¬ ∀ f : CFloat, f.Normal → Nearest f (cfRound f) := by
  have hzero : cfRound ⟨0, -1, [7]⟩ = cfAlloc := by decide
  refine ⟨hzero, fun h => ?_⟩
  have hnormal : CFloat.Normal ⟨0, -1, [7]⟩ := .inr ⟨.inr rfl, (by decide : Trimmed [7])⟩
  obtain ⟨n, hn, hdist⟩ := h _ hnormal
  rw [hzero, cfAlloc_val] at hn
  rw [← hn] at hdist
  norm_num [CFloat.val, CFloat.mag, CFloat.len, decVal, Nat.ofDigits] at hdist

end OpenWatcom.Cfloat
