import OpenWatcom.Cfloat.Number
import Mathlib.Data.List.GetD

/-! # Sums of decimal constants

A number that is not zero is kept without zeros in front of its digits and behind them (`Proper`), and `CSSum`
computes the whole sum of two numbers before `CFClean` cuts it. -/

namespace OpenWatcom.Cfloat

open OpenWatcom

/-! ### Values -/

namespace CFloat

/-- The absolute value. -/
def mag (f : CFloat) : ℚ := decVal f.mant * (10 : ℚ) ^ (f.exp - f.len)

/-- The number. -/
def val (f : CFloat) : ℚ := f.sign * f.mag

end CFloat

/-- Digits without zeros in front of them and behind them. -/
structure Trimmed (l : List ℕ) : Prop where
  digits : Digits l
  head : ∃ d t, l = d :: t ∧ d ≠ 0
  last : ∀ h : l ≠ [], l.getLast h ≠ 0

/-- A number in normal form that is not zero. -/
structure CFloat.Proper (f : CFloat) : Prop where
  sign : f.sign = 1 ∨ f.sign = -1
  trimmed : Trimmed f.mant

/-- A number in normal form. -/
def CFloat.Normal (f : CFloat) : Prop := f = cfAlloc ∨ f.Proper

/-- A number with 32 significant digits at most. -/
def Short (x : ℚ) : Prop := ∃ n : ℕ, ∃ e : ℤ, n < 10 ^ cfMaxPrec ∧ |x| = n * (10 : ℚ) ^ e

theorem ten_zpow_pos (e : ℤ) : (0 : ℚ) < (10 : ℚ) ^ e := zpow_pos (by norm_num) e

theorem Trimmed.not_dvd {l : List ℕ} (h : Trimmed l) : ¬ 10 ∣ decVal l := by
  obtain ⟨d, t, rfl, -⟩ := h.head
  exact not_ten_dvd_decVal h.digits (List.cons_ne_nil d t) (h.last _)

theorem Trimmed.pos {l : List ℕ} (h : Trimmed l) : 0 < decVal l :=
  Nat.pos_of_ne_zero fun h0 => h.not_dvd (h0 ▸ Nat.dvd_zero 10)

theorem CFloat.mag_nonneg (f : CFloat) : 0 ≤ f.mag :=
  mul_nonneg (Nat.cast_nonneg _) (ten_zpow_pos _).le

theorem CFloat.Proper.mag_pos {f : CFloat} (h : f.Proper) : 0 < f.mag :=
  mul_pos (by exact_mod_cast h.trimmed.pos) (ten_zpow_pos _)

theorem CFloat.Proper.abs_val {f : CFloat} (h : f.Proper) : |f.val| = f.mag := by
  unfold CFloat.val
  rw [abs_mul, abs_of_nonneg f.mag_nonneg]
  obtain hs | hs := h.sign
  · rw [hs]
    simp
  · rw [hs]
    simp

theorem cfAlloc_val : cfAlloc.val = 0 := by
  unfold CFloat.val cfAlloc
  simp

/-! ### `CFClean` -/

/-- A list whose digits are not all zeros, with the zeros behind them and in front of them taken off. -/
theorem trimmed_core {l : List ℕ} (hl : Digits l) (h0 : decVal l ≠ 0) :
    l.rdropWhile (· = 0) ≠ [] ∧ Trimmed ((l.rdropWhile (· = 0)).dropWhile (· = 0)) := by
  have hbody : l.rdropWhile (· = 0) ≠ [] := by
    intro hnil
    rw [List.rdropWhile_eq_nil_iff] at hnil
    exact h0 (decVal_zeros fun d hd => by simpa using hnil d hd)
  have hlast := List.rdropWhile_last_not (fun x : ℕ => decide (x = 0)) l hbody
  have hsub : l.rdropWhile (· = 0) ⊆ l := (List.rdropWhile_prefix _ l).subset
  generalize l.rdropWhile (· = 0) = body at hbody hlast hsub
  have hcore : body.dropWhile (· = 0) ≠ [] := by
    intro hnil
    rw [List.dropWhile_eq_nil_iff] at hnil
    exact hlast (hnil _ (List.getLast_mem hbody))
  refine ⟨hbody, (hl.of_subset hsub).of_subset (List.dropWhile_suffix _).subset, ?_, fun h => ?_⟩
  · refine ⟨_, _, (List.cons_head_tail hcore).symm, ?_⟩
    have hhead := List.head_dropWhile_not (fun x : ℕ => decide (x = 0)) hcore
    simpa using hhead
  · obtain ⟨front, hfront⟩ := List.dropWhile_suffix (fun x : ℕ => decide (x = 0)) (l := body)
    have hsame : (body.dropWhile (· = 0)).getLast h = body.getLast hbody := by
      rw [List.getLast_congr hbody (by rw [hfront]; exact hbody) hfront.symm]
      exact (List.getLast_append_of_ne_nil _ h).symm
    rw [hsame]
    simpa using hlast

/-- The significant digits of a short number. -/
theorem Trimmed.length_le {l : List ℕ} (h : Trimmed l) {a : ℤ} (hshort : Short (decVal l * (10 : ℚ) ^ a)) :
    l.length ≤ cfMaxPrec := by
  obtain ⟨n, e, hn, heq⟩ := hshort
  rw [abs_of_nonneg (mul_nonneg (Nat.cast_nonneg _) (ten_zpow_pos _).le)] at heq
  have hle : decVal l ≤ n := by
    obtain hea | hae := le_or_gt e a
    · obtain ⟨k, rfl⟩ := Int.le.dest hea
      have hnat : decVal l * 10 ^ k = n := by
        have hten := (ten_zpow_pos e).ne'
        have hq : (decVal l : ℚ) * 10 ^ k = n := by
          apply mul_right_cancel₀ hten
          rw [← heq, zpow_add₀ (by norm_num), zpow_natCast]
          ring
        exact_mod_cast hq
      rw [← hnat]
      exact Nat.le_mul_of_pos_right _ (Nat.pow_pos (by decide))
    · obtain ⟨k, rfl⟩ := Int.le.dest (Int.add_one_le_of_lt hae)
      refine absurd ⟨n * 10 ^ k, ?_⟩ h.not_dvd
      have hten := (ten_zpow_pos a).ne'
      have hq : (decVal l : ℚ) = 10 * (n * 10 ^ k) := by
        apply mul_right_cancel₀ hten
        rw [heq, zpow_add₀ (by norm_num), zpow_add₀ (by norm_num), zpow_natCast, zpow_one]
        ring
      exact_mod_cast hq
  obtain ⟨d, t, rfl, hd⟩ := h.head
  have hlow := le_decVal (l := t) hd
  have hlt : 10 ^ t.length < 10 ^ cfMaxPrec := by omega
  have hlen := (Nat.pow_lt_pow_iff_right (by decide)).mp hlt
  rw [List.length_cons]
  omega

theorem Trimmed.eq_of_decVal {l m : List ℕ} (hl : Trimmed l) (hm : Trimmed m) (h : decVal l = decVal m) : l = m := by
  obtain ⟨d, s, rfl, hd⟩ := hl.head
  obtain ⟨e, t, rfl, he⟩ := hm.head
  -- The number of digits is that of the number.
  have hle : ∀ {a b : ℕ} {u v : List ℕ}, a ≠ 0 → Digits (b :: v) → decVal (a :: u) = decVal (b :: v) →
      u.length ≤ v.length := by
    intro a b u v ha hv heq
    have hlow := le_decVal (l := u) ha
    have hhigh := decVal_lt hv
    rw [← heq] at hhigh
    have hlen := (Nat.pow_lt_pow_iff_right (by decide)).mp (lt_of_le_of_lt hlow hhigh)
    rw [List.length_cons] at hlen
    omega
  have hlen : s.length = t.length := le_antisymm (hle hd hm.digits h) (hle he hl.digits h.symm)
  apply decVal_inj hl.digits hm.digits ?_ h
  rw [List.length_cons, List.length_cons, hlen]

/-- A number before `CFClean`: any digits, but not zero. -/
structure CFloat.Rough (f : CFloat) : Prop where
  sign : f.sign = 1 ∨ f.sign = -1
  digits : Digits f.mant
  nonzero : decVal f.mant ≠ 0

/-- A number that keeps its form where it is cut to 32 digits: it has no more, or the last one of them is not zero. -/
def KeepsForm (x : ℚ) : Prop :=
  ∃ l : List ℕ, ∃ e : ℤ, Trimmed l ∧ |x| = decVal l * (10 : ℚ) ^ e ∧
    (l.length ≤ cfMaxPrec ∨ l.getD (cfMaxPrec - 1) 0 ≠ 0)

theorem CFloat.Proper.rough {f : CFloat} (h : f.Proper) : f.Rough := ⟨h.sign, h.trimmed.digits, h.trimmed.pos.ne'⟩

theorem CFloat.Rough.mag_pos {f : CFloat} (h : f.Rough) : 0 < f.mag :=
  mul_pos (by exact_mod_cast Nat.pos_of_ne_zero h.nonzero) (ten_zpow_pos _)

theorem CFloat.Rough.abs_val {f : CFloat} (h : f.Rough) : |f.val| = f.mag := by
  unfold CFloat.val
  rw [abs_mul, abs_of_nonneg f.mag_nonneg]
  obtain hs | hs := h.sign <;> simp [hs]

/-- Whether the first digits of a number end in a zero. -/
theorem Trimmed.take_iff {l : List ℕ} (h : Trimmed l) {n : ℕ} (hn : 0 < n) :
    Trimmed (l.take n) ↔ l.length ≤ n ∨ l.getD (n - 1) 0 ≠ 0 := by
  by_cases hlen : l.length ≤ n
  · rw [List.take_of_length_le hlen]
    exact iff_of_true h (.inl hlen)
  · have hlt : n - 1 < l.length := by omega
    have htake : (l.take n).length = n := by
      rw [List.length_take]
      omega
    have hne : l.take n ≠ [] := by
      intro hnil
      rw [hnil, List.length_nil] at htake
      omega
    have hlast : (l.take n).getLast hne = l.getD (n - 1) 0 := by
      rw [List.getLast_eq_getElem, List.getD_eq_getElem _ _ hlt, List.getElem_take]
      simp only [htake]
    constructor
    · intro ht
      exact .inr (hlast ▸ ht.last hne)
    · intro hcase
      obtain ⟨d, t, rfl, hd⟩ := h.head
      obtain ⟨k, rfl⟩ := Nat.exists_eq_succ_of_ne_zero hn.ne'
      refine ⟨h.digits.of_subset (List.take_subset _ _), ⟨d, t.take k, rfl, hd⟩, fun _ => ?_⟩
      rw [hlast]
      exact hcase.resolve_left hlen

/-- The digits that `CFClean` keeps are the first 32 of the significant ones. -/
theorem cfClean_core {f : CFloat} (hdigits : Digits f.mant) (h0 : decVal f.mant ≠ 0) :
    ∃ core : List ℕ, Trimmed core ∧ (cfClean f).mant = core.take cfMaxPrec ∧
      (decVal core : ℚ) * (10 : ℚ) ^ ((cfClean f).exp - core.length) = f.mag ∧ (cfClean f).sign = f.sign := by
  obtain ⟨hbody, htrim⟩ := trimmed_core hdigits h0
  have hval := decVal_rdropWhile f.mant
  have hle := (List.rdropWhile_prefix (fun x : ℕ => decide (x = 0)) (l := f.mant)).length_le
  unfold cfClean CFloat.mag CFloat.len at *
  generalize f.mant.rdropWhile (· = 0) = body at hbody htrim hval hle ⊢
  have hlen := length_takeWhile_add body (fun x => decide (x = 0))
  rw [← decVal_dropWhile body] at hval
  rw [if_neg fun h => hbody h.2]
  dsimp only
  generalize body.dropWhile (· = 0) = core at htrim hval hlen ⊢
  refine ⟨core, htrim, rfl, ?_, rfl⟩
  rw [hval]
  push_cast
  rw [mul_assoc, ← zpow_natCast, ← zpow_add₀ (by norm_num)]
  congr 2
  have hcast : ((f.mant.length - body.length : ℕ) : ℤ) = f.mant.length - body.length := Int.ofNat_sub hle
  rw [hcast]
  omega

/-- A number and what `CFClean` leaves of it. -/
structure Cleaned (f g : CFloat) : Prop where
  rough : g.Rough
  sign : g.sign = f.sign
  le : g.mag ≤ f.mag
  exact_iff : g.mag = f.mag ↔ Short f.mag
  proper_iff : g.Proper ↔ KeepsForm f.mag
  keeps : Short f.mag → KeepsForm f.mag

/-- Two lists of significant digits of one number are the same. -/
theorem Trimmed.unique {l m : List ℕ} (hl : Trimmed l) (hm : Trimmed m) {a b : ℤ}
    (h : (decVal l : ℚ) * (10 : ℚ) ^ a = decVal m * (10 : ℚ) ^ b) : l = m ∧ a = b := by
  have hcast : ∀ {n m : ℕ} {a : ℤ} {k : ℕ}, (n : ℚ) * (10 : ℚ) ^ (a + k) = m * (10 : ℚ) ^ a → n * 10 ^ k = m := by
    intro n m a k heq
    rw [zpow_add₀ (by norm_num), mul_left_comm, mul_comm _ ((10 : ℚ) ^ a), zpow_natCast] at heq
    have hq := mul_left_cancel₀ (ten_zpow_pos a).ne' heq
    exact_mod_cast hq
  obtain hle | hle := le_total b a
  · obtain ⟨k, rfl⟩ := Int.le.dest hle
    obtain ⟨hval, rfl⟩ := eq_of_mul_pow_eq hl.not_dvd hm.not_dvd
      ((hcast h).trans (Nat.mul_one _).symm : _ = decVal m * 10 ^ 0)
    exact ⟨hl.eq_of_decVal hm hval, by simp⟩
  · obtain ⟨k, rfl⟩ := Int.le.dest hle
    obtain ⟨hval, rfl⟩ := eq_of_mul_pow_eq hm.not_dvd hl.not_dvd
      ((hcast h.symm).trans (Nat.mul_one _).symm : _ = decVal l * 10 ^ 0)
    exact ⟨hl.eq_of_decVal hm hval.symm, by simp⟩

/-- `CFClean` cuts a number towards zero, and keeps it if and only if it is short. -/
theorem CFloat.Rough.cleaned {f : CFloat} (h : f.Rough) : Cleaned f (cfClean f) := by
  obtain ⟨core, hcore, hmant, hmag, hsign⟩ := cfClean_core h.digits h.nonzero
  generalize cfClean f = g at hmant hmag hsign ⊢
  -- The digits that are cut off.
  have hsplit : f.mag = g.mag + decVal (core.drop cfMaxPrec) * (10 : ℚ) ^ (g.exp - core.length) := by
    have hval := decVal_append (core.take cfMaxPrec) (core.drop cfMaxPrec)
    rw [List.take_append_drop] at hval
    have hlen : (core.length : ℤ) = (core.take cfMaxPrec).length + (core.drop cfMaxPrec).length := by
      rw [← Nat.cast_add, ← List.length_append, List.take_append_drop]
    have hexp : g.exp - ((core.take cfMaxPrec).length : ℤ) =
        ((core.drop cfMaxPrec).length : ℕ) + (g.exp - core.length) := by omega
    unfold CFloat.mag CFloat.len at *
    rw [← hmag, hmant, hval, hexp, zpow_add₀ (by norm_num), zpow_natCast]
    push_cast
    ring
  have hten := ten_zpow_pos (g.exp - core.length)
  have hcut : 0 ≤ (decVal (core.drop cfMaxPrec) : ℚ) * (10 : ℚ) ^ (g.exp - core.length) :=
    mul_nonneg (Nat.cast_nonneg _) hten.le
  have hshort : Short f.mag ↔ core.length ≤ cfMaxPrec := by
    rw [← hmag]
    constructor
    · exact hcore.length_le
    · intro hle
      refine ⟨decVal core, g.exp - core.length, ?_, abs_of_nonneg (mul_nonneg (Nat.cast_nonneg _) hten.le)⟩
      exact lt_of_lt_of_le (decVal_lt hcore.digits) (Nat.pow_le_pow_right (by decide) hle)
  have htrim : Trimmed g.mant ↔ core.length ≤ cfMaxPrec ∨ core.getD (cfMaxPrec - 1) 0 ≠ 0 := by
    rw [hmant]
    exact hcore.take_iff (by decide)
  have hsigns : g.sign = 1 ∨ g.sign = -1 := by
    rw [hsign]
    exact h.sign
  have hkeeps : KeepsForm f.mag ↔ core.length ≤ cfMaxPrec ∨ core.getD (cfMaxPrec - 1) 0 ≠ 0 := by
    unfold KeepsForm
    rw [abs_of_nonneg f.mag_nonneg]
    constructor
    · rintro ⟨l, e, hl, heq, hcase⟩
      obtain ⟨rfl, -⟩ := hl.unique hcore (heq.symm.trans hmag.symm)
      exact hcase
    · exact fun hcase => ⟨core, _, hcore, hmag.symm, hcase⟩
  refine ⟨⟨hsigns, ?_, ?_⟩, hsign, by linarith, ?_, ?_, fun hs => hkeeps.mpr (.inl (hshort.mp hs))⟩
  · rw [hmant]
    exact hcore.digits.of_subset (List.take_subset _ _)
  · obtain ⟨d, t, rfl, hd⟩ := hcore.head
    have hlow := le_decVal (l := t.take (cfMaxPrec - 1)) hd
    have hpos : 0 < 10 ^ (t.take (cfMaxPrec - 1)).length := Nat.pow_pos (by decide)
    rw [hmant]
    change decVal (d :: t.take (cfMaxPrec - 1)) ≠ 0
    omega
  · rw [hshort]
    constructor
    · intro heq
      by_contra hlong
      -- What is cut off is not zero: its last digit is that of the number.
      have hdrop : core.drop cfMaxPrec ≠ [] := by
        intro hnil
        exact hlong (List.drop_eq_nil_iff.mp hnil)
      have hlast : (core.drop cfMaxPrec).getLast hdrop ≠ 0 := by
        rw [List.getLast_drop]
        exact hcore.last _
      have hdvd := not_ten_dvd_decVal (hcore.digits.of_subset (List.drop_subset _ _)) hdrop hlast
      have hzero : (decVal (core.drop cfMaxPrec) : ℚ) = 0 := by
        have : (decVal (core.drop cfMaxPrec) : ℚ) * (10 : ℚ) ^ (g.exp - core.length) = 0 := by linarith
        exact (mul_eq_zero.mp this).resolve_right hten.ne'
      have hnat : decVal (core.drop cfMaxPrec) = 0 := by exact_mod_cast hzero
      rw [hnat] at hdvd
      exact hdvd (Nat.dvd_zero 10)
    · intro hle
      rw [hsplit, List.drop_eq_nil_of_le hle, decVal_nil]
      simp
  · rw [hkeeps, ← htrim]
    exact ⟨fun hproper => hproper.trimmed, fun ht => ⟨hsigns, ht⟩⟩

/-- `CFClean` keeps a short number. -/
theorem cfClean_spec {f : CFloat} (h : f.Rough) (hshort : Short f.val) :
    (cfClean f).Proper ∧ (cfClean f).val = f.val := by
  have hmag : Short f.mag := by
    obtain ⟨n, e, hn, heq⟩ := hshort
    rw [h.abs_val] at heq
    exact ⟨n, e, hn, by rw [abs_of_nonneg f.mag_nonneg, heq]⟩
  have hclean := h.cleaned
  refine ⟨hclean.proper_iff.mpr (hclean.keeps hmag), ?_⟩
  unfold CFloat.val
  rw [hclean.sign, hclean.exact_iff.mpr hmag]

/-- Whether a number is in normal form when it has been cleaned. -/
theorem cfClean_normal_iff {f : CFloat} (h : f.Rough) : (cfClean f).Normal ↔ KeepsForm f.val := by
  have hclean := h.cleaned
  have hkeeps : KeepsForm f.val ↔ KeepsForm f.mag := by
    unfold KeepsForm
    rw [h.abs_val, abs_of_nonneg f.mag_nonneg]
  rw [hkeeps, ← hclean.proper_iff]
  constructor
  · rintro (hzero | hproper)
    · have hsign := hclean.sign
      rw [hzero] at hsign
      obtain hs | hs := h.sign
      · exact absurd (hsign.trans hs) (by decide)
      · exact absurd (hsign.trans hs) (by decide)
    · exact hproper
  · exact .inr

/-- `CFClean` makes zeros the number zero. -/
theorem cfClean_zero {f : CFloat} (hne : f.mant ≠ []) (h0 : decVal f.mant = 0) : cfClean f = cfAlloc := by
  have hbody : f.mant.rdropWhile (· = 0) = [] := by
    by_contra hbody
    have hlast := List.rdropWhile_last_not (fun x : ℕ => decide (x = 0)) _ hbody
    have hmem := (List.rdropWhile_prefix (fun x : ℕ => decide (x = 0)) _).subset (List.getLast_mem hbody)
    generalize (f.mant.rdropWhile fun x => decide (x = 0)).getLast hbody = d at hlast hmem
    obtain ⟨s, t, hsplit⟩ := List.append_of_mem hmem
    rw [hsplit, decVal_append, decVal_cons] at h0
    have hpos : 0 < d * 10 ^ t.length :=
      Nat.mul_pos (Nat.pos_of_ne_zero (by simpa using hlast)) (Nat.pow_pos (by decide))
    omega
  unfold cfClean
  dsimp only
  rw [if_pos ⟨hne, hbody⟩]
  rfl

/-! ### `CSSum` -/

/-- The digits of a number from the position `r + 1` on, the least significant first. -/
def digitsFrom (f : CFloat) (r : Int) : List ℕ :=
  List.replicate (f.exp - f.len - r).toNat 0 ++ f.mant.reverse

theorem digitAt_digitsFrom (f : CFloat) {r : Int} (hr : r ≤ f.exp - f.len) (j : ℕ) :
    f.digitAt (r + 1 + j) = (digitsFrom f r).getD j 0 := by
  unfold digitsFrom CFloat.digitAt CFloat.access CFloat.len at *
  obtain ⟨z, hz⟩ : ∃ z : ℕ, f.exp - f.mant.length - r = z := ⟨_, (Int.toNat_of_nonneg (by omega)).symm⟩
  rw [hz, Int.toNat_natCast]
  by_cases hlow : j < z
  · rw [if_neg (by omega), List.getD_append _ _ _ _ (by simpa using hlow)]
    simp
  · rw [List.getD_append_right _ _ _ _ (by simpa using hlow), List.length_replicate]
    by_cases hhigh : j - z < f.mant.length
    · have hindex : (f.exp - (r + 1 + j)).toNat = f.mant.length - 1 - (j - z) := by omega
      rw [if_pos (by omega), hindex, List.getD_eq_getElem _ _ (by omega),
        List.getD_eq_getElem _ _ (by simpa using hhigh), List.getElem_reverse]
    · rw [if_neg (by omega), List.getD_eq_default _ _ (by simpa using hhigh)]

theorem digits_digitsFrom {f : CFloat} (hf : Digits f.mant) (r : Int) : Digits (digitsFrom f r) := by
  intro d hd
  obtain hzero | hmem := List.mem_append.mp hd
  · rw [List.eq_of_mem_replicate hzero]
    decide
  · exact hf d (List.mem_reverse.mp hmem)

/-- Those digits count `10 ^ r` times what they are. -/
theorem mag_eq_digitsFrom (f : CFloat) {r : Int} (hr : r ≤ f.exp - f.len) :
    f.mag = (Nat.ofDigits 10 (digitsFrom f r) : ℕ) * (10 : ℚ) ^ r := by
  unfold digitsFrom
  rw [Nat.ofDigits_append, Nat.ofDigits_replicate_zero, Nat.zero_add, List.length_replicate]
  have hz := Int.toNat_of_nonneg (Int.sub_nonneg_of_le hr)
  generalize (f.exp - f.len - r).toNat = z at hz
  unfold CFloat.mag
  have hexp : f.exp - f.len = z + r := by omega
  rw [hexp, zpow_add₀ (by norm_num), zpow_natCast]
  unfold decVal
  simp only [Nat.cast_mul, Nat.cast_pow, Nat.cast_ofNat]
  ring

theorem ofDigits_take_succ (l : List ℕ) (n : ℕ) :
    Nat.ofDigits 10 (l.take (n + 1)) = l.getD 0 0 + 10 * Nat.ofDigits 10 (l.tail.take n) := by
  cases l with
  | nil => simp
  | cons d l => simp [Nat.ofDigits_cons]

theorem getD_lt {l : List ℕ} (hl : Digits l) (j : ℕ) : l.getD j 0 < 10 := by
  by_cases hj : j < l.length
  · rw [List.getD_eq_getElem _ _ hj]
    exact hl _ (List.getElem_mem hj)
  · rw [List.getD_eq_default _ _ (Nat.not_lt.mp hj)]
    decide

/-- The loop adds or subtracts digit by digit; nothing is left over if the result is not negative. -/
theorem csLoop_spec {arith : Int → Int → Int} {s : ℤ} (hs : s = 1 ∨ s = -1)
    (harith : ∀ a b, arith a b = a + s * b) (f1 f2 : CFloat) (n : ℕ) (pos carry : ℤ) (digits : List ℕ) {l1 l2 : List ℕ}
    (h1 : ∀ j : ℕ, f1.digitAt (pos + j) = l1.getD j 0) (h2 : ∀ j : ℕ, f2.digitAt (pos + j) = l2.getD j 0)
    (hl1 : Digits l1) (hl2 : Digits l2) (hcarry : -1 ≤ carry ∧ carry ≤ 1) (hdigits : Digits digits)
    (hsum : 0 ≤ ((Nat.ofDigits 10 (l1.take n) : ℕ) : ℤ) + s * ((Nat.ofDigits 10 (l2.take n) : ℕ) : ℤ) + carry) :
    Digits (csLoop arith f1 f2 n pos carry digits) ∧
      (csLoop arith f1 f2 n pos carry digits).length = n + 1 + digits.length ∧
      (decVal (csLoop arith f1 f2 n pos carry digits) : ℤ) =
        (((Nat.ofDigits 10 (l1.take n) : ℕ) : ℤ) + s * ((Nat.ofDigits 10 (l2.take n) : ℕ) : ℤ) + carry) *
          10 ^ digits.length + decVal digits := by
  induction n generalizing pos carry digits l1 l2 with
  | zero =>
      simp only [List.take_zero, Nat.ofDigits_nil, Nat.cast_zero, mul_zero, zero_add] at hsum ⊢
      unfold csLoop
      refine ⟨Digits.cons (by omega) hdigits, by rw [List.length_cons]; omega, ?_⟩
      rw [decVal_cons]
      push_cast
      rw [Int.toNat_of_nonneg hsum]
  | succ n ih =>
      have hd1 := getD_lt hl1 0
      have hd2 := getD_lt hl2 0
      have hp1 := h1 0
      have hp2 := h2 0
      simp only [Int.natCast_zero, Int.add_zero] at hp1 hp2
      rw [ofDigits_take_succ, ofDigits_take_succ] at hsum ⊢
      have htail : ∀ {f : CFloat} {l : List ℕ}, (∀ j : ℕ, f.digitAt (pos + j) = l.getD j 0) →
          ∀ j : ℕ, f.digitAt (pos + 1 + j) = l.tail.getD j 0 := by
        intro f l hl j
        have hnext := hl (j + 1)
        have hplace : pos + ((j + 1 : ℕ) : ℤ) = pos + 1 + j := by
          push_cast
          ring
        rw [hplace] at hnext
        rw [hnext]
        cases l <;> simp
      have hsub : ∀ {l : List ℕ}, Digits l → Digits l.tail := fun hl => hl.of_subset (List.tail_subset _)
      -- The digit that is put down and the carry make up what was there.
      have key : ∀ d c : ℤ, 0 ≤ d → d < 10 → -1 ≤ c → c ≤ 1 →
          carry + (l1.getD 0 0 : ℤ) + s * (l2.getD 0 0 : ℤ) = d + 10 * c →
          Digits (csLoop arith f1 f2 n (pos + 1) c (d.toNat :: digits)) ∧
            (csLoop arith f1 f2 n (pos + 1) c (d.toNat :: digits)).length = n + 1 + 1 + digits.length ∧
            (decVal (csLoop arith f1 f2 n (pos + 1) c (d.toNat :: digits)) : ℤ) =
              (((l1.getD 0 0 + 10 * Nat.ofDigits 10 (l1.tail.take n) : ℕ) : ℤ) +
                s * ((l2.getD 0 0 + 10 * Nat.ofDigits 10 (l2.tail.take n) : ℕ) : ℤ) + carry) *
                10 ^ digits.length + decVal digits := by
        intro d c hd0 hd10 hc1 hc2 heq
        simp only [Nat.cast_add, Nat.cast_mul, Nat.cast_ofNat] at hsum ⊢
        have hrest : 0 ≤ ((Nat.ofDigits 10 (l1.tail.take n) : ℕ) : ℤ) + s * ((Nat.ofDigits 10 (l2.tail.take n) : ℕ) : ℤ) + c := by
          obtain rfl | rfl := hs <;> omega
        obtain ⟨hdig, hlen, hval⟩ := ih _ _ _ (htail h1) (htail h2) (hsub hl1) (hsub hl2) ⟨hc1, hc2⟩
          (Digits.cons (by omega : d.toNat < 10) hdigits) hrest
        refine ⟨hdig, by rw [hlen, List.length_cons]; omega, ?_⟩
        rw [hval, decVal_cons, List.length_cons]
        push_cast
        rw [Int.toNat_of_nonneg hd0, pow_succ]
        have hd : d = carry + (l1.getD 0 0 : ℤ) + s * (l2.getD 0 0 : ℤ) - 10 * c := by omega
        rw [hd]
        ring
      unfold csLoop
      rw [hp1, hp2, harith]
      dsimp only
      obtain rfl | rfl := hs
      · split_ifs with hneg hbig
        · exact key _ (-1) (by omega) (by omega) (by omega) (by omega) (by omega)
        · exact key _ 1 (by omega) (by omega) (by omega) (by omega) (by omega)
        · exact key _ 0 (by omega) (by omega) (by omega) (by omega) (by omega)
      · split_ifs with hneg hbig
        · exact key _ (-1) (by omega) (by omega) (by omega) (by omega) (by omega)
        · exact key _ 1 (by omega) (by omega) (by omega) (by omega) (by omega)
        · exact key _ 0 (by omega) (by omega) (by omega) (by omega) (by omega)

/-- `CSSum` cleans the sum or difference of the absolute values. -/
theorem csSum_spec {arith : Int → Int → Int} {s : ℤ} (hs : s = 1 ∨ s = -1)
    (harith : ∀ a b, arith a b = a + s * b) {f1 f2 : CFloat} (h1 : f1.Rough) (h2 : f2.Rough)
    (hpos : 0 < f1.mag + s * f2.mag) :
    ∃ raw : CFloat, raw.Rough ∧ csSum f1 f2 arith = cfClean raw ∧ raw.val = f1.sign * (f1.mag + s * f2.mag) ∧
      raw.sign = f1.sign := by
  unfold csSum
  dsimp only
  generalize hleft : max f1.exp f2.exp = farleft
  generalize hright : min (f1.exp - f1.len) (f2.exp - f2.len) = farright
  have hr1 : farright ≤ f1.exp - f1.len := by omega
  have hr2 : farright ≤ f2.exp - f2.len := by omega
  have hlen1 : 0 ≤ f1.len := Int.natCast_nonneg _
  have hlen2 : 0 ≤ f2.len := Int.natCast_nonneg _
  obtain ⟨n, hn⟩ : ∃ n : ℕ, farleft - farright = n := ⟨_, (Int.toNat_of_nonneg (by omega)).symm⟩
  rw [hn, Int.toNat_natCast]
  have hwhole : ∀ f : CFloat, farright ≤ f.exp - f.len → f.exp ≤ farleft →
      (digitsFrom f farright).take n = digitsFrom f farright := by
    intro f hr hl
    apply List.take_of_length_le
    unfold digitsFrom
    rw [List.length_append, List.length_replicate, List.length_reverse]
    have hlen : f.len = f.mant.length := rfl
    omega
  have hten := ten_zpow_pos farright
  have hmag : f1.mag + s * f2.mag =
      (((Nat.ofDigits 10 (digitsFrom f1 farright) : ℕ) : ℤ) + s * ((Nat.ofDigits 10 (digitsFrom f2 farright) : ℕ) : ℤ) : ℤ) *
        (10 : ℚ) ^ farright := by
    rw [mag_eq_digitsFrom f1 hr1, mag_eq_digitsFrom f2 hr2]
    simp only [Int.cast_add, Int.cast_mul, Int.cast_natCast]
    ring
  have hsum : 0 < ((Nat.ofDigits 10 (digitsFrom f1 farright) : ℕ) : ℤ) +
      s * ((Nat.ofDigits 10 (digitsFrom f2 farright) : ℕ) : ℤ) := by
    rw [hmag] at hpos
    exact_mod_cast pos_of_mul_pos_left hpos hten.le
  obtain ⟨hdigits, hlength, hval⟩ := csLoop_spec hs harith f1 f2 n (farright + 1) 0 []
    (digitAt_digitsFrom f1 hr1) (digitAt_digitsFrom f2 hr2) (digits_digitsFrom h1.digits _) (digits_digitsFrom h2.digits _)
    ⟨by decide, by decide⟩ (fun d hd => nomatch hd)
    (by rw [hwhole f1 hr1 (by omega), hwhole f2 hr2 (by omega)]; omega)
  rw [hwhole f1 hr1 (by omega), hwhole f2 hr2 (by omega)] at hval
  simp only [List.length_nil, pow_zero, mul_one, add_zero, decVal_nil, Nat.cast_zero] at hval hlength
  generalize csLoop arith f1 f2 n (farright + 1) 0 [] = digits at hdigits hlength hval ⊢
  have hraw : CFloat.mag ⟨farleft + 1, f1.sign, digits⟩ = f1.mag + s * f2.mag := by
    have hexp : farleft + 1 - (digits.length : ℤ) = farright := by
      rw [hlength]
      push_cast
      omega
    rw [hmag, ← hval, Int.cast_natCast, ← hexp]
    rfl
  have h0 : decVal digits ≠ 0 := by omega
  refine ⟨⟨farleft + 1, f1.sign, digits⟩, ⟨h1.sign, hdigits, h0⟩, rfl, ?_, rfl⟩
  rw [← hraw]
  rfl

/-! ### `CFOrder` -/

/-- Digits behind a decimal point are compared one by one. -/
theorem orderDigits_sign {l m : List ℕ} (hl : Digits l) (hm : Digits m) (hl0 : ∀ h : l ≠ [], l.getLast h ≠ 0)
    (hm0 : ∀ h : m ≠ [], m.getLast h ≠ 0) :
    (orderDigits l m).sign = ((decVal l : ℤ) * 10 ^ m.length - (decVal m : ℤ) * 10 ^ l.length).sign := by
  induction l generalizing m with
  | nil =>
      cases m with
      | nil => rfl
      | cons e m =>
          have hne : e :: m ≠ [] := List.cons_ne_nil e m
          have hpos : 0 < decVal (e :: m) :=
            Nat.pos_of_ne_zero fun h0 => not_ten_dvd_decVal hm hne (hm0 hne) (h0 ▸ Nat.dvd_zero 10)
          unfold orderDigits
          rw [Int.sign_eq_neg_one_of_neg (by simp; omega), Int.sign_eq_neg_one_of_neg (by simpa using hpos)]
  | cons d l ih =>
      cases m with
      | nil =>
          have hne : d :: l ≠ [] := List.cons_ne_nil d l
          have hpos : 0 < decVal (d :: l) :=
            Nat.pos_of_ne_zero fun h0 => not_ten_dvd_decVal hl hne (hl0 hne) (h0 ▸ Nat.dvd_zero 10)
          unfold orderDigits
          rw [Int.sign_eq_one_of_pos (by simp), Int.sign_eq_one_of_pos (by simpa using hpos)]
      | cons e m =>
          have hlt := decVal_lt hl.tail
          have hlt' := decVal_lt hm.tail
          rw [orderDigits, decVal_cons, decVal_cons, List.length_cons, List.length_cons]
          by_cases hde : d = e
          · subst hde
            have hlast : ∀ {t : List ℕ}, (∀ h : d :: t ≠ [], (d :: t).getLast h ≠ 0) →
                ∀ h : t ≠ [], t.getLast h ≠ 0 := fun ht h => by
              have := ht (List.cons_ne_nil d _)
              rwa [List.getLast_cons h] at this
            rw [if_neg (by simp), ih hl.tail hm.tail (hlast hl0) (hlast hm0)]
            have hten : ((d * 10 ^ l.length + decVal l : ℕ) : ℤ) * 10 ^ (m.length + 1) -
                ((d * 10 ^ m.length + decVal m : ℕ) : ℤ) * 10 ^ (l.length + 1) =
                10 * ((decVal l : ℤ) * 10 ^ m.length - (decVal m : ℤ) * 10 ^ l.length) := by
              push_cast
              ring
            rw [hten, Int.sign_mul, Int.sign_eq_one_of_pos (by decide : (0 : ℤ) < 10), one_mul]
          · rw [if_pos hde]
            -- A smaller first digit cannot be made up for.
            have hless : ∀ {a c : ℕ} {s t : List ℕ}, a < c → decVal s < 10 ^ s.length →
                ((a * 10 ^ s.length + decVal s : ℕ) : ℤ) * 10 ^ (t.length + 1) <
                  ((c * 10 ^ t.length + decVal t : ℕ) : ℤ) * 10 ^ (s.length + 1) := by
              intro a c s t hac hs
              have hfirst : a * 10 ^ s.length + decVal s < c * 10 ^ s.length :=
                calc a * 10 ^ s.length + decVal s < a * 10 ^ s.length + 10 ^ s.length := Nat.add_lt_add_left hs _
                  _ = (a + 1) * 10 ^ s.length := (Nat.succ_mul a _).symm
                  _ ≤ c * 10 ^ s.length := Nat.mul_le_mul_right _ hac
              have hnat : (a * 10 ^ s.length + decVal s) * 10 ^ (t.length + 1) <
                  (c * 10 ^ t.length + decVal t) * 10 ^ (s.length + 1) :=
                calc (a * 10 ^ s.length + decVal s) * 10 ^ (t.length + 1)
                    < c * 10 ^ s.length * 10 ^ (t.length + 1) :=
                      Nat.mul_lt_mul_of_pos_right hfirst (Nat.pow_pos (by decide))
                  _ = c * 10 ^ t.length * 10 ^ (s.length + 1) := by ring
                  _ ≤ (c * 10 ^ t.length + decVal t) * 10 ^ (s.length + 1) :=
                      Nat.mul_le_mul_right _ (Nat.le_add_right _ _)
              exact_mod_cast hnat
            obtain hlow | hhigh := Nat.lt_or_gt_of_ne hde
            · have hsmall := hless (t := m) hlow hlt
              rw [Int.sign_eq_neg_one_of_neg (by omega), Int.sign_eq_neg_one_of_neg (by omega)]
            · have hbig := hless (t := l) hhigh hlt'
              rw [Int.sign_eq_one_of_pos (by omega), Int.sign_eq_one_of_pos (by omega)]

theorem CFloat.mag_lt {f : CFloat} (h : Digits f.mant) : f.mag < (10 : ℚ) ^ f.exp := by
  have hlt : (decVal f.mant : ℚ) < (10 : ℚ) ^ f.len := by
    unfold CFloat.len
    rw [zpow_natCast]
    exact_mod_cast decVal_lt h
  unfold CFloat.mag
  calc (decVal f.mant : ℚ) * (10 : ℚ) ^ (f.exp - f.len)
      < (10 : ℚ) ^ f.len * (10 : ℚ) ^ (f.exp - f.len) := mul_lt_mul_of_pos_right hlt (ten_zpow_pos _)
    _ = (10 : ℚ) ^ f.exp := by
        rw [← zpow_add₀ (by norm_num)]
        congr 1
        omega

theorem CFloat.le_mag {f : CFloat} (h : Trimmed f.mant) : (10 : ℚ) ^ (f.exp - 1) ≤ f.mag := by
  obtain ⟨d, t, hmant, hd⟩ := h.head
  have hle : (10 : ℚ) ^ (f.len - 1) ≤ decVal f.mant := by
    have hlen : f.len - 1 = (t.length : ℕ) := by
      unfold CFloat.len
      rw [hmant, List.length_cons]
      push_cast
      omega
    rw [hlen, zpow_natCast, hmant]
    exact_mod_cast le_decVal hd
  unfold CFloat.mag
  calc (10 : ℚ) ^ (f.exp - 1) = (10 : ℚ) ^ (f.len - 1) * (10 : ℚ) ^ (f.exp - f.len) := by
        rw [← zpow_add₀ (by norm_num)]
        congr 1
        omega
    _ ≤ (decVal f.mant : ℚ) * (10 : ℚ) ^ (f.exp - f.len) := mul_le_mul_of_nonneg_right hle (ten_zpow_pos _).le

theorem mag_lt_of_exp_lt {f1 f2 : CFloat} (h1 : Digits f1.mant) (h2 : Trimmed f2.mant) (h : f1.exp < f2.exp) :
    f1.mag < f2.mag :=
  calc f1.mag < (10 : ℚ) ^ f1.exp := CFloat.mag_lt h1
    _ ≤ (10 : ℚ) ^ (f2.exp - 1) := zpow_le_zpow_right₀ (by norm_num) (by omega)
    _ ≤ f2.mag := CFloat.le_mag h2

/-- With the same exponent the digits decide. -/
theorem mag_lt_iff_of_exp_eq {f1 f2 : CFloat} (h : f1.exp = f2.exp) :
    f1.mag < f2.mag ↔
      (decVal f1.mant : ℤ) * 10 ^ f2.mant.length < (decVal f2.mant : ℤ) * 10 ^ f1.mant.length := by
  have hscale : ∀ f g : CFloat, f.exp = g.exp →
      f.mag * (10 : ℚ) ^ ((f.mant.length : ℤ) + g.mant.length - f.exp) =
        ((decVal f.mant : ℤ) * 10 ^ g.mant.length : ℤ) := by
    intro f g _
    unfold CFloat.mag CFloat.len
    rw [mul_assoc, ← zpow_add₀ (by norm_num)]
    have hexp : f.exp - (f.mant.length : ℤ) + ((f.mant.length : ℤ) + g.mant.length - f.exp) =
        (g.mant.length : ℕ) := by omega
    rw [hexp, zpow_natCast]
    push_cast
    rfl
  have h1 := hscale f1 f2 h
  have h2 := hscale f2 f1 h.symm
  rw [← h, Int.add_comm (f2.mant.length : ℤ)] at h2
  rw [← mul_lt_mul_iff_left₀ (ten_zpow_pos ((f1.mant.length : ℤ) + f2.mant.length - f1.exp)), h1, h2]
  exact Int.cast_lt

/-- `CFOrder` compares the absolute values. -/
theorem cfOrder_spec {f1 f2 : CFloat} (h1 : Trimmed f1.mant) (h2 : Trimmed f2.mant) :
    (cfOrder f1 f2 < 0 ↔ f1.mag < f2.mag) ∧ (0 < cfOrder f1 f2 ↔ f2.mag < f1.mag) := by
  unfold cfOrder
  dsimp only
  by_cases hexp : f1.exp = f2.exp
  · rw [if_pos (by omega)]
    have hsign := orderDigits_sign h1.digits h2.digits h1.last h2.last
    rw [mag_lt_iff_of_exp_eq hexp, mag_lt_iff_of_exp_eq hexp.symm, ← Int.sign_eq_neg_one_iff_neg,
      ← Int.sign_eq_one_iff_pos, hsign, Int.sign_eq_neg_one_iff_neg, Int.sign_eq_one_iff_pos]
    omega
  · rw [if_neg (by omega)]
    obtain hlt | hgt := lt_or_gt_of_ne hexp
    · have hmag := mag_lt_of_exp_lt h1.digits h2 hlt
      exact ⟨iff_of_true (by omega) hmag, iff_of_false (by omega) hmag.not_gt⟩
    · have hmag := mag_lt_of_exp_lt h2.digits h1 hgt
      exact ⟨iff_of_false (by omega) hmag.not_gt, iff_of_true (by omega) hmag⟩

theorem mag_eq_of_cfOrder {f1 f2 : CFloat} (h1 : Trimmed f1.mant) (h2 : Trimmed f2.mant)
    (hlow : ¬ cfOrder f1 f2 < 0) (hhigh : ¬ 0 < cfOrder f1 f2) : f1.mag = f2.mag := by
  obtain ⟨hless, hmore⟩ := cfOrder_spec h1 h2
  rw [hless] at hlow
  rw [hmore] at hhigh
  exact le_antisymm (not_lt.mp hhigh) (not_lt.mp hlow)

/-! ### Sums and differences -/

theorem CFloat.Normal.zero : cfAlloc.Normal := .inl rfl

theorem CFloat.Proper.negate {f : CFloat} (h : f.Proper) : f.negate.Proper := by
  refine ⟨?_, h.trimmed⟩
  unfold CFloat.negate
  obtain hs | hs := h.sign
  · exact .inr (by rw [hs])
  · exact .inl (by rw [hs]; rfl)

theorem CFloat.negate_val (f : CFloat) : f.negate.val = -f.val := by
  unfold CFloat.val CFloat.negate CFloat.mag CFloat.len
  push_cast
  ring

theorem adder_eq (a b : Int) : adder a b = a + 1 * b := by
  unfold adder
  omega

theorem suber_eq (a b : Int) : suber a b = a + -1 * b := by
  unfold suber
  omega

theorem CFloat.Rough.cfAdd_zero {f : CFloat} (h : f.Rough) : cfAdd f cfAlloc = f ∧ cfAdd cfAlloc f = f := by
  unfold cfAdd cfAlloc
  obtain hs | hs := h.sign <;> simp [hs]

/-- Numbers of the same sign. -/
theorem cfAdd_same {f1 f2 : CFloat} (h1 : f1.Rough) (h2 : f2.Rough) (hsame : f1.sign = f2.sign) :
    ∃ raw : CFloat, raw.Rough ∧ cfAdd f1 f2 = cfClean raw ∧ raw.val = f1.val + f2.val ∧ raw.sign = f1.sign := by
  have hadd : cfAdd f1 f2 = csSum f1 f2 adder := by
    unfold cfAdd
    rw [if_pos]
    obtain hs | hs := h2.sign <;> omega
  have hpos : 0 < f1.mag + (1 : ℤ) * f2.mag := by
    have := h1.mag_pos
    have := h2.mag_pos
    push_cast
    linarith
  obtain ⟨raw, hraw, hsum, hval, hsign⟩ := csSum_spec (.inl rfl) adder_eq h1 h2 hpos
  refine ⟨raw, hraw, hadd.trans hsum, ?_, hsign⟩
  rw [hval]
  unfold CFloat.val
  rw [← hsame]
  push_cast
  ring

/-- Numbers of different signs. -/
theorem cfAdd_opposite {f1 f2 : CFloat} (h1 : f1.Proper) (h2 : f2.Proper) (hopp : f2.sign = -f1.sign) :
    f1.val + f2.val = 0 ∧ cfAdd f1 f2 = cfAlloc ∨
      ∃ raw : CFloat, raw.Rough ∧ cfAdd f1 f2 = cfClean raw ∧ raw.val = f1.val + f2.val := by
  have hadd : cfAdd f1 f2 = if cfOrder f1 f2 < 0 then csSum f2 f1 suber
      else if 0 < cfOrder f1 f2 then csSum f1 f2 suber else cfAlloc := by
    unfold cfAdd
    rw [if_neg (by obtain hs | hs := h1.sign <;> omega), if_neg (by obtain hs | hs := h1.sign <;> omega),
      if_pos (by obtain hs | hs := h1.sign <;> omega)]
  obtain ⟨hless, hmore⟩ := cfOrder_spec h1.trimmed h2.trimmed
  have hval : f1.val + f2.val = f1.sign * (f1.mag + (-1 : ℤ) * f2.mag) := by
    unfold CFloat.val
    rw [hopp]
    push_cast
    ring
  have hval' : f1.val + f2.val = f2.sign * (f2.mag + (-1 : ℤ) * f1.mag) := by
    rw [hval, hopp]
    push_cast
    ring
  rw [hadd]
  split_ifs with hlow hhigh
  · have hpos : 0 < f2.mag + (-1 : ℤ) * f1.mag := by
      have := hless.mp hlow
      push_cast
      linarith
    obtain ⟨raw, hraw, hsum, hrawval, -⟩ := csSum_spec (.inr rfl) suber_eq h2.rough h1.rough hpos
    exact .inr ⟨raw, hraw, hsum, hrawval.trans hval'.symm⟩
  · have hpos : 0 < f1.mag + (-1 : ℤ) * f2.mag := by
      have := hmore.mp hhigh
      push_cast
      linarith
    obtain ⟨raw, hraw, hsum, hrawval, -⟩ := csSum_spec (.inr rfl) suber_eq h1.rough h2.rough hpos
    exact .inr ⟨raw, hraw, hsum, hrawval.trans hval.symm⟩
  · refine .inl ⟨?_, rfl⟩
    rw [hval, mag_eq_of_cfOrder h1.trimmed h2.trimmed hlow hhigh]
    push_cast
    ring

/-- What `CFAdd` returns: the other number where one is zero, zero, or a cleaned sum. -/
theorem cfAdd_cases {f1 f2 : CFloat} (h1 : f1.Normal) (h2 : f2.Normal) :
    ((f1.sign = 0 ∨ f2.sign = 0 ∨ f1.val + f2.val = 0) ∧ (cfAdd f1 f2).Normal ∧
        (cfAdd f1 f2).val = f1.val + f2.val) ∨
      ∃ raw : CFloat, raw.Rough ∧ cfAdd f1 f2 = cfClean raw ∧ raw.val = f1.val + f2.val ∧
        ¬ (f1.sign = 0 ∨ f2.sign = 0 ∨ f1.val + f2.val = 0) := by
  obtain rfl | h1 := h1
  · refine .inl ⟨.inl rfl, ?_⟩
    obtain rfl | h2 := h2
    · exact ⟨.zero, by rw [cfAlloc_val]; simp [cfAdd, cfAlloc, CFloat.val]⟩
    · rw [h2.rough.cfAdd_zero.2, cfAlloc_val, zero_add]
      exact ⟨.inr h2, rfl⟩
  · obtain rfl | h2 := h2
    · rw [h1.rough.cfAdd_zero.1, cfAlloc_val, add_zero]
      exact .inl ⟨.inr (.inl rfl), .inr h1, rfl⟩
    · have hrough : ∀ raw : CFloat, raw.Rough → cfAdd f1 f2 = cfClean raw → raw.val = f1.val + f2.val →
          ∃ raw : CFloat, raw.Rough ∧ cfAdd f1 f2 = cfClean raw ∧ raw.val = f1.val + f2.val ∧
            ¬ (f1.sign = 0 ∨ f2.sign = 0 ∨ f1.val + f2.val = 0) := by
        intro raw hraw hsum hval
        refine ⟨raw, hraw, hsum, hval, ?_⟩
        rintro (hs | hs | hs)
        · obtain hs' | hs' := h1.sign <;> omega
        · obtain hs' | hs' := h2.sign <;> omega
        · have hpos := hraw.mag_pos
          rw [← hraw.abs_val, hval, hs, abs_zero] at hpos
          exact lt_irrefl 0 hpos
      by_cases hsame : f1.sign = f2.sign
      · obtain ⟨raw, hraw, hsum, hval, -⟩ := cfAdd_same h1.rough h2.rough hsame
        exact .inr (hrough raw hraw hsum hval)
      · have hopp : f2.sign = -f1.sign := by
          obtain hs | hs := h1.sign <;> obtain hs' | hs' := h2.sign <;> omega
        obtain ⟨hzero, hadd⟩ | ⟨raw, hraw, hsum, hval⟩ := cfAdd_opposite h1 h2 hopp
        · rw [hadd, hzero, cfAlloc_val]
          exact .inl ⟨.inr (.inr rfl), .zero, rfl⟩
        · exact .inr (hrough raw hraw hsum hval)

/-- A sum that fits is exact. -/
theorem cfAdd_exact {f1 f2 : CFloat} (h1 : f1.Normal) (h2 : f2.Normal) (hshort : Short (f1.val + f2.val)) :
    (cfAdd f1 f2).Normal ∧ (cfAdd f1 f2).val = f1.val + f2.val := by
  obtain ⟨-, hnormal, hval⟩ | ⟨raw, hraw, hsum, hval, -⟩ := cfAdd_cases h1 h2
  · exact ⟨hnormal, hval⟩
  · rw [← hval] at hshort ⊢
    rw [hsum]
    obtain ⟨hproper, hsame⟩ := cfClean_spec hraw hshort
    exact ⟨.inr hproper, hsame⟩

/-- Whether a sum is in normal form. -/
theorem cfAdd_normal_iff {f1 f2 : CFloat} (h1 : f1.Normal) (h2 : f2.Normal) :
    (cfAdd f1 f2).Normal ↔
      (f1.sign = 0 ∨ f2.sign = 0 ∨ f1.val + f2.val = 0) ∨ KeepsForm (f1.val + f2.val) := by
  obtain ⟨hzero, hnormal, -⟩ | ⟨raw, hraw, hsum, hval, hne⟩ := cfAdd_cases h1 h2
  · exact iff_of_true hnormal (.inl hzero)
  · rw [hsum, cfClean_normal_iff hraw, hval]
    exact ⟨.inr, fun h => h.resolve_left hne⟩

theorem cfClean_negate (f : CFloat) : cfClean f.negate = (cfClean f).negate := by
  unfold cfClean CFloat.negate
  dsimp only
  split_ifs <;> rfl

/-- The loop reads the digits of the two numbers only. -/
theorem csLoop_congr {f1 f2 g1 g2 : CFloat} (h1 : ∀ pos, f1.digitAt pos = g1.digitAt pos)
    (h2 : ∀ pos, f2.digitAt pos = g2.digitAt pos) (arith : Int → Int → Int) (n : ℕ) (pos carry : Int)
    (digits : List ℕ) : csLoop arith f1 f2 n pos carry digits = csLoop arith g1 g2 n pos carry digits := by
  induction n generalizing pos carry digits with
  | zero => rfl
  | succ n ih =>
      unfold csLoop
      simp only [h1, h2, ih]

theorem csSum_negate (f1 f2 : CFloat) (arith : Int → Int → Int) :
    csSum f1.negate f2 arith = (csSum f1 f2 arith).negate := by
  have hdigit : ∀ pos, f1.negate.digitAt pos = f1.digitAt pos := fun _ => rfl
  unfold csSum
  dsimp only
  rw [csLoop_congr hdigit fun _ => rfl, ← cfClean_negate]
  rfl

theorem csSum_negate_right (f1 f2 : CFloat) (arith : Int → Int → Int) :
    csSum f1 f2.negate arith = csSum f1 f2 arith := by
  have hdigit : ∀ pos, f2.negate.digitAt pos = f2.digitAt pos := fun _ => rfl
  unfold csSum
  dsimp only
  rw [csLoop_congr (fun _ => rfl) hdigit]
  rfl

theorem CFloat.Normal.sign {f : CFloat} (h : f.Normal) : f.sign = 0 ∨ f.sign = 1 ∨ f.sign = -1 := by
  obtain rfl | h := h
  · exact .inl rfl
  · exact .inr h.sign

theorem CFloat.Normal.negate {f : CFloat} (h : f.Normal) : f.negate.Normal := by
  obtain rfl | h := h
  · exact .inl rfl
  · exact .inr h.negate

theorem CFloat.Normal.eq_zero {f : CFloat} (h : f.Normal) (hs : f.sign = 0) : f = cfAlloc := by
  obtain rfl | h := h
  · rfl
  · obtain hs' | hs' := h.sign <;> omega

/-- A difference is the sum with the negated number. -/
theorem cfSub_eq {f1 f2 : CFloat} (h1 : f1.Normal) (h2 : f2.Normal) : cfSub f1 f2 = cfAdd f1 f2.negate := by
  have hneg : f2.negate.sign = -f2.sign := rfl
  have horder : cfOrder f1 f2.negate = cfOrder f1 f2 := rfl
  unfold cfSub cfAdd
  dsimp only
  rw [hneg, horder, csSum_negate, csSum_negate_right, csSum_negate_right]
  obtain hs | hs | hs := h1.sign <;> obtain hs' | hs' | hs' := h2.sign <;> simp [hs, hs']

/-- A difference that fits is exact. -/
theorem cfSub_exact {f1 f2 : CFloat} (h1 : f1.Normal) (h2 : f2.Normal) (hshort : Short (f1.val - f2.val)) :
    (cfSub f1 f2).Normal ∧ (cfSub f1 f2).val = f1.val - f2.val := by
  rw [sub_eq_add_neg, ← f2.negate_val] at hshort ⊢
  rw [cfSub_eq h1 h2]
  exact cfAdd_exact h1 h2.negate hshort

/-! ### `CFCompare` -/

/-- Whether a difference is in normal form. -/
theorem cfSub_normal_iff {f1 f2 : CFloat} (h1 : f1.Normal) (h2 : f2.Normal) :
    (cfSub f1 f2).Normal ↔
      (f1.sign = 0 ∨ f2.sign = 0 ∨ f1.val - f2.val = 0) ∨ KeepsForm (f1.val - f2.val) := by
  rw [cfSub_eq h1 h2, cfAdd_normal_iff h1 h2.negate, CFloat.negate_val, ← sub_eq_add_neg]
  have hsign : f2.negate.sign = 0 ↔ f2.sign = 0 := by
    unfold CFloat.negate
    dsimp only
    omega
  rw [hsign]

theorem CFloat.Normal.val_pos {f : CFloat} (h : f.Normal) (hs : f.sign = 1) : f.val = f.mag ∧ 0 < f.mag := by
  obtain rfl | h := h
  · cases hs
  · refine ⟨?_, h.mag_pos⟩
    unfold CFloat.val
    rw [hs]
    simp

theorem CFloat.Normal.val_neg {f : CFloat} (h : f.Normal) (hs : f.sign = -1) : f.val = -f.mag ∧ 0 < f.mag := by
  obtain rfl | h := h
  · cases hs
  · refine ⟨?_, h.mag_pos⟩
    unfold CFloat.val
    rw [hs]
    simp

theorem CFloat.Normal.trimmed {f : CFloat} (h : f.Normal) (hs : f.sign ≠ 0) : Trimmed f.mant := by
  obtain rfl | h := h
  · exact absurd rfl hs
  · exact h.trimmed

/-- `CFCompare` is the order of the numbers. -/
theorem cfCompare_spec {f1 f2 : CFloat} (h1 : f1.Normal) (h2 : f2.Normal) :
    (cfCompare f1 f2 < 0 ↔ f1.val < f2.val) ∧ (0 < cfCompare f1 f2 ↔ f2.val < f1.val) := by
  have hzero : ∀ {f : CFloat}, f.Normal → f.sign = 0 → f.val = 0 := fun h hs => by
    rw [h.eq_zero hs, cfAlloc_val]
  have hless : ∀ {f g : CFloat}, f.Normal → g.Normal → f.sign < g.sign → f.val < g.val := by
    intro f g hf hg hlt
    obtain hs | hs | hs := hf.sign
    · rw [hzero hf hs]
      obtain ⟨hval, hpos⟩ := hg.val_pos (by obtain hg' | hg' | hg' := hg.sign <;> omega)
      rw [hval]
      exact hpos
    · obtain hg' | hg' | hg' := hg.sign <;> omega
    · obtain ⟨hval, hpos⟩ := hf.val_neg hs
      rw [hval]
      obtain hg' | hg' | hg' := hg.sign
      · rw [hzero hg hg']
        linarith
      · obtain ⟨hval', hpos'⟩ := hg.val_pos hg'
        rw [hval']
        linarith
      · omega
  unfold cfCompare
  dsimp only
  by_cases hlow : f1.sign < f2.sign
  · rw [if_pos hlow]
    have hval := hless h1 h2 hlow
    exact ⟨iff_of_true (by decide) hval, iff_of_false (by decide) hval.not_gt⟩
  · rw [if_neg hlow]
    by_cases hhigh : f2.sign < f1.sign
    · rw [if_pos hhigh]
      have hval := hless h2 h1 hhigh
      exact ⟨iff_of_false (by decide) hval.not_gt, iff_of_true (by decide) hval⟩
    · rw [if_neg hhigh]
      have hsame : f2.sign = f1.sign := by omega
      obtain hs | hs | hs := h1.sign
      · rw [h1.eq_zero hs, h2.eq_zero (hsame.trans hs)]
        simp [cfOrder, orderDigits, cfAlloc]
      · have hs' := hsame.trans hs
        obtain ⟨hval, -⟩ := h1.val_pos hs
        obtain ⟨hval', -⟩ := h2.val_pos hs'
        obtain ⟨hord, hord'⟩ := cfOrder_spec (h1.trimmed (by omega)) (h2.trimmed (by omega))
        rw [hval, hval', ← hord, ← hord', hs]
        split_ifs <;> omega
      · have hs' := hsame.trans hs
        obtain ⟨hval, -⟩ := h1.val_neg hs
        obtain ⟨hval', -⟩ := h2.val_neg hs'
        obtain ⟨hord, hord'⟩ := cfOrder_spec (h1.trimmed (by omega)) (h2.trimmed (by omega))
        rw [hval, hval', neg_lt_neg_iff, neg_lt_neg_iff, ← hord, ← hord', hs]
        split_ifs <;> omega

/-! ### One form for each number -/

end OpenWatcom.Cfloat
