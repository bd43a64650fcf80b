import OpenWatcom.Cfloat.Division

/-! # What the decimal arithmetic promises

Exact sums, differences and products where they fit, results in normal form, an order that `CFCompare` tells, and
conversions of integers that lose nothing (`Sound`).  `CFClean` looks for zeros before it cuts a number, and `CFTrunc`
and `CFRound` do not look for them at all, so that a result may end in zeros; and `CFMul` may lose digits of a product
that would fit.  `FormKept` says when none of this happens, and `sound_iff` that it decides. -/

namespace OpenWatcom.Cfloat

open OpenWatcom

/-- The results of all operations. -/
def results (f1 f2 f : CFloat) (str : List Char) (data lo32 hi32 : BitVec 32) : List CFloat :=
  [cfAdd f1 f2, cfSub f1 f2, cfMul f1 f2, cfDiv f1 f2, cfTrunc f, cfRound f, cfCnvSF str, cfCnvI32F data,
    cfCnvU32F data, cfCnvU64F lo32 hi32, cfCnvI64F lo32 hi32]

/-- What the arithmetic promises. -/
structure Sound (f1 f2 f : CFloat) (str : List Char) (data lo32 hi32 : BitVec 32) : Prop where
  add : Short (f1.val + f2.val) → (cfAdd f1 f2).val = f1.val + f2.val
  sub : Short (f1.val - f2.val) → (cfSub f1 f2).val = f1.val - f2.val
  mul : Short (f1.val * f2.val) → (cfMul f1 f2).val = f1.val * f2.val
  normal : ∀ r ∈ results f1 f2 f str data lo32 hi32, r.Normal
  compare : ∀ r ∈ results f1 f2 f str data lo32 hi32, ∀ s ∈ results f1 f2 f str data lo32 hi32,
    (cfCompare r s < 0 ↔ r.val < s.val) ∧ (0 < cfCompare r s ↔ s.val < r.val)
  signed32 : cfCnvF32 (cfCnvI32F data) = data
  unsigned32 : cfCnvF32 (cfCnvU32F data) = data
  unsigned64 : cfCnvF64 (cfCnvU64F lo32 hi32) = hi32 ++ lo32
  signed64 : cfCnvF64 (cfCnvI64F lo32 hi32) = hi32 ++ lo32

/-- The operands with which no result ends in zeros and no product loses digits. -/
structure FormKept (f1 f2 f : CFloat) (str : List Char) : Prop where
  add : (f1.sign = 0 ∨ f2.sign = 0 ∨ f1.val + f2.val = 0) ∨ KeepsForm (f1.val + f2.val)
  sub : (f1.sign = 0 ∨ f2.sign = 0 ∨ f1.val - f2.val = 0) ∨ KeepsForm (f1.val - f2.val)
  mul : f1.sign = 0 ∨ f2.sign = 0 ∨
    (Short (f1.val * f2.val) → MulFits f1 f2) ∧ LastKept (decVal f1.mant) f2.mant
  trunc : f.exp ≤ 0 ∨ f.len ≤ f.exp ∨ f.access (f.exp - 1) ≠ 0
  round : f.exp ≤ 0 ∨ f.len ≤ f.exp ∨
    if RoundsUp f then KeepsForm (decVal (f.mant.take f.exp.toNat) + 1) else f.access (f.exp - 1) ≠ 0
  text : decVal (mantDigits str) = 0 ∨ KeepsForm (decVal (mantDigits str))

theorem results_normal {f1 f2 f : CFloat} (h1 : f1.Normal) (h2 : f2.Normal) (hf : f.Normal) {str : List Char}
    (h : FormKept f1 f2 f str) (data lo32 hi32 : BitVec 32) :
    ∀ r ∈ results f1 f2 f str data lo32 hi32, r.Normal := by
  unfold results
  simp only [List.forall_mem_cons]
  refine ⟨(cfAdd_normal_iff h1 h2).mpr h.add, (cfSub_normal_iff h1 h2).mpr h.sub,
    (cfMul_normal_iff h1 h2).mpr (h.mul.imp_right (Or.imp_right And.right)),
    cfDiv_normal h1 h2, (cfTrunc_normal_iff hf).mpr h.trunc, (cfRound_normal_iff hf).mpr h.round,
    (cfCnvSF_normal_iff str).mpr h.text, (cfCnvLongToF_spec data true).1, (cfCnvLongToF_spec data false).1,
    (cfCnvU64F_spec lo32 hi32).1, (cfCnvI64F_spec lo32 hi32).1, fun r hr => nomatch hr⟩

theorem sound_of_formKept {f1 f2 f : CFloat} (h1 : f1.Normal) (h2 : f2.Normal) (hf : f.Normal) {str : List Char}
    (h : FormKept f1 f2 f str) (data lo32 hi32 : BitVec 32) : Sound f1 f2 f str data lo32 hi32 := by
  have hnormal := results_normal h1 h2 hf h data lo32 hi32
  have hmul : Short (f1.val * f2.val) → (cfMul f1 f2).val = f1.val * f2.val := by
    intro hshort
    apply (cfMul_exact_iff h1 h2).mpr
    exact h.mul.imp_right (Or.imp_right fun hboth => hboth.1 hshort)
  exact {
    add := fun hshort => (cfAdd_exact h1 h2 hshort).2
    sub := fun hshort => (cfSub_exact h1 h2 hshort).2
    mul := hmul
    normal := hnormal
    compare := fun r hr s hs => cfCompare_spec (hnormal r hr) (hnormal s hs)
    signed32 := cfCnvF32_cfCnvLongToF data true
    unsigned32 := cfCnvF32_cfCnvLongToF data false
    unsigned64 := cfCnvF64_cfCnvU64F lo32 hi32
    signed64 := cfCnvF64_cfCnvI64F lo32 hi32 }

theorem formKept_of_sound {f1 f2 f : CFloat} (h1 : f1.Normal) (h2 : f2.Normal) (hf : f.Normal) {str : List Char}
    {data lo32 hi32 : BitVec 32} (h : Sound f1 f2 f str data lo32 hi32) : FormKept f1 f2 f str := by
  have hnormal := h.normal
  unfold results at hnormal
  simp only [List.forall_mem_cons] at hnormal
  obtain ⟨hadd, hsub, hprod, -, htrunc, hround, htext, -⟩ := hnormal
  have hmul : f1.sign = 0 ∨ f2.sign = 0 ∨
      (Short (f1.val * f2.val) → MulFits f1 f2) ∧ LastKept (decVal f1.mant) f2.mant := by
    by_cases hzero : f1.sign = 0 ∨ f2.sign = 0
    · exact hzero.imp_right .inl
    · have hlast := (cfMul_normal_iff h1 h2).mp hprod
      rw [← or_assoc, or_iff_right hzero] at hlast
      refine .inr (.inr ⟨fun hshort => ?_, hlast⟩)
      have hexact := (cfMul_exact_iff h1 h2).mp (h.mul hshort)
      rwa [← or_assoc, or_iff_right hzero] at hexact
  exact {
    add := (cfAdd_normal_iff h1 h2).mp hadd
    sub := (cfSub_normal_iff h1 h2).mp hsub
    mul := hmul
    trunc := (cfTrunc_normal_iff hf).mp htrunc
    round := (cfRound_normal_iff hf).mp hround
    text := (cfCnvSF_normal_iff str).mp htext }

/-- The promises hold for the operands that keep the form, and for no others. -/
theorem sound_iff {f1 f2 f : CFloat} (h1 : f1.Normal) (h2 : f2.Normal) (hf : f.Normal) (str : List Char)
    (data lo32 hi32 : BitVec 32) : Sound f1 f2 f str data lo32 hi32 ↔ FormKept f1 f2 f str :=
  ⟨formKept_of_sound h1 h2 hf, fun h => sound_of_formKept h1 h2 hf h data lo32 hi32⟩

/-- Three and four, with the text of a half. -/
theorem sound_three_four : CFloat.Normal ⟨1, 1, [3]⟩ ∧ CFloat.Normal ⟨1, 1, [4]⟩ ∧
    (Sound ⟨1, 1, [3]⟩ ⟨1, 1, [4]⟩ ⟨1, 1, [3]⟩ ['0', '.', '5'] 7 8 9 ↔
      FormKept ⟨1, 1, [3]⟩ ⟨1, 1, [4]⟩ ⟨1, 1, [3]⟩ ['0', '.', '5']) := by
  have h3 : CFloat.Normal ⟨1, 1, [3]⟩ := .inr ⟨.inl rfl, (by decide : Trimmed [3])⟩
  have h4 : CFloat.Normal ⟨1, 1, [4]⟩ := .inr ⟨.inl rfl, (by decide : Trimmed [4])⟩
  exact ⟨h3, h4, sound_iff h3 h4 h3 ['0', '.', '5'] 7 8 9⟩

/-- The number 100.5 is cut to 100 with the zeros, which `CFCompare` takes for a number larger than 100. -/
theorem not_sound_trunc :
    CFloat.Normal ⟨3, 1, [1, 0, 0, 5]⟩ ∧ ¬ (cfTrunc ⟨3, 1, [1, 0, 0, 5]⟩).Normal ∧
      cfCompare (cfTrunc ⟨3, 1, [1, 0, 0, 5]⟩) (cfCnvI32F 100) = 1 ∧
      ¬ ∀ (f1 f2 f : CFloat) (str : List Char) (data lo32 hi32 : BitVec 32),
        f1.Normal → f2.Normal → f.Normal → Sound f1 f2 f str data lo32 hi32 := by
  have hnormal : CFloat.Normal ⟨3, 1, [1, 0, 0, 5]⟩ := .inr ⟨.inl rfl, (by decide : Trimmed [1, 0, 0, 5])⟩
  have hnot : ¬ (cfTrunc ⟨3, 1, [1, 0, 0, 5]⟩).Normal := by
    rw [cfTrunc_normal_iff hnormal]
    decide
  refine ⟨hnormal, hnot, ?_, fun h => ?_⟩
  · decide +kernel
  · have hsound := h _ _ _ [] 0 0 0 hnormal hnormal hnormal
    apply hnot
    apply hsound.normal
    unfold results
    simp

end OpenWatcom.Cfloat
