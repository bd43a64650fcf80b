import OpenWatcom.Cfloat.Sums

/-! # Products of decimal constants

`CFMul` adds up the products with the digits of the second number, from the last one on.  Every product and every sum
is cut to 32 digits, and what is cut off never comes back: a product is exact if and only if no partial result is
longer than 32 digits (`cfMul_exact_iff`).  That of two short mantissas is exact (`cfMul_exact`). -/

namespace OpenWatcom.Cfloat

open OpenWatcom

/-! ### One digit -/

/-- The loop of `SDMul` multiplies by a digit. -/
theorem sdLoop_spec {plyer : ℕ} (hplyer : plyer < 10) {l : List ℕ} (hl : Digits l) (sum : ℕ) (digits : List ℕ)
    (hsum : sum < 9) (hdigits : Digits digits) :
    Digits (sdLoop plyer l sum digits) ∧ (sdLoop plyer l sum digits).length = l.length + 1 + digits.length ∧
      decVal (sdLoop plyer l sum digits) =
        (Nat.ofDigits 10 l * plyer + sum) * 10 ^ digits.length + decVal digits := by
  induction l generalizing sum digits with
  | nil =>
      unfold sdLoop
      refine ⟨hdigits.cons (by omega), by rw [List.length_cons, List.length_nil]; omega, ?_⟩
      rw [decVal_cons, Nat.mod_eq_of_lt (by omega), Nat.ofDigits_nil, Nat.zero_mul, Nat.zero_add]
  | cons d l ih =>
      have hd : d ≤ 9 := Nat.le_of_lt_succ hl.head
      have hprod : d * plyer ≤ 9 * 9 := Nat.mul_le_mul hd (by omega)
      obtain ⟨hdig, hlen, hval⟩ := ih hl.tail ((sum + d * plyer) / 10)
        ((sum + d * plyer) % 10 :: digits) (by omega) (hdigits.cons (by omega))
      unfold sdLoop
      dsimp only
      refine ⟨hdig, by rw [hlen, List.length_cons, List.length_cons]; omega, ?_⟩
      rw [hval, decVal_cons, List.length_cons, Nat.ofDigits_cons, pow_succ]
      have hdiv := Nat.div_add_mod (sum + d * plyer) 10
      generalize (sum + d * plyer) / 10 = q at hdiv ⊢
      generalize (sum + d * plyer) % 10 = r at hdiv ⊢
      have hsplit : (d + 10 * Nat.ofDigits 10 l) * plyer + sum = 10 * (Nat.ofDigits 10 l * plyer + q) + r := by
        have hexpand : (d + 10 * Nat.ofDigits 10 l) * plyer = d * plyer + 10 * (Nat.ofDigits 10 l * plyer) := by ring
        omega
      rw [hsplit]
      ring

/-- A product with a digit that is not zero is cleaned. -/
theorem sdMul_spec {f : CFloat} (hf : f.Rough) {plyer : ℕ} (hplyer : plyer < 10) (h0 : plyer ≠ 0) (byexp : ℤ) :
    ∃ raw : CFloat, raw.Rough ∧ sdMul f plyer byexp = cfClean raw ∧
      raw.mag = f.mag * plyer * (10 : ℚ) ^ (byexp - 1) ∧ raw.sign = f.sign := by
  have hrev : Digits f.mant.reverse := fun d hd => hf.digits d (List.mem_reverse.mp hd)
  obtain ⟨hdigits, hlength, hval⟩ := sdLoop_spec hplyer hrev 0 [] (by decide) fun d hd => nomatch hd
  simp only [List.length_nil, pow_zero, mul_one, add_zero, decVal_nil, List.length_reverse] at hval hlength
  have hval : decVal (sdLoop plyer f.mant.reverse 0 []) = decVal f.mant * plyer := hval
  unfold sdMul
  generalize sdLoop plyer f.mant.reverse 0 [] = digits at hdigits hlength hval ⊢
  refine ⟨⟨f.exp + byexp, f.sign, digits⟩, ⟨hf.sign, hdigits, ?_⟩, rfl, ?_, rfl⟩
  · rw [hval]
    exact Nat.mul_ne_zero hf.nonzero h0
  · unfold CFloat.mag CFloat.len
    dsimp only
    rw [hval, hlength]
    have hexp : f.exp + byexp - ((f.mant.length + 1 : ℕ) : ℤ) = f.exp - f.mant.length + (byexp - 1) := by
      push_cast
      ring
    rw [hexp, zpow_add₀ (by norm_num)]
    push_cast
    ring

/-- A product with the digit zero. -/
theorem sdMul_zero {f : CFloat} (hf : f.Proper) (byexp : ℤ) : sdMul f 0 byexp = cfAlloc := by
  have hrev : Digits f.mant.reverse := fun d hd => hf.trimmed.digits d (List.mem_reverse.mp hd)
  obtain ⟨-, hlength, hval⟩ := sdLoop_spec (by decide : 0 < 10) hrev 0 [] (by decide) fun d hd => nomatch hd
  simp only [List.length_nil, pow_zero, mul_one, add_zero, decVal_nil, Nat.mul_zero] at hval hlength
  refine cfClean_zero (f := ⟨f.exp + byexp, f.sign, sdLoop 0 f.mant.reverse 0 []⟩) ?_ hval
  intro hnil
  change sdLoop 0 f.mant.reverse 0 [] = [] at hnil
  rw [hnil, List.length_nil] at hlength
  omega

/-! ### All digits -/

theorem short_mul_zpow (x : ℚ) (e : ℤ) : Short (x * (10 : ℚ) ^ e) ↔ Short x := by
  have hshift : ∀ (y : ℚ) (i : ℤ), Short y → Short (y * (10 : ℚ) ^ i) := by
    rintro y i ⟨n, j, hn, heq⟩
    refine ⟨n, j + i, hn, ?_⟩
    rw [abs_mul, abs_of_pos (ten_zpow_pos i), heq, zpow_add₀ (by norm_num), mul_assoc]
  constructor
  · intro h
    have hback := hshift _ (-e) h
    rwa [mul_assoc, ← zpow_add₀ (by norm_num), add_neg_cancel, zpow_zero, mul_one] at hback
  · exact hshift x e

/-- The product with each digit, and with each tail of the digits, has 32 significant digits at most. -/
def TailsFit (n : ℕ) (l : List ℕ) : Prop :=
  ∀ d t, d :: t <:+ l → Short ((n * d : ℕ) : ℚ) ∧ Short ((n * decVal (d :: t) : ℕ) : ℚ)

theorem tailsFit_nil (n : ℕ) : TailsFit n [] := fun _ _ h => absurd (List.suffix_nil.mp h) (List.cons_ne_nil _ _)

theorem tailsFit_cons (n d : ℕ) (t : List ℕ) :
    TailsFit n (d :: t) ↔
      (Short ((n * d : ℕ) : ℚ) ∧ Short ((n * decVal (d :: t) : ℕ) : ℚ)) ∧ TailsFit n t := by
  constructor
  · intro h
    exact ⟨h d t (List.suffix_refl _), fun e u hu => h e u (List.suffix_cons_iff.mpr (.inr hu))⟩
  · rintro ⟨hfirst, hrest⟩ e u hu
    obtain heq | hsuffix := List.suffix_cons_iff.mp hu
    · rw [heq]
      obtain ⟨rfl, rfl⟩ := List.cons_eq_cons.mp heq
      exact hfirst
    · exact hrest e u hsuffix

theorem short_zero : Short 0 := ⟨0, 0, by decide, by simp⟩

theorem TailsFit.short {n : ℕ} {l : List ℕ} (h : TailsFit n l) : Short ((n * decVal l : ℕ) : ℚ) := by
  cases l with
  | nil => simpa using short_zero
  | cons d t => exact (h d t (List.suffix_refl _)).2

/-- A natural number with zeros behind its first 32 digits. -/
def cutNat (x : ℕ) : ℕ :=
  decVal ((Nat.digits 10 x).reverse.take cfMaxPrec) * 10 ^ ((Nat.digits 10 x).length - cfMaxPrec)

/-- The product with a tail of the digits, where every partial product and every sum is cut. -/
def partCut (n : ℕ) : List ℕ → ℕ
  | [] => 0
  | d :: t =>
    if d = 0 then partCut n t
    else if partCut n t = 0 then cutNat (n * d) * 10 ^ t.length
    else cutNat (partCut n t + cutNat (n * d) * 10 ^ t.length)

/-- The last sum that is cut keeps its form. -/
def LastKept (n : ℕ) : List ℕ → Prop
  | [] => True
  | d :: t =>
    if d = 0 then LastKept n t
    else if partCut n t = 0 then KeepsForm ((n * d : ℕ) : ℚ)
    else KeepsForm ((partCut n t + cutNat (n * d) * 10 ^ t.length : ℕ) : ℚ)

theorem digits_trimmed {core : List ℕ} (h : Trimmed core) (k : ℕ) :
    (Nat.digits 10 (decVal core * 10 ^ k)).reverse = core ++ List.replicate k 0 := by
  obtain ⟨d, t, rfl, hd⟩ := h.head
  have hval : decVal (d :: t) * 10 ^ k = Nat.ofDigits 10 (d :: t ++ List.replicate k 0).reverse := by
    have happend := decVal_append (d :: t) (List.replicate k 0)
    rw [List.length_replicate, decVal_zeros fun e he => List.eq_of_mem_replicate he, Nat.add_zero] at happend
    exact happend.symm
  rw [hval, Nat.digits_ofDigits 10 (by decide), List.reverse_reverse]
  · intro e he
    obtain he | he := List.mem_append.mp (List.mem_reverse.mp he)
    · exact h.digits e he
    · rw [List.eq_of_mem_replicate he]
      decide
  · intro hne
    rw [List.getLast_reverse]
    exact hd

theorem cutNat_trimmed {core : List ℕ} (h : Trimmed core) (k : ℕ) :
    cutNat (decVal core * 10 ^ k) = decVal (core.take cfMaxPrec) * 10 ^ (core.length - cfMaxPrec + k) := by
  have hlen : (Nat.digits 10 (decVal core * 10 ^ k)).length = core.length + k := by
    rw [← List.length_reverse, digits_trimmed h, List.length_append, List.length_replicate]
  unfold cutNat
  rw [hlen, digits_trimmed h]
  obtain hle | hgt := le_or_gt core.length cfMaxPrec
  · rw [List.take_append, List.take_of_length_le hle, List.take_replicate, decVal_append,
      decVal_zeros fun e he => List.eq_of_mem_replicate he, List.length_replicate, Nat.add_zero, Nat.mul_assoc,
      ← pow_add]
    congr 2
    omega
  · rw [List.take_append_of_le_length hgt.le]
    congr 2
    omega

/-- `CFClean` cuts the number. -/
theorem cfClean_mag {f : CFloat} (h : f.Rough) {n : ℕ} {e : ℤ} (hmag : f.mag = n * (10 : ℚ) ^ e) :
    (cfClean f).mag = cutNat n * (10 : ℚ) ^ e := by
  obtain ⟨core, hcore, hmant, hval, -⟩ := cfClean_core h.digits h.nonzero
  generalize cfClean f = g at hmant hval ⊢
  rw [hmag] at hval
  obtain ⟨k, hk, hn⟩ : ∃ k : ℕ, g.exp - core.length = e + k ∧ n = decVal core * 10 ^ k := by
    obtain hle | hlt := le_or_gt e (g.exp - core.length)
    · obtain ⟨k, hk⟩ := Int.le.dest hle
      refine ⟨k, hk.symm, ?_⟩
      rw [← hk, zpow_add₀ (by norm_num), mul_left_comm, mul_comm _ ((10 : ℚ) ^ e), zpow_natCast] at hval
      have hq := mul_left_cancel₀ (ten_zpow_pos e).ne' hval
      exact_mod_cast hq.symm
    · -- The digits have no zero behind them.
      obtain ⟨k, hk⟩ := Int.le.dest (Int.add_one_le_of_lt hlt)
      have he : e = (g.exp - core.length) + ((k + 1 : ℕ) : ℤ) := by
        push_cast
        omega
      rw [he, zpow_add₀ (by norm_num), mul_left_comm, mul_comm _ ((10 : ℚ) ^ (g.exp - (core.length : ℤ))),
        zpow_natCast] at hval
      have hq := mul_left_cancel₀ (ten_zpow_pos _).ne' hval
      have hnat : decVal core = n * 10 ^ (k + 1) := by exact_mod_cast hq
      refine absurd ⟨n * 10 ^ k, ?_⟩ hcore.not_dvd
      rw [hnat, pow_succ]
      ring
  rw [hn, cutNat_trimmed hcore]
  unfold CFloat.mag CFloat.len
  rw [hmant]
  have hexp : g.exp - ((core.take cfMaxPrec).length : ℤ) = e + ((core.length - cfMaxPrec + k : ℕ) : ℤ) := by
    rw [List.length_take]
    omega
  rw [hexp, zpow_add₀ (by norm_num), zpow_natCast]
  push_cast
  ring

theorem keepsForm_mul_zpow (x : ℚ) (e : ℤ) : KeepsForm (x * (10 : ℚ) ^ e) ↔ KeepsForm x := by
  have hshift : ∀ (y : ℚ) (i : ℤ), KeepsForm y → KeepsForm (y * (10 : ℚ) ^ i) := by
    rintro y i ⟨l, j, hl, heq, hcase⟩
    refine ⟨l, j + i, hl, ?_, hcase⟩
    rw [abs_mul, abs_of_pos (ten_zpow_pos i), heq, zpow_add₀ (by norm_num), mul_assoc]
  constructor
  · intro h
    have hback := hshift _ (-e) h
    rwa [mul_assoc, ← zpow_add₀ (by norm_num), add_neg_cancel, zpow_zero, mul_one] at hback
  · exact hshift x e

/-- Whether a cleaned number is in normal form, from its digits before. -/
theorem cfClean_normal_iff_nat {f : CFloat} (h : f.Rough) {n : ℕ} {e : ℤ} (hmag : f.mag = n * (10 : ℚ) ^ e) :
    (cfClean f).Normal ↔ KeepsForm (n : ℚ) := by
  rw [cfClean_normal_iff h, ← keepsForm_mul_zpow (n : ℚ) e, ← hmag]
  unfold KeepsForm
  rw [h.abs_val, abs_of_nonneg f.mag_nonneg]

/-- What `CFMul` has when it has multiplied with the digits `t`, of which the last is at the position `p`. -/
structure PartProduct (f1 : CFloat) (p : ℤ) (t : List ℕ) (result : CFloat) : Prop where
  form : (result = cfAlloc ∧ decVal t = 0) ∨ (result.Rough ∧ result.sign = f1.sign ∧ decVal t ≠ 0)
  le : result.mag ≤ f1.mag * decVal t * (10 : ℚ) ^ (p - 1)
  exact_iff : result.mag = f1.mag * decVal t * (10 : ℚ) ^ (p - 1) ↔ TailsFit (decVal f1.mant) t
  normal : TailsFit (decVal f1.mant) t → result.Normal
  cut : result.mag = partCut (decVal f1.mant) t * (10 : ℚ) ^ (f1.exp - f1.len + (p - 1))
  normal_iff : result.Normal ↔ LastKept (decVal f1.mant) t

theorem cfAlloc_mag : cfAlloc.mag = 0 := by
  unfold CFloat.mag cfAlloc
  simp [decVal]

/-- A scaled product is short if that of the digits is. -/
theorem short_mag_mul (f1 : CFloat) (n : ℕ) (e : ℤ) :
    Short (f1.mag * n * (10 : ℚ) ^ e) ↔ Short ((decVal f1.mant * n : ℕ) : ℚ) := by
  have hscale : f1.mag * n * (10 : ℚ) ^ e =
      ((decVal f1.mant * n : ℕ) : ℚ) * (10 : ℚ) ^ (f1.exp - f1.len + e) := by
    unfold CFloat.mag
    rw [zpow_add₀ (by norm_num), Nat.cast_mul]
    ring
  rw [hscale, short_mul_zpow]

theorem cfAdd_cfAlloc {g : CFloat} (hg : g = cfAlloc ∨ g.Rough) : cfAdd g cfAlloc = g ∧ cfAdd cfAlloc g = g := by
  obtain rfl | hg := hg
  · decide
  · exact hg.cfAdd_zero

/-- One digit more is one product more. -/
theorem mag_mul_cons (f1 : CFloat) (d : ℕ) (t : List ℕ) (p : ℤ) :
    f1.mag * (decVal (d :: t) : ℕ) * (10 : ℚ) ^ (p - 1) =
      f1.mag * d * (10 : ℚ) ^ (p + t.length - 1) + f1.mag * decVal t * (10 : ℚ) ^ (p - 1) := by
  have hpow : (10 : ℚ) ^ (p + t.length - 1) = (10 : ℚ) ^ t.length * (10 : ℚ) ^ (p - 1) := by
    rw [← zpow_natCast, ← zpow_add₀ (by norm_num)]
    congr 1
    ring
  rw [hpow, decVal_cons]
  push_cast
  ring

section Step

variable {f1 : CFloat} {p : ℤ} {t : List ℕ} {result raw : CFloat} {d : ℕ}

/-- With a digit 0 nothing is added. -/
theorem PartProduct.step_zero (h1 : f1.Proper) (h : PartProduct f1 p t result) :
    PartProduct f1 p (0 :: t) (cfAdd result (sdMul f1 0 (p + t.length))) := by
  have hresult : result = cfAlloc ∨ result.Rough := h.form.imp And.left And.left
  have h0 : decVal (0 :: t) = decVal t := by rw [decVal_cons, Nat.zero_mul, Nat.zero_add]
  have hiff : TailsFit (decVal f1.mant) (0 :: t) ↔ TailsFit (decVal f1.mant) t := by
    rw [tailsFit_cons, h0]
    exact ⟨And.right, fun ht => ⟨⟨by simpa using short_zero, ht.short⟩, ht⟩⟩
  rw [sdMul_zero h1, (cfAdd_cfAlloc hresult).1]
  refine ⟨?_, ?_, ?_, ?_, ?_, ?_⟩
  · rw [h0]
    exact h.form
  · rw [h0]
    exact h.le
  · rw [h0, hiff]
    exact h.exact_iff
  · rw [hiff]
    exact h.normal
  · rw [partCut, if_pos rfl]
    exact h.cut
  · rw [LastKept, if_pos rfl]
    exact h.normal_iff

theorem decVal_cons_ne_zero (hd0 : d ≠ 0) : decVal (d :: t) ≠ 0 := by
  have hlow := le_decVal (l := t) hd0
  have hpos : 0 < 10 ^ t.length := Nat.pow_pos (by decide)
  omega

/-- The product with a digit, as a natural number at its place. -/
theorem digitProduct_nat (hmag : raw.mag = f1.mag * d * (10 : ℚ) ^ (p + t.length - 1)) :
    raw.mag = ((decVal f1.mant * d : ℕ) : ℚ) *
      (10 : ℚ) ^ ((t.length : ℤ) + (f1.exp - f1.len + (p - 1))) := by
  have hplace : (t.length : ℤ) + (f1.exp - f1.len + (p - 1)) = f1.exp - f1.len + (p + t.length - 1) := by ring
  rw [hmag, hplace, zpow_add₀ (by norm_num)]
  unfold CFloat.mag
  push_cast
  ring

/-- What `CFClean` leaves of it. -/
theorem digitProduct_cut (hraw : raw.Rough) (hmag : raw.mag = f1.mag * d * (10 : ℚ) ^ (p + t.length - 1)) :
    (cfClean raw).mag = ((cutNat (decVal f1.mant * d) * 10 ^ t.length : ℕ) : ℚ) *
      (10 : ℚ) ^ (f1.exp - f1.len + (p - 1)) := by
  rw [cfClean_mag hraw (digitProduct_nat hmag), zpow_add₀ (by norm_num), zpow_natCast]
  push_cast
  ring

/-- The first digit that is not zero. -/
theorem PartProduct.step_first (h : PartProduct f1 p t cfAlloc) (hzero : decVal t = 0) (hd0 : d ≠ 0)
    (hraw : raw.Rough) (hmag : raw.mag = f1.mag * d * (10 : ℚ) ^ (p + t.length - 1)) (hsign : raw.sign = f1.sign) :
    PartProduct f1 p (d :: t) (cfAdd cfAlloc (cfClean raw)) := by
  have hclean := hraw.cleaned
  have hpart := mag_mul_cons f1 d t p
  rw [← hmag, hzero, Nat.cast_zero, mul_zero, zero_mul, add_zero] at hpart
  have hdigit : Short raw.mag ↔ Short ((decVal f1.mant * d : ℕ) : ℚ) := by
    rw [hmag, short_mag_mul]
  have ht : TailsFit (decVal f1.mant) t := by
    apply h.exact_iff.mp
    rw [cfAlloc_mag, hzero]
    simp
  have hiff : TailsFit (decVal f1.mant) (d :: t) ↔ Short raw.mag := by
    rw [tailsFit_cons, ← hdigit, ← short_mag_mul f1 _ (p - 1), hpart]
    exact ⟨fun hs => hs.1.1, fun hs => ⟨⟨hs, hs⟩, ht⟩⟩
  have hnone : partCut (decVal f1.mant) t = 0 := by
    have hcut := h.cut
    rw [cfAlloc_mag] at hcut
    have hq := (mul_eq_zero.mp hcut.symm).resolve_right (ten_zpow_pos _).ne'
    exact_mod_cast hq
  rw [(cfAdd_cfAlloc (.inr hclean.rough)).2]
  refine ⟨.inr ⟨hclean.rough, hclean.sign.trans hsign, decVal_cons_ne_zero hd0⟩, ?_, ?_, ?_, ?_, ?_⟩
  · rw [hpart]
    exact hclean.le
  · rw [hpart, hiff]
    exact hclean.exact_iff
  · rw [hiff]
    exact fun hs => .inr (hclean.proper_iff.mpr (hclean.keeps hs))
  · rw [partCut, if_neg hd0, if_pos hnone]
    exact digitProduct_cut hraw hmag
  · rw [LastKept, if_neg hd0, if_pos hnone]
    exact cfClean_normal_iff_nat hraw (digitProduct_nat hmag)

/-- A digit that is not zero, with products before it. -/
theorem PartProduct.step_add (h : PartProduct f1 p t result) (hres : result.Rough) (hressign : result.sign = f1.sign)
    (hd0 : d ≠ 0) (hraw : raw.Rough) (hmag : raw.mag = f1.mag * d * (10 : ℚ) ^ (p + t.length - 1))
    (hsign : raw.sign = f1.sign) : PartProduct f1 p (d :: t) (cfAdd result (cfClean raw)) := by
  have hclean := hraw.cleaned
  have hpart := mag_mul_cons f1 d t p
  rw [← hmag] at hpart
  have hdigit : Short raw.mag ↔ Short ((decVal f1.mant * d : ℕ) : ℚ) := by
    rw [hmag, short_mag_mul]
  have hsame : result.sign = (cfClean raw).sign := by rw [hressign, hclean.sign, hsign]
  obtain ⟨raw2, hraw2, hadd, hval2, hsign2⟩ := cfAdd_same hres hclean.rough hsame
  have hmag2 : raw2.mag = result.mag + (cfClean raw).mag := by
    unfold CFloat.val at hval2
    rw [hsign2, ← hsame] at hval2
    obtain hs | hs := hres.sign
    · rw [hs] at hval2
      push_cast at hval2
      linarith
    · rw [hs] at hval2
      push_cast at hval2
      linarith
  have hclean2 := hraw2.cleaned
  have hle := h.le
  have hle1 := hclean.le
  have hle2 := hclean2.le
  have hwhole : Short (f1.mag * (decVal (d :: t) : ℕ) * (10 : ℚ) ^ (p - 1)) ↔
      Short ((decVal f1.mant * decVal (d :: t) : ℕ) : ℚ) := short_mag_mul f1 _ _
  have hsome : partCut (decVal f1.mant) t ≠ 0 := by
    intro hnone
    have hpos := hres.mag_pos
    rw [h.cut, hnone, Nat.cast_zero, zero_mul] at hpos
    exact lt_irrefl 0 hpos
  have hnat2 : raw2.mag =
      ((partCut (decVal f1.mant) t + cutNat (decVal f1.mant * d) * 10 ^ t.length : ℕ) : ℚ) *
        (10 : ℚ) ^ (f1.exp - f1.len + (p - 1)) := by
    rw [hmag2, h.cut, digitProduct_cut hraw hmag, Nat.cast_add, add_mul]
  -- Nothing is cut off if both summands and the sum are short.
  have hsum : Short raw.mag → TailsFit (decVal f1.mant) t →
      raw2.mag = raw.mag + f1.mag * decVal t * (10 : ℚ) ^ (p - 1) := fun hshort ht => by
    rw [hmag2, h.exact_iff.mpr ht, hclean.exact_iff.mpr hshort, add_comm]
  rw [hadd]
  refine ⟨.inr ⟨hclean2.rough, (hclean2.sign.trans hsign2).trans hressign, decVal_cons_ne_zero hd0⟩,
    ?_, ?_, ?_, ?_, ?_⟩
  · rw [hpart]
    linarith
  · rw [tailsFit_cons, ← hdigit, ← hwhole, hpart]
    constructor
    · intro heq
      have heq2 : (cfClean raw2).mag = raw2.mag := by linarith
      have heq1 : (cfClean raw).mag = raw.mag := by linarith
      have heq0 : result.mag = f1.mag * decVal t * (10 : ℚ) ^ (p - 1) := by linarith
      have hshort2 := hclean2.exact_iff.mp heq2
      rw [hmag2, heq0, heq1, add_comm] at hshort2
      exact ⟨⟨hclean.exact_iff.mp heq1, hshort2⟩, h.exact_iff.mp heq0⟩
    · rintro ⟨⟨hshort1, hshort2⟩, ht⟩
      rw [← hsum hshort1 ht] at hshort2 ⊢
      exact hclean2.exact_iff.mpr hshort2
  · rw [tailsFit_cons, ← hdigit, ← hwhole, hpart]
    rintro ⟨⟨hshort1, hshort2⟩, ht⟩
    rw [← hsum hshort1 ht] at hshort2
    exact .inr (hclean2.proper_iff.mpr (hclean2.keeps hshort2))
  · rw [partCut, if_neg hd0, if_neg hsome]
    exact cfClean_mag hraw2 hnat2
  · rw [LastKept, if_neg hd0, if_neg hsome]
    exact cfClean_normal_iff_nat hraw2 hnat2

/-- The step of the loop of `CFMul`. -/
theorem PartProduct.step (h1 : f1.Proper) (h : PartProduct f1 p t result) (hd : d < 10) :
    PartProduct f1 p (d :: t) (cfAdd result (sdMul f1 d (p + t.length))) := by
  by_cases hd0 : d = 0
  · subst hd0
    exact h.step_zero h1
  · obtain ⟨raw, hraw, hmul, hmag, hsign⟩ := sdMul_spec h1.rough hd hd0 (p + t.length)
    rw [hmul]
    obtain ⟨rfl, hzero⟩ | ⟨hres, hressign, -⟩ := h.form
    · exact h.step_first hzero hd0 hraw hmag hsign
    · exact h.step_add hres hressign hd0 hraw hmag hsign

end Step

/-- The loop of `CFMul` over the digits that are left, the last one first. -/
theorem mulLoop_spec {f1 : CFloat} (h1 : f1.Proper) {p : ℤ} (rest t : List ℕ) (result : CFloat) (hrest : Digits rest)
    (h : PartProduct f1 p t result) :
    PartProduct f1 p (rest.reverse ++ t) (mulLoop f1 rest (p + t.length) result) := by
  induction rest generalizing t result with
  | nil => exact h
  | cons d rest ih =>
      have hnext := ih (d :: t) _ hrest.tail (h.step h1 hrest.head)
      rw [List.reverse_cons, List.append_assoc, List.singleton_append]
      unfold mulLoop
      have hplace : p + t.length + 1 = p + (d :: t).length := by
        rw [List.length_cons]
        push_cast
        ring
      rw [hplace]
      exact hnext

/-- What is known of the loop of `CFMul` at its end. -/
theorem cfMul_part {f1 f2 : CFloat} (h1 : f1.Proper) (h2 : f2.Proper) :
    ∃ result : CFloat, PartProduct f1 (f2.exp - f2.len + 1) f2.mant result ∧ result.Rough ∧
      cfMul f1 f2 = { result with sign := f1.sign * f2.sign } := by
  have hrev : Digits f2.mant.reverse := fun d hd => h2.trimmed.digits d (List.mem_reverse.mp hd)
  have hstart : PartProduct f1 (f2.exp - f2.len + 1) [] cfAlloc := by
    refine ⟨.inl ⟨rfl, rfl⟩, ?_, ?_, fun _ => .zero, ?_, iff_of_true .zero trivial⟩
    · rw [cfAlloc_mag, decVal_nil]
      simp
    · refine iff_of_true ?_ (tailsFit_nil _)
      rw [cfAlloc_mag, decVal_nil]
      simp
    · rw [cfAlloc_mag, partCut]
      simp
  have hpart := mulLoop_spec h1 f2.mant.reverse [] cfAlloc hrev hstart
  rw [List.reverse_reverse, List.append_nil, List.length_nil, Nat.cast_zero, add_zero] at hpart
  refine ⟨_, hpart, ?_, ?_⟩
  · obtain ⟨-, hzero⟩ | ⟨hrough, -, -⟩ := hpart.form
    · exact absurd hzero h2.trimmed.pos.ne'
    · exact hrough
  · unfold cfMul
    dsimp only
    rw [if_neg]
    obtain hs | hs := h1.sign <;> obtain hs' | hs' := h2.sign <;> rw [hs, hs'] <;> decide

theorem normal_iff_of_sign {f : CFloat} (h : f.sign = 1 ∨ f.sign = -1) : f.Normal ↔ Trimmed f.mant := by
  constructor
  · rintro (rfl | hproper)
    · obtain hs | hs := h
      · exact absurd hs (by decide)
      · exact absurd hs (by decide)
    · exact hproper.trimmed
  · exact fun htrim => .inr ⟨h, htrim⟩

/-- The digits of the factors that `CFMul` multiplies without a loss. -/
def MulFits (f1 f2 : CFloat) : Prop := TailsFit (decVal f1.mant) f2.mant

theorem mul_sign {f1 f2 : CFloat} (h1 : f1.Proper) (h2 : f2.Proper) :
    f1.sign * f2.sign = 1 ∨ f1.sign * f2.sign = -1 := by
  obtain hs | hs := h1.sign <;> obtain hs' | hs' := h2.sign <;> simp [hs, hs']

/-- When a product is exact. -/
theorem cfMul_exact_iff {f1 f2 : CFloat} (h1 : f1.Normal) (h2 : f2.Normal) :
    (cfMul f1 f2).val = f1.val * f2.val ↔ f1.sign = 0 ∨ f2.sign = 0 ∨ MulFits f1 f2 := by
  obtain rfl | h1 := h1
  · refine iff_of_true ?_ (.inl rfl)
    rw [cfAlloc_val, zero_mul]
    unfold cfMul
    simp [cfAlloc, CFloat.val]
  · obtain rfl | h2 := h2
    · refine iff_of_true ?_ (.inr (.inl rfl))
      rw [cfAlloc_val, mul_zero]
      unfold cfMul
      simp [cfAlloc, CFloat.val]
    · obtain ⟨result, hpart, hrough, hmul⟩ := cfMul_part h1 h2
      have hsigns : ¬ (f1.sign = 0 ∨ f2.sign = 0) := by
        obtain hs | hs := h1.sign <;> obtain hs' | hs' := h2.sign <;> omega
      have hmag : f1.mag * f2.mag = f1.mag * decVal f2.mant * (10 : ℚ) ^ (f2.exp - f2.len + 1 - 1) := by
        rw [add_sub_cancel_right, mul_assoc]
        rfl
      have hval : (cfMul f1 f2).val = ((f1.sign * f2.sign : ℤ) : ℚ) * result.mag := by
        rw [hmul]
        rfl
      have hprod : f1.val * f2.val = ((f1.sign * f2.sign : ℤ) : ℚ) * (f1.mag * f2.mag) := by
        unfold CFloat.val
        push_cast
        ring
      have hne : ((f1.sign * f2.sign : ℤ) : ℚ) ≠ 0 := by
        obtain hs | hs := mul_sign h1 h2 <;> rw [hs] <;> decide
      rw [hval, hprod, mul_right_inj' hne, hmag, hpart.exact_iff, ← or_assoc]
      exact ⟨.inr, fun h => h.resolve_left hsigns⟩

/-- A product without a loss is in normal form. -/
theorem cfMul_normal {f1 f2 : CFloat} (h1 : f1.Normal) (h2 : f2.Normal)
    (h : f1.sign = 0 ∨ f2.sign = 0 ∨ MulFits f1 f2) : (cfMul f1 f2).Normal := by
  have hzero : f1.sign * f2.sign = 0 → cfMul f1 f2 = cfAlloc := by
    intro hs
    unfold cfMul
    dsimp only
    rw [if_pos hs]
  obtain hs | hs | hfits := h
  · rw [hzero (by rw [hs, zero_mul])]
    exact .zero
  · rw [hzero (by rw [hs, mul_zero])]
    exact .zero
  · obtain rfl | h1 := h1
    · rw [hzero (Int.zero_mul _)]
      exact .zero
    · obtain rfl | h2 := h2
      · rw [hzero (Int.mul_zero _)]
        exact .zero
      · obtain ⟨result, hpart, hrough, hmul⟩ := cfMul_part h1 h2
        rw [hmul]
        obtain rfl | hproper := hpart.normal hfits
        · obtain hs | hs := hrough.sign
          · exact absurd hs (by decide)
          · exact absurd hs (by decide)
        · exact .inr ⟨mul_sign h1 h2, hproper.trimmed⟩

/-- When a product is in normal form. -/
theorem cfMul_normal_iff {f1 f2 : CFloat} (h1 : f1.Normal) (h2 : f2.Normal) :
    (cfMul f1 f2).Normal ↔ f1.sign = 0 ∨ f2.sign = 0 ∨ LastKept (decVal f1.mant) f2.mant := by
  by_cases hzero : f1.sign = 0 ∨ f2.sign = 0
  · refine iff_of_true (cfMul_normal h1 h2 ?_) ?_
    · exact hzero.imp_right .inl
    · exact hzero.imp_right .inl
  · have hp1 : f1.Proper := h1.resolve_left fun h => hzero (.inl (by rw [h]; rfl))
    have hp2 : f2.Proper := h2.resolve_left fun h => hzero (.inr (by rw [h]; rfl))
    obtain ⟨result, hpart, hrough, hmul⟩ := cfMul_part hp1 hp2
    rw [← or_assoc, or_iff_right hzero, ← hpart.normal_iff, hmul, normal_iff_of_sign hrough.sign,
      normal_iff_of_sign (f := { result with sign := f1.sign * f2.sign }) (mul_sign hp1 hp2)]

theorem tailsFit_of_lt {n : ℕ} {l : List ℕ} (h : n * decVal l < 10 ^ cfMaxPrec) : TailsFit n l := by
  have hnat : ∀ m : ℕ, m ≤ n * decVal l → Short (m : ℚ) := fun m hm =>
    ⟨m, 0, lt_of_le_of_lt hm h, by rw [zpow_zero, mul_one, Nat.abs_cast]⟩
  rintro d t ⟨front, rfl⟩
  have htail : decVal (d :: t) ≤ decVal (front ++ d :: t) := by
    rw [decVal_append]
    exact Nat.le_add_left _ _
  have hdigit : d ≤ decVal (d :: t) := by
    rw [decVal_cons]
    exact le_trans (Nat.le_mul_of_pos_right _ (Nat.pow_pos (by decide))) (Nat.le_add_right _ _)
  exact ⟨hnat _ (Nat.mul_le_mul_left _ (hdigit.trans htail)), hnat _ (Nat.mul_le_mul_left _ htail)⟩

/-- A product is exact if that of the mantissas has 32 digits at most. -/
theorem cfMul_exact {f1 f2 : CFloat} (h1 : f1.Proper) (h2 : f2.Proper)
    (hfit : decVal f1.mant * decVal f2.mant < 10 ^ cfMaxPrec) :
    (cfMul f1 f2).Normal ∧ (cfMul f1 f2).val = f1.val * f2.val := by
  have hfits : f1.sign = 0 ∨ f2.sign = 0 ∨ MulFits f1 f2 := .inr (.inr (tailsFit_of_lt hfit))
  exact ⟨cfMul_normal (.inr h1) (.inr h2) hfits, (cfMul_exact_iff (.inr h1) (.inr h2)).mpr hfits⟩

end OpenWatcom.Cfloat
