import OpenWatcom.Cfloat.DivArray

/-! # The value of a decimal quotient

A step takes the multiple of the divisor off (`divStep_value`), so the 32 digits are the quotient without its
fraction, and the next digit and the remainder say how the last one is rounded (`cfDiv_right`). -/

namespace OpenWatcom.Cfloat

open OpenWatcom

/-! ### The digits -/

/-- A step leaves what is left when a multiple of the divisor is taken off, and the digits behind the window. -/
theorem divStep_value {v rest : List ℕ} (hv : Ready v) (h : Window v rest) {n : ℕ}
    (hn : rest.length = v.length + (n + 1)) :
    decVal rest = (divStep v rest).1 * decVal v * 10 ^ (n + 1) + decVal (divStep v rest).2.tail ∧
      (divStep v rest).2.tail.drop v.length = rest.drop (v.length + 1) := by
  obtain ⟨hdigit, left, hrest, hdig, hlen, hval⟩ := divStep_spec hv h
  have hVlt := hv.lt
  have hmod := Nat.mod_lt (decVal (rest.take v.length)) hv.pos
  have hdivmod := Nat.div_add_mod (decVal (rest.take v.length)) (decVal v)
  have hsplit := decVal_append (rest.take v.length) (rest.drop v.length)
  have hdroplen : (rest.drop v.length).length = n + 1 := by
    rw [List.length_drop]
    omega
  rw [List.take_append_drop, hdroplen] at hsplit
  obtain ⟨a, l, rfl⟩ := List.exists_cons_of_length_pos (by
    obtain ⟨v1, v2, t, rfl, -⟩ := hv.form
    rw [hlen, List.length_cons]
    omega : 0 < left.length)
  rw [List.length_cons] at hlen
  rw [decVal_cons] at hval
  have ha : a = 0 := by
    by_contra hne
    have hone : 1 * 10 ^ l.length ≤ a * 10 ^ l.length := Nat.mul_le_mul_right _ (Nat.pos_of_ne_zero hne)
    rw [← hlen, pow_succ] at hVlt
    omega
  rw [ha, Nat.zero_mul, Nat.zero_add] at hval
  rw [hdigit, hrest, List.cons_append, List.tail_cons]
  constructor
  · rw [decVal_append, hdroplen, hval, hsplit, ← Nat.add_assoc, ← Nat.add_mul]
    congr 2
    rw [Nat.mul_comm, hdivmod]
  · rw [← hlen, List.drop_append, Nat.add_sub_cancel_left, List.drop_of_length_le (Nat.le_succ _), List.nil_append,
      List.drop_drop]

/-- The loop of `CFDiv` divides: the digits times the divisor and what is left are the dividend. -/
theorem divLoop_value {v : List ℕ} (hv : Ready v) (n k : ℕ) (rest digits : List ℕ) (h : Window v rest)
    (hlen : rest.length = v.length + (n + k)) :
    decVal rest + decVal digits * decVal v * 10 ^ (n + k + 1) =
        decVal (divLoop v n rest digits).1 * decVal v * 10 ^ (k + 1) + decVal (divLoop v n rest digits).2 ∧
      (divLoop v n rest digits).2.length = v.length + k ∧
      (divLoop v n rest digits).2.drop v.length = rest.drop (v.length + n) := by
  induction n generalizing rest digits with
  | zero =>
      rw [Nat.zero_add] at hlen
      refine ⟨?_, hlen, by rw [Nat.add_zero]; rfl⟩
      rw [divLoop, Nat.zero_add]
      exact Nat.add_comm _ _
  | succ n ih =>
      obtain ⟨-, hnext, hcount, -⟩ := divStep_next hv h (by omega)
      obtain ⟨hstep, hdrop⟩ := divStep_value hv h (by omega : rest.length = v.length + (n + k + 1))
      obtain ⟨hval, hlength, hdrops⟩ := ih (divStep v rest).2.tail (digits ++ [(divStep v rest).1]) hnext (by omega)
      rw [decVal_append, decVal_singleton, List.length_singleton, pow_one] at hval
      unfold divLoop
      refine ⟨?_, hlength, ?_⟩
      · have hpow : n + 1 + k + 1 = n + k + 1 + 1 := by omega
        rw [← hval, hstep, hpow, pow_succ 10 (n + k + 1)]
        ring
      · rw [hdrops, ← List.drop_drop, hdrop, List.drop_drop]
        congr 1
        omega

/-! ### The operands -/

theorem divScale_pos {f : CFloat} (h : f.Proper) : 0 < divScale (f.access 0) ∧ divScale (f.access 0) < 10 := by
  obtain ⟨d, t, hmant, hd⟩ := h.trimmed.head
  have hdigits := h.trimmed.digits
  rw [hmant] at hdigits
  have hfirst : f.access 0 = d := by
    unfold CFloat.access
    rw [hmant]
    rfl
  obtain ⟨hle, hge, -⟩ := divScale_spec hd hdigits.head
  rw [hfirst]
  refine ⟨Nat.pos_of_ne_zero fun h0 => ?_, by omega⟩
  rw [h0] at hge
  omega

theorem divDivisor_value {f2 : CFloat} (h : f2.Proper) :
    ∃ i, decVal (divDivisor f2).mant = decVal f2.mant * divScale (f2.access 0) * 10 ^ i ∧
      (divDivisor f2).mant.length = f2.mant.length + 1 + i := by
  obtain ⟨-, hlen, hval⟩ := scalarMultiply_spec h.trimmed.digits (divScale_pos h).2
  unfold divDivisor
  dsimp only
  split_ifs
  · refine ⟨1, ?_, ?_⟩
    · unfold expandCF
      rw [decVal_replicate, hval]
    · unfold expandCF
      rw [List.length_append, List.length_replicate, hlen]
  · exact ⟨0, by rw [hval, pow_zero, Nat.mul_one], by rw [hlen]⟩

theorem divDividend_value (f1 f2 : CFloat) :
    ∃ i, (divDividend f1 f2).mant = (scalarMultiply f1 (divScale (f2.access 0))).mant ++ List.replicate i 0 := by
  unfold divDividend
  dsimp only
  split_ifs
  · exact ⟨_, rfl⟩
  · exact ⟨0, by rw [List.replicate_zero, List.append_nil]⟩

/-- The quotient, with its 32nd digit before the point. -/
def scaledQuotient (f1 f2 : CFloat) : ℚ := f1.mag / f2.mag * (10 : ℚ) ^ (31 - (f1.exp - f2.exp))

/-- The dividend of the loop, with the zeros of `ue`. -/
def divStart (f1 f2 : CFloat) : List ℕ := (divDividend f1 f2).mant ++ List.replicate cfMaxPrec 0

/-- The digits of the quotient that `CFDiv` computes, and what is left then. -/
def divDigits (f1 f2 : CFloat) : List ℕ × List ℕ := divLoop (divDivisor f2).mant cfMaxPrec (divStart f1 f2) []

/-- What the window of the last step has of the dividend. -/
def divWindow (f1 f2 : CFloat) : ℕ := decVal ((divDigits f1 f2).2.take (divDivisor f2).mant.length)

/-- The result before it is rounded. -/
def divRaw (f1 f2 : CFloat) : CFloat := ⟨f1.exp - f2.exp + 1, f1.sign * f2.sign, (divDigits f1 f2).1⟩

theorem quotient_of_value {m1 m2 s q w a b c v : ℚ} (hm2 : m2 ≠ 0) (hs : s ≠ 0) (hb : b ≠ 0) (hc : c ≠ 0)
    (hv : v = m2 * s * c) (h : m1 * s * a = (q * v * 10 + w) * b) :
    m1 / m2 * (a / (b * 10 * c)) = q + w / (10 * v) := by
  have hv0 : v ≠ 0 := by
    rw [hv]
    exact mul_ne_zero (mul_ne_zero hm2 hs) hc
  have hleft : m1 / m2 * (a / (b * 10 * c)) = m1 * s * a / (b * (10 * v)) := by
    rw [hv]
    field_simp
  rw [hleft, h]
  field_simp

theorem quotient_power (e1 e2 : ℤ) (l1 l2 : ℕ) {i j k : ℕ} (h : l2 + 1 + i + (k + 1) = l1 + 1 + j) :
    (10 : ℚ) ^ (e1 - l1) / (10 : ℚ) ^ (e2 - l2) * (10 : ℚ) ^ (31 - (e1 - e2)) =
      10 ^ (j + cfMaxPrec) / 10 ^ (k + 2 + i) := by
  have hexp : e1 - l1 - (e2 - l2) + (31 - (e1 - e2)) = ((j + cfMaxPrec : ℕ) : ℤ) - ((k + 2 + i : ℕ) : ℤ) := by
    unfold cfMaxPrec
    omega
  rw [← zpow_sub₀ (by norm_num), ← zpow_add₀ (by norm_num), hexp, zpow_sub₀ (by norm_num), zpow_natCast,
    zpow_natCast]

/-- The digits and the window of the last step are the digits of the dividend, taken with powers of ten. -/
theorem divDigits_value {f1 f2 : CFloat} (h1 : f1.Normal) (h2 : f2.Proper) (hshort : f1.mant.length ≤ cfMaxPrec) :
    ∃ i j k, decVal (divDivisor f2).mant = decVal f2.mant * divScale (f2.access 0) * 10 ^ i ∧
      f2.mant.length + 1 + i + (k + 1) = f1.mant.length + 1 + j ∧
      decVal f1.mant * divScale (f2.access 0) * 10 ^ (j + cfMaxPrec) =
        (decVal (divDigits f1 f2).1 * decVal (divDivisor f2).mant * 10 + divWindow f1 f2) * 10 ^ (k + 1) := by
  unfold divWindow
  have hready := divDivisor_ready h2
  obtain ⟨hwindow, hlong, -⟩ := divDividend_window h1 h2
  obtain ⟨hpos, hten⟩ := divScale_pos h2
  obtain ⟨i, hV, hVlen⟩ := divDivisor_value h2
  obtain ⟨j, hu⟩ := divDividend_value f1 f2
  obtain ⟨-, hslen, hsval⟩ := scalarMultiply_spec h1.digits.1 hten
  have hulen := congrArg List.length hu
  rw [List.length_append, List.length_replicate, hslen] at hulen
  obtain ⟨k, hk⟩ : ∃ k, (divDividend f1 f2).mant.length = (divDivisor f2).mant.length + (k + 1) :=
    ⟨(divDividend f1 f2).mant.length - (divDivisor f2).mant.length - 1, by omega⟩
  have hstartlen : (divStart f1 f2).length = (divDivisor f2).mant.length + (cfMaxPrec + (k + 1)) := by
    unfold divStart
    rw [List.length_append, List.length_replicate, hk]
    omega
  obtain ⟨hval, hleftlen, hdrop⟩ := divLoop_value hready cfMaxPrec (k + 1) (divStart f1 f2) [] hwindow hstartlen
  -- Behind the window there are zeros only.
  have hzeros : decVal ((divDigits f1 f2).2.drop (divDivisor f2).mant.length) = 0 := by
    unfold divDigits
    rw [hdrop]
    unfold divStart
    apply decVal_zeros
    intro d hd
    rw [hu, List.append_assoc, List.drop_append, List.drop_of_length_le (by omega), List.nil_append] at hd
    have hmem := List.mem_of_mem_drop hd
    obtain hmem | hmem := List.mem_append.mp hmem
    · exact List.eq_of_mem_replicate hmem
    · exact List.eq_of_mem_replicate hmem
  have hstart : decVal (divStart f1 f2) = decVal f1.mant * divScale (f2.access 0) * 10 ^ (j + cfMaxPrec) := by
    unfold divStart
    rw [decVal_replicate, hu, decVal_replicate, hsval, pow_add]
    ring
  have hsplit := decVal_append ((divDigits f1 f2).2.take (divDivisor f2).mant.length)
    ((divDigits f1 f2).2.drop (divDivisor f2).mant.length)
  have hdroplen : ((divDigits f1 f2).2.drop (divDivisor f2).mant.length).length = k + 1 := by
    unfold divDigits
    rw [List.length_drop, hleftlen]
    omega
  rw [List.take_append_drop, hzeros, hdroplen, Nat.add_zero] at hsplit
  change _ = decVal (divDigits f1 f2).1 * _ * _ + decVal (divDigits f1 f2).2 at hval
  rw [decVal_nil, Nat.zero_mul, Nat.zero_mul, Nat.add_zero, hstart, hsplit] at hval
  refine ⟨i, j, k, hV, by omega, ?_⟩
  rw [hval, pow_succ 10 (k + 1)]
  ring

/-- The digits and the window of the last step give the quotient. -/
theorem scaledQuotient_eq {f1 f2 : CFloat} (h1 : f1.Normal) (h2 : f2.Proper) (hshort : f1.mant.length ≤ cfMaxPrec) :
    scaledQuotient f1 f2 = decVal (divDigits f1 f2).1 + (divWindow f1 f2 : ℚ) / (10 * decVal (divDivisor f2).mant) := by
  obtain ⟨i, j, k, hV, hlen, hval⟩ := divDigits_value h1 h2 hshort
  have hpow := quotient_power f1.exp f2.exp f1.mant.length f2.mant.length hlen
  have hm2 : (decVal f2.mant : ℚ) ≠ 0 := by exact_mod_cast h2.trimmed.pos.ne'
  have hs : (divScale (f2.access 0) : ℚ) ≠ 0 := by exact_mod_cast (divScale_pos h2).1.ne'
  have hvalq : (decVal f1.mant * divScale (f2.access 0) * 10 ^ (j + cfMaxPrec) : ℚ) =
      (decVal (divDigits f1 f2).1 * decVal (divDivisor f2).mant * 10 + divWindow f1 f2) * 10 ^ (k + 1) := by
    exact_mod_cast hval
  have hVq : (decVal (divDivisor f2).mant : ℚ) = decVal f2.mant * divScale (f2.access 0) * 10 ^ i := by
    exact_mod_cast hV
  have hc : (10 : ℚ) ^ i ≠ 0 := by positivity
  have hb : (10 : ℚ) ^ (k + 1) ≠ 0 := by positivity
  unfold scaledQuotient CFloat.mag CFloat.len
  rw [mul_div_mul_comm, mul_assoc, hpow, pow_add _ (k + 2) i, pow_succ _ (k + 1)]
  exact quotient_of_value hm2 hs hb hc hVq hvalq

/-! ### The last digit -/

/-- `n` is the integer closest to `x`, and the even one of two that are. -/
def HalfEven (x : ℚ) (n : ℕ) : Prop := |x - n| < 1 / 2 ∨ |x - n| = 1 / 2 ∧ Even n

/-- What the code asks says on which side of a half the window is. -/
theorem window_up_iff {q w v : ℕ} (hv : 0 < v) :
    5 < w / v ∨ w / v = 5 ∧ (w % v ≠ 0 ∨ q % 2 ≠ 0) ↔ 10 * v < 2 * w ∨ 2 * w = 10 * v ∧ q % 2 ≠ 0 := by
  have hdivmod := Nat.div_add_mod w v
  have hmod := Nat.mod_lt w hv
  obtain hlt | heq | hgt := lt_trichotomy (w / v) 5
  · have hle := Nat.mul_le_mul_left v (Nat.le_of_lt_succ hlt)
    omega
  · rw [heq] at hdivmod
    omega
  · have hle := Nat.mul_le_mul_left v hgt
    omega

/-- The digit behind the last one, the remainder and the last digit say which integer is closest. -/
theorem halfEven_of_window {q w v : ℕ} (hv : 0 < v) (hw : w < 10 * v) :
    HalfEven (q + (w : ℚ) / (10 * v))
      (if 5 < w / v ∨ w / v = 5 ∧ (w % v ≠ 0 ∨ q % 2 ≠ 0) then q + 1 else q) := by
  have hten : 0 < 10 * v := by omega
  have hcast : (10 * v : ℚ) = ((10 * v : ℕ) : ℚ) := by push_cast; rfl
  rw [hcast]
  have hhalf := div_lt_half_iff (a := w) hten
  have hequal := div_eq_half_iff (a := w) hten
  have hnonneg : 0 ≤ (w : ℚ) / (10 * v : ℕ) := by positivity
  have hone : (w : ℚ) / (10 * v : ℕ) < 1 := (div_lt_one (by exact_mod_cast hten)).mpr (by exact_mod_cast hw)
  generalize (w : ℚ) / (10 * v : ℕ) = x at *
  unfold HalfEven
  rw [if_congr (window_up_iff hv) rfl rfl]
  split_ifs with hup
  · have habs : |(q + x : ℚ) - ((q + 1 : ℕ) : ℚ)| = 1 - x := by
      have hpos : (0 : ℚ) ≤ 1 - x := by linarith
      rw [← abs_neg, ← abs_of_nonneg hpos]
      congr 1
      push_cast
      ring
    rw [habs]
    obtain hover | ⟨htie, hodd⟩ := hup
    · refine .inl ?_
      have hlow : 1 / 2 ≤ x := not_lt.mp fun h => by
        have := hhalf.mp h
        omega
      have hne : x ≠ 1 / 2 := fun h => by
        have := hequal.mp h
        omega
      have hgt := lt_of_le_of_ne hlow hne.symm
      linarith
    · refine .inr ⟨by linarith [hequal.mpr htie], Nat.even_iff.mpr (by omega)⟩
  · have habs : |(q + x : ℚ) - (q : ℚ)| = x := by rw [add_sub_cancel_left, abs_of_nonneg hnonneg]
    rw [habs]
    obtain hlt | htie | hgt := lt_trichotomy (2 * w) (10 * v)
    · exact .inl (hhalf.mpr hlt)
    · refine .inr ⟨hequal.mpr htie, ?_⟩
      by_contra hodd
      exact hup (.inr ⟨htie, fun h => hodd (Nat.even_iff.mpr h)⟩)
    · exact absurd (.inl hgt) hup

theorem roundupLoop_value (l digits : List ℕ) :
    decVal (roundupLoop l digits).2 + (if (roundupLoop l digits).1 then 10 ^ (l.length + digits.length) else 0) =
      (decVal l.reverse + 1) * 10 ^ digits.length + decVal digits := by
  induction l generalizing digits with
  | nil =>
      rw [roundupLoop]
      dsimp only
      rw [if_pos rfl, List.reverse_nil, decVal_nil, List.length_nil, Nat.zero_add, Nat.zero_add, Nat.one_mul,
        Nat.add_comm]
  | cons d l ih =>
      have hpow : 10 ^ (digits.length + 1) = 10 ^ digits.length * 10 := pow_succ ..
      by_cases hd : d = 9
      · have hlen : (d :: l).length + digits.length = l.length + (0 :: digits).length := by
          rw [List.length_cons, List.length_cons]
          omega
        rw [roundupLoop, if_pos hd, hlen, ih (0 :: digits), List.reverse_cons, decVal_append, decVal_singleton,
          List.length_singleton, pow_one, hd, List.length_cons, decVal_cons, hpow]
        ring
      · rw [roundupLoop, if_neg hd]
        dsimp only
        rw [if_neg Bool.false_ne_true, List.reverse_cons, decVal_append, decVal_append, decVal_cons,
          decVal_singleton, List.length_singleton, pow_one, List.length_cons, hpow]
        ring

/-- One is added to the last digit. -/
theorem roundupCF_mag {f : CFloat} (hf : Digits f.mant) (hne : f.mant ≠ []) :
    (roundupCF f).mag = ((decVal f.mant + 1 : ℕ) : ℚ) * (10 : ℚ) ^ (f.exp - f.len) := by
  have hval := roundupLoop_value f.mant.reverse []
  obtain ⟨-, hlen⟩ := roundupLoop_spec f.mant.reverse [] (fun d hd => hf d (List.mem_reverse.mp hd))
    fun d hd => nomatch hd
  have hlt := decVal_lt hf
  have hpos := List.length_pos_of_ne_nil hne
  rw [List.length_reverse, List.reverse_reverse, List.length_nil, Nat.add_zero, pow_zero, Nat.mul_one, decVal_nil,
    Nat.add_zero] at hval
  rw [List.length_reverse, List.length_nil, Nat.add_zero] at hlen
  unfold roundupCF
  generalize roundupLoop f.mant.reverse [] = r at hval hlen ⊢
  obtain ⟨carry, digits⟩ := r
  dsimp only at hval hlen
  cases carry with
  | true =>
      -- All digits were nines.
      rw [if_pos rfl] at hval
      obtain ⟨d, t, rfl⟩ := List.exists_cons_of_length_pos (by omega : 0 < digits.length)
      rw [decVal_cons] at hval
      have ht : decVal t = 0 := by omega
      rw [List.length_cons] at hlen
      have hall : decVal f.mant + 1 = 10 ^ f.mant.length := by omega
      unfold CFloat.mag CFloat.len
      dsimp only
      rw [List.tail_cons, decVal_cons, ht, hall, Nat.one_mul, Nat.add_zero, List.length_cons, hlen, Nat.cast_pow,
        Nat.cast_pow, Nat.cast_ofNat, ← zpow_natCast, ← zpow_natCast, ← zpow_add₀ (by norm_num),
        ← zpow_add₀ (by norm_num)]
      congr 1
      omega
  | false =>
      rw [if_neg Bool.false_ne_true, Nat.add_zero] at hval
      unfold CFloat.mag CFloat.len
      dsimp only
      rw [hval, hlen]

/-- `CFClean` keeps the value of 32 digits. -/
theorem cfClean_val {f : CFloat} (hf : Digits f.mant) (hne : f.mant ≠ []) (hlen : f.mant.length ≤ cfMaxPrec)
    (hsign : f.sign = 0 ∨ f.sign = 1 ∨ f.sign = -1) : (cfClean f).val = f.val := by
  by_cases h0 : decVal f.mant = 0
  · rw [cfClean_zero hne h0, cfAlloc_val]
    unfold CFloat.val CFloat.mag
    rw [h0]
    simp
  · obtain hs | hs := hsign
    · have hclean : (cfClean f).sign = 0 := by
        unfold cfClean
        dsimp only
        split_ifs
        · rfl
        · exact hs
      unfold CFloat.val
      rw [hs, hclean]
      simp
    · have hrough : f.Rough := ⟨hs, hf, h0⟩
      refine (cfClean_spec hrough ⟨decVal f.mant, f.exp - f.len, ?_, hrough.abs_val⟩).2
      exact lt_of_lt_of_le (decVal_lt hf) (Nat.pow_le_pow_right (by decide) hlen)

theorem decVal_eq_zero {l : List ℕ} : decVal l = 0 ↔ ∀ d ∈ l, d = 0 := by
  refine ⟨fun h => ?_, decVal_zeros⟩
  induction l with
  | nil => exact fun d hd => nomatch hd
  | cons d l ih =>
      rw [decVal_cons] at h
      have hpow : 0 < 10 ^ l.length := Nat.pow_pos (by decide)
      have hd : d = 0 := by
        by_contra hne
        have := Nat.mul_pos (Nat.pos_of_ne_zero hne) hpow
        omega
      exact List.forall_mem_cons.mpr ⟨hd, ih (by omega)⟩

theorem any_ne_zero (l : List ℕ) : l.any (· ≠ 0) = true ↔ decVal l ≠ 0 := by
  rw [Ne, decVal_eq_zero, List.any_eq_true]
  push Not
  exact exists_congr fun d => and_congr_right fun _ => decide_eq_true_iff

/-- The last digit has the parity of the number. -/
theorem getD_last_mod_two {l : List ℕ} (hne : l ≠ []) : l.getD (l.length - 1) 0 % 2 = decVal l % 2 := by
  obtain ⟨m, d, rfl⟩ : ∃ m d, l = m ++ [d] := ⟨l.dropLast, l.getLast hne, (List.dropLast_append_getLast hne).symm⟩
  rw [decVal_append, decVal_singleton, List.length_append, List.length_singleton, Nat.add_sub_cancel, pow_one,
    List.getD_append_right _ _ _ _ le_rfl, Nat.sub_self, List.getD_cons_zero]
  omega

/-! ### What `CFDiv` promises -/

/-- Every estimate is the digit or one more, the digits are those of the quotient, the last one is rounded to the
closest, and no access is outside the arrays. -/
structure DivisionRight (f1 f2 : CFloat) : Prop where
  accesses : cfDivArray f1 f2 = some (cfDiv f1 f2)
  estimates : ∀ n ≤ cfMaxPrec,
    let v := (divDivisor f2).mant
    let rest := (divLoop v n (divStart f1 f2) []).2
    (divStep v rest).1 ≤ estimate v rest ∧ estimate v rest ≤ (divStep v rest).1 + 1 ∧ estimate v rest ≤ 9
  digits : (divDigits f1 f2).1.length = cfMaxPrec ∧ Digits (divDigits f1 f2).1 ∧
    decVal (divDigits f1 f2).1 = ⌊scaledQuotient f1 f2⌋
  rounded : ∃ n : ℕ, HalfEven (scaledQuotient f1 f2) n ∧
    (cfDiv f1 f2).val = f1.sign * f2.sign * (n * (10 : ℚ) ^ (f1.exp - f2.exp - 31))
  exact : (∃ (n : ℕ) (e : ℤ), n < 10 ^ 31 ∧ |f1.val / f2.val| = n * (10 : ℚ) ^ e) →
    (cfDiv f1 f2).val = f1.val / f2.val

section

variable {f1 f2 : CFloat}

theorem divLoop_estimates (h1 : f1.Normal) (h2 : f2.Proper) {n : ℕ} (hn : n ≤ cfMaxPrec) :
    (divStep (divDivisor f2).mant (divLoop (divDivisor f2).mant n (divStart f1 f2) []).2).1 ≤
        estimate (divDivisor f2).mant (divLoop (divDivisor f2).mant n (divStart f1 f2) []).2 ∧
      estimate (divDivisor f2).mant (divLoop (divDivisor f2).mant n (divStart f1 f2) []).2 ≤
        (divStep (divDivisor f2).mant (divLoop (divDivisor f2).mant n (divStart f1 f2) []).2).1 + 1 ∧
      estimate (divDivisor f2).mant (divLoop (divDivisor f2).mant n (divStart f1 f2) []).2 ≤ 9 := by
  have hready := divDivisor_ready h2
  obtain ⟨hwindow, hlong, -⟩ := divDividend_window h1 h2
  obtain ⟨-, -, hlast, -⟩ := divLoop_spec hready n (divStart f1 f2) [] hwindow (by
    unfold divStart
    rw [List.length_append, List.length_replicate]
    omega) fun d hd => nomatch hd
  rw [(divStep_spec hready hlast).1]
  exact estimate_window hready hlast

theorem divDigits_spec (h1 : f1.Normal) (h2 : f2.Proper) :
    Digits (divDigits f1 f2).1 ∧ (divDigits f1 f2).1.length = cfMaxPrec ∧
      Window (divDivisor f2).mant (divDigits f1 f2).2 := by
  have hready := divDivisor_ready h2
  obtain ⟨hwindow, hlong, -⟩ := divDividend_window h1 h2
  obtain ⟨hdig, hlen, hlast, -⟩ := divLoop_spec hready cfMaxPrec (divStart f1 f2) [] hwindow (by
    unfold divStart
    rw [List.length_append, List.length_replicate]
    omega) fun d hd => nomatch hd
  rw [List.length_nil, Nat.zero_add] at hlen
  exact ⟨hdig, hlen, hlast⟩

/-- The digits are those of the quotient. -/
theorem divDigits_floor (h1 : f1.Normal) (h2 : f2.Proper) (hshort : f1.mant.length ≤ cfMaxPrec) :
    decVal (divDigits f1 f2).1 = ⌊scaledQuotient f1 f2⌋ := by
  obtain ⟨-, -, hlast⟩ := divDigits_spec h1 h2
  have hten : (0 : ℚ) < 10 * decVal (divDivisor f2).mant := by
    have := (divDivisor_ready h2).pos
    positivity
  rw [scaledQuotient_eq h1 h2 hshort, eq_comm, Int.floor_eq_iff]
  constructor
  · push_cast
    linarith [div_nonneg (Nat.cast_nonneg (divWindow f1 f2)) hten.le]
  · have hsmall : (divWindow f1 f2 : ℚ) < 10 * decVal (divDivisor f2).mant := by exact_mod_cast hlast.small
    push_cast
    linarith [(div_lt_one hten).mpr hsmall]

/-- `CFDiv` rounds the digits up, or leaves them. -/
theorem cfDiv_cases (h1 : f1.Normal) (h2 : f2.Proper) :
    cfDiv f1 f2 = cfClean (if 5 < divWindow f1 f2 / decVal (divDivisor f2).mant ∨
        divWindow f1 f2 / decVal (divDivisor f2).mant = 5 ∧
          (divWindow f1 f2 % decVal (divDivisor f2).mant ≠ 0 ∨ decVal (divDigits f1 f2).1 % 2 ≠ 0) then
      roundupCF (divRaw f1 f2) else divRaw f1 f2) := by
  obtain ⟨-, hlen, hlast⟩ := divDigits_spec h1 h2
  obtain ⟨hq, left, hleft, -, hleftlen, hrem⟩ := divStep_spec (divDivisor_ready h2) hlast
  have hzero : f2.sign ≠ 0 := by
    obtain hs | hs := h2.sign <;> omega
  have hne : (divDigits f1 f2).1 ≠ [] := by
    intro hnil
    rw [hnil] at hlen
    exact absurd hlen (by decide)
  have hany : (((divStep (divDivisor f2).mant (divDigits f1 f2).2).2.take (divDivisor f2).mant.length).any
      (· ≠ 0) = true) ↔ divWindow f1 f2 % decVal (divDivisor f2).mant ≠ 0 := by
    rw [hleft, ← hleftlen, List.take_left, any_ne_zero, hrem]
    rfl
  have hodd : (divRaw f1 f2).access ((cfMaxPrec : ℤ) - 1) % 2 = decVal (divDigits f1 f2).1 % 2 := by
    have hacc : ∀ f : CFloat, f.access ((cfMaxPrec : ℤ) - 1) = f.mant.getD (cfMaxPrec - 1) 0 := fun _ => rfl
    rw [← getD_last_mod_two hne, hlen, hacc]
    unfold divRaw
    rfl
  have hdiv : cfDiv f1 f2 = cfClean (if 5 < (divStep (divDivisor f2).mant (divDigits f1 f2).2).1 ∨
      (divStep (divDivisor f2).mant (divDigits f1 f2).2).1 = 5 ∧
        (((divStep (divDivisor f2).mant (divDigits f1 f2).2).2.take (divDivisor f2).mant.length).any (· ≠ 0) = true ∨
          (divRaw f1 f2).access ((cfMaxPrec : ℤ) - 1) % 2 ≠ 0) then
      roundupCF (divRaw f1 f2) else divRaw f1 f2) := by
    unfold cfDiv divRaw divDigits divStart
    rw [if_neg hzero]
  have hw : decVal ((divDigits f1 f2).2.take (divDivisor f2).mant.length) = divWindow f1 f2 := rfl
  rw [hdiv, hq, hodd, hw, if_congr (or_congr_right (and_congr_right fun _ => or_congr_left hany)) rfl rfl]

/-- The result is the closest number of 32 digits. -/
theorem cfDiv_rounded (h1 : f1.Normal) (h2 : f2.Proper) (hshort : f1.mant.length ≤ cfMaxPrec) :
    ∃ n : ℕ, HalfEven (scaledQuotient f1 f2) n ∧
      (cfDiv f1 f2).val = f1.sign * f2.sign * (n * (10 : ℚ) ^ (f1.exp - f2.exp - 31)) := by
  obtain ⟨hdig, hlen, hlast⟩ := divDigits_spec h1 h2
  have hmant : (divRaw f1 f2).mant = (divDigits f1 f2).1 := rfl
  have hsmall : divWindow f1 f2 < 10 * decVal (divDivisor f2).mant := hlast.small
  have hround := halfEven_of_window (q := decVal (divDigits f1 f2).1) (divDivisor_ready h2).pos hsmall
  rw [← scaledQuotient_eq h1 h2 hshort] at hround
  refine ⟨_, hround, ?_⟩
  rw [← hmant] at hdig hlen
  have hne : (divRaw f1 f2).mant ≠ [] := by
    intro hnil
    rw [hnil] at hlen
    exact absurd hlen (by decide)
  have hsign : (divRaw f1 f2).sign = 0 ∨ (divRaw f1 f2).sign = 1 ∨ (divRaw f1 f2).sign = -1 := by
    unfold divRaw
    obtain hs | hs | hs := h1.sign <;> obtain hs' | hs' := h2.sign <;> simp [hs, hs']
  have hexp : (divRaw f1 f2).exp - (divRaw f1 f2).len = f1.exp - f2.exp - 31 := by
    unfold CFloat.len
    rw [hlen]
    unfold divRaw cfMaxPrec
    dsimp only
    omega
  have hsigncast : (((divRaw f1 f2).sign : ℤ) : ℚ) = f1.sign * f2.sign := Int.cast_mul ..
  rw [cfDiv_cases h1 h2]
  split_ifs with hup
  · obtain ⟨hdig', hlen', hsign'⟩ := roundupCF_spec (f := divRaw f1 f2) hdig hne
    have hne' : (roundupCF (divRaw f1 f2)).mant ≠ [] := by
      intro hnil
      rw [hnil] at hlen'
      exact hne (List.length_eq_zero_iff.mp hlen'.symm)
    rw [cfClean_val hdig' hne' (hlen'.trans hlen).le (by rwa [hsign'])]
    unfold CFloat.val
    rw [hsign', hsigncast, roundupCF_mag hdig hne, hexp, hmant]
  · rw [cfClean_val hdig hne hlen.le hsign]
    unfold CFloat.val CFloat.mag
    rw [hsigncast, hexp, hmant]

/-- A quotient of 31 digits is a whole number of units of the last place. -/
theorem scaledQuotient_nat (h1 : f1.Normal) (h2 : f2.Proper) {n : ℕ} {e : ℤ} (hn : n < 10 ^ 31)
    (hquot : f1.mag / f2.mag = n * (10 : ℚ) ^ e) : ∃ k : ℕ, scaledQuotient f1 f2 = k := by
  unfold scaledQuotient
  rw [hquot]
  obtain rfl | hproper := h1
  · refine ⟨0, ?_⟩
    have hzero : cfAlloc.mag = 0 := by norm_num [CFloat.mag, cfAlloc, decVal, Nat.ofDigits]
    rw [← hquot, hzero, zero_div, zero_mul, Nat.cast_zero]
  · have hlow := CFloat.le_mag hproper.trimmed
    have hhigh := CFloat.mag_lt h2.trimmed.digits
    have hpos := h2.mag_pos
    -- The first digit of the quotient is not far behind the point.
    have hexp : f1.exp - f2.exp - 31 ≤ e := by
      by_contra hlt
      have hq : (10 : ℚ) ^ (f1.exp - 1 - f2.exp) < f1.mag / f2.mag := by
        rw [zpow_sub₀ (by norm_num), div_lt_div_iff₀ (ten_zpow_pos _) hpos]
        calc (10 : ℚ) ^ (f1.exp - 1) * f2.mag < (10 : ℚ) ^ (f1.exp - 1) * (10 : ℚ) ^ f2.exp :=
              mul_lt_mul_of_pos_left hhigh (ten_zpow_pos _)
          _ ≤ f1.mag * (10 : ℚ) ^ f2.exp := mul_le_mul_of_nonneg_right hlow (ten_zpow_pos _).le
      have hle : (n : ℚ) * (10 : ℚ) ^ e ≤ (10 : ℚ) ^ (31 + e) := by
        rw [zpow_add₀ (by norm_num)]
        apply mul_le_mul_of_nonneg_right _ (ten_zpow_pos e).le
        exact_mod_cast hn.le
      have hmono : (10 : ℚ) ^ (31 + e) ≤ (10 : ℚ) ^ (f1.exp - 1 - f2.exp) :=
        zpow_le_zpow_right₀ (by norm_num) (by omega)
      rw [hquot] at hq
      linarith
    obtain ⟨k, hk⟩ := Int.le.dest hexp
    refine ⟨n * 10 ^ k, ?_⟩
    have hsum : e + (31 - (f1.exp - f2.exp)) = k := by omega
    rw [mul_assoc, ← zpow_add₀ (by norm_num), hsum, zpow_natCast]
    push_cast
    rfl

theorem HalfEven.eq_of_nat {k n : ℕ} (h : HalfEven (k : ℚ) n) : k = n := by
  have hle : |(k : ℚ) - n| ≤ 1 / 2 := by
    obtain h | h := h
    · exact h.le
    · exact h.1.le
  have hint : |((k : ℤ) - n : ℤ)| < 1 := by
    have hcast : ((|((k : ℤ) - n : ℤ)| : ℤ) : ℚ) = |(k : ℚ) - n| := by
      push_cast
      rfl
    have hlt : ((|((k : ℤ) - n : ℤ)| : ℤ) : ℚ) < 1 := by
      rw [hcast]
      linarith
    exact_mod_cast hlt
  have := Int.abs_lt_one_iff.mp hint
  omega

theorem CFloat.Normal.abs_val (h : f1.Normal) : |f1.val| = f1.mag := by
  obtain rfl | h := h
  · rw [cfAlloc_val]
    norm_num [CFloat.mag, cfAlloc, decVal, Nat.ofDigits]
  · exact h.abs_val

theorem cfDiv_exact (h1 : f1.Normal) (h2 : f2.Proper) (hshort : f1.mant.length ≤ cfMaxPrec)
    (h : ∃ (n : ℕ) (e : ℤ), n < 10 ^ 31 ∧ |f1.val / f2.val| = n * (10 : ℚ) ^ e) :
    (cfDiv f1 f2).val = f1.val / f2.val := by
  obtain ⟨n, e, hn, hquot⟩ := h
  rw [abs_div, h1.abs_val, h2.abs_val] at hquot
  obtain ⟨k, hk⟩ := scaledQuotient_nat h1 h2 hn hquot
  obtain ⟨m, hround, hval⟩ := cfDiv_rounded h1 h2 hshort
  rw [hk] at hround
  obtain rfl := hround.eq_of_nat
  have hmag : f1.mag / f2.mag = k * (10 : ℚ) ^ (f1.exp - f2.exp - 31) := by
    rw [← hk]
    unfold scaledQuotient
    have hsum : 31 - (f1.exp - f2.exp) + (f1.exp - f2.exp - 31) = 0 := by omega
    rw [mul_assoc, ← zpow_add₀ (by norm_num), hsum, zpow_zero, mul_one]
  rw [hval, ← hmag]
  unfold CFloat.val
  obtain hs | hs := h2.sign
  · rw [hs]
    push_cast
    ring
  · rw [hs]
    push_cast
    ring

end

theorem cfDiv_right {f1 f2 : CFloat} (h1 : f1.Normal) (h2 : f2.Normal) (hzero : f2.sign ≠ 0)
    (hshort : f1.mant.length ≤ cfMaxPrec) : DivisionRight f1 f2 := by
  have hproper : f2.Proper := by
    obtain rfl | h2 := h2
    · exact absurd rfl hzero
    · exact h2
  obtain ⟨hdig, hlen, -⟩ := divDigits_spec h1 hproper
  exact {
    accesses := cfDivArray_eq h1 h2
    estimates := fun n hn => divLoop_estimates h1 hproper hn
    digits := ⟨hlen, hdig, divDigits_floor h1 hproper hshort⟩
    rounded := cfDiv_rounded h1 hproper hshort
    exact := cfDiv_exact h1 hproper hshort }

/-- Three divided by four. -/
theorem cfDiv_three_four : DivisionRight ⟨1, 1, [3]⟩ ⟨1, 1, [4]⟩ :=
  cfDiv_right (.inr ⟨.inl rfl, (by decide : Trimmed [3])⟩) (.inr ⟨.inl rfl, (by decide : Trimmed [4])⟩)
    (by decide) (by decide)

end OpenWatcom.Cfloat
