import OpenWatcom.Cfloat.Rounding

/-! # Quotients of decimal constants

`CFDiv` divides digit by digit, as one does by hand.  A digit is estimated from the first three digits of what is left
and the first two of the divisor, and is one too large at most (`estimate_spec`); so a step finds the quotient and the
remainder (`divStep_spec`), the digits stay digits, and the result is in normal form (`cfDiv_normal`). -/

namespace OpenWatcom.Cfloat

open OpenWatcom

/-! ### The functions -/

/-- The loop of `scalarMultiply` over the digits from the last one on. -/
def scalarLoop (s : ℕ) : List ℕ → ℕ → List ℕ → List ℕ
  | [], quot, digits => quot :: digits
  | d :: rest, quot, digits => scalarLoop s rest ((s * d + quot) / 10) ((s * d + quot) % 10 :: digits)

def scalarMultiply (f : CFloat) (s : ℕ) : CFloat := { f with mant := scalarLoop s f.mant.reverse 0 [] }

def expandCF (f : CFloat) (scale : ℕ) : CFloat := { f with mant := f.mant ++ List.replicate scale 0 }

/-- The loop of `roundupCF` over the digits from the last one on, and whether all of them were nines. -/
def roundupLoop : List ℕ → List ℕ → Bool × List ℕ
  | [], digits => (true, digits)
  | d :: rest, digits => if d = 9 then roundupLoop rest (0 :: digits) else (false, rest.reverse ++ (d + 1) :: digits)

def roundupCF (f : CFloat) : CFloat :=
  match roundupLoop f.mant.reverse [] with
  | (true, digits) => { f with exp := f.exp + 1, mant := 1 :: digits.tail }
  | (false, digits) => { f with mant := digits }

/-- `div` by ten, with the correction of a negative remainder. -/
def divTen (x : ℤ) : ℤ × ℤ :=
  if x.tmod 10 < 0 then (x.tdiv 10 - 1, x.tmod 10 + 10) else (x.tdiv 10, x.tmod 10)

/-- The loops over the divisor, from its last digit on: `factor` times the divisor is added. -/
def windowLoop (factor : ℤ) : List ℕ → List ℕ → ℤ → List ℕ → ℤ × List ℕ
  | w :: ws, v :: vs, cy, digits =>
    let d := divTen (w + factor * v + cy)
    windowLoop factor ws vs d.1 (d.2.toNat :: digits)
  | _, _, cy, digits => (cy, digits)

/-- The estimate of a digit of the quotient. -/
def estimate (v rest : List ℕ) : ℕ :=
  if v.getD 1 0 = rest.getD 0 0 then 9
  else (rest.getD 0 0 * 100 + rest.getD 1 0 * 10 + rest.getD 2 0) / (10 * v.getD 1 0 + v.getD 2 0)

/-- The body of the loop of `CFDiv`: a digit of the quotient, and what is left of the dividend. -/
def divStep (v rest : List ℕ) : ℕ × List ℕ :=
  let qa := estimate v rest
  let sub := windowLoop (-qa) (rest.take v.length).reverse v.reverse 0 []
  if sub.1 ≠ 0 then
    (qa - 1, (windowLoop 1 sub.2.reverse v.reverse 0 []).2 ++ rest.drop v.length)
  else (qa, sub.2 ++ rest.drop v.length)

/-- The loop of `CFDiv`; what is left begins at the digit that comes next. -/
def divLoop (v : List ℕ) : ℕ → List ℕ → List ℕ → List ℕ × List ℕ
  | 0, rest, digits => (digits, rest)
  | n + 1, rest, digits => divLoop v n (divStep v rest).2.tail (digits ++ [(divStep v rest).1])

/-- `CF_ERR_EXP`. -/
def cfErrExp : Int := 2 ^ 31 - 1

/-- The factor that makes the first digit of the divisor five at least. -/
def divScale (d : ℕ) : ℕ := if d < 5 then 10 / (d + 1) else 1

def divDivisor (f2 : CFloat) : CFloat :=
  let v := scalarMultiply f2 (divScale (f2.access 0))
  if v.len < 3 then expandCF v 1 else v

def divDividend (f1 f2 : CFloat) : CFloat :=
  let u := scalarMultiply f1 (divScale (f2.access 0))
  if u.len ≤ (divDivisor f2).len then expandCF u ((divDivisor f2).len - u.len + 1).toNat else u

/-- `CFDiv`. -/
def cfDiv (f1 f2 : CFloat) : CFloat :=
  if f2.sign = 0 then ⟨cfErrExp, 1, [1]⟩
  else
    let v := (divDivisor f2).mant
    let all := divLoop v cfMaxPrec ((divDividend f1 f2).mant ++ List.replicate cfMaxPrec 0) []
    let last := divStep v all.2
    let result : CFloat := ⟨f1.exp - f2.exp + 1, f1.sign * f2.sign, all.1⟩
    cfClean
      (if 5 < last.1 ∨ last.1 = 5 ∧ ((last.2.take v.length).any (· ≠ 0) ∨ result.access (cfMaxPrec - 1) % 2 ≠ 0) then
        roundupCF result
      else result)

/-! ### One digit -/

theorem divTen_eq (x : ℤ) : divTen x = (x / 10, x % 10) := by
  have hsplit := Int.mul_tdiv_add_tmod x 10
  have hhigh := Int.tmod_lt_of_pos x (by decide : (0 : ℤ) < 10)
  have hlow := Int.lt_tmod_of_pos x (by decide : (0 : ℤ) < 10)
  unfold divTen
  generalize x.tdiv 10 = q at hsplit ⊢
  generalize x.tmod 10 = r at hsplit hhigh hlow ⊢
  split_ifs with hneg
  · apply Prod.ext
    · dsimp only
      omega
    · dsimp only
      omega
  · apply Prod.ext
    · dsimp only
      omega
    · dsimp only
      omega

/-- The loop over the divisor adds `factor` times its number, up to a carry. -/
theorem windowLoop_spec (factor : ℤ) (ws vs : List ℕ) (cy : ℤ) (digits : List ℕ) (hlen : ws.length = vs.length)
    (hdigits : Digits digits) :
    Digits (windowLoop factor ws vs cy digits).2 ∧
      (windowLoop factor ws vs cy digits).2.length = ws.length + digits.length ∧
      (decVal (windowLoop factor ws vs cy digits).2 : ℤ) +
          (windowLoop factor ws vs cy digits).1 * 10 ^ (ws.length + digits.length) =
        (((Nat.ofDigits 10 ws : ℕ) : ℤ) + factor * ((Nat.ofDigits 10 vs : ℕ) : ℤ) + cy) * 10 ^ digits.length +
          decVal digits := by
  induction ws generalizing vs cy digits with
  | nil =>
      cases vs with
      | nil =>
          unfold windowLoop
          refine ⟨hdigits, by simp, ?_⟩
          simp only [Nat.ofDigits_nil, List.length_nil, Nat.cast_zero, mul_zero, zero_add]
          ring
      | cons v vs => cases hlen
  | cons w ws ih =>
      cases vs with
      | nil => cases hlen
      | cons v vs =>
          unfold windowLoop
          dsimp only
          rw [divTen_eq]
          dsimp only
          have hmod := Int.emod_nonneg (w + factor * v + cy) (by decide : (10 : ℤ) ≠ 0)
          have hlt := Int.emod_lt_of_pos (w + factor * v + cy) (by decide : (0 : ℤ) < 10)
          have hsplit := Int.mul_ediv_add_emod (w + factor * v + cy) 10
          generalize hx : (w + factor * v + cy : ℤ) = x at hmod hlt hsplit ⊢
          obtain ⟨hdig, hlength, hval⟩ := ih vs (x / 10) ((x % 10).toNat :: digits) (Nat.succ.inj hlen)
            (Digits.cons (by omega) hdigits)
          have hsum : (w :: ws).length + digits.length = ws.length + ((x % 10).toNat :: digits).length := by
            rw [List.length_cons, List.length_cons]
            omega
          rw [hsum]
          refine ⟨hdig, hlength, hval.trans ?_⟩
          rw [decVal_cons, List.length_cons, Nat.ofDigits_cons, Nat.ofDigits_cons]
          simp only [Nat.cast_add, Nat.cast_mul, Nat.cast_pow, Nat.cast_ofNat]
          rw [Int.toNat_of_nonneg hmod, pow_succ]
          have hr : x % 10 = w + factor * v + cy - 10 * (x / 10) := by omega
          rw [hr]
          ring

/-- The estimate is the digit of the quotient or one more. -/
theorem estimate_spec {W V T va B r0 v1 wl vl : ℕ} (hW : W = T * B + wl) (hV : V = va * B + vl) (hwl : wl < B)
    (hvl : vl < B) (hr0 : r0 = T / 100) (hv1 : v1 = va / 10) (hnorm : 5 ≤ v1) (hva : va < 100) (hlt : W < 10 * V)
    {qa : ℕ} (hqa : qa = if v1 = r0 then 9 else T / va) : W / V ≤ qa ∧ qa ≤ W / V + 1 ∧ qa ≤ 9 := by
  have hB : 0 < B := by omega
  have hVpos : 0 < V := by
    rw [hV]
    have : 0 < va * B := Nat.mul_pos (by omega) hB
    omega
  have hq : W / V < 10 := (Nat.div_lt_iff_lt_mul hVpos).mpr hlt
  have hT : T < 10 * (va + 1) := by
    by_contra hge
    have hle : 10 * (va + 1) * B ≤ T * B := Nat.mul_le_mul_right B (not_lt.mp hge)
    have hexpand : 10 * (va + 1) * B = 10 * (va * B) + 10 * B := by ring
    omega
  by_cases hfirst : v1 = r0
  · rw [if_pos hfirst] at hqa
    have height : 8 ≤ W / V := by
      rw [Nat.le_div_iff_mul_le hVpos]
      have hle : (8 * va + 8) * B ≤ T * B := Nat.mul_le_mul_right B (by omega)
      have hexpand : (8 * va + 8) * B = 8 * (va * B) + 8 * B := by ring
      omega
    omega
  · rw [if_neg hfirst] at hqa
    have hvapos : 0 < va := by omega
    have hsmall : T / va < 10 := (Nat.div_lt_iff_lt_mul hvapos).mpr (by omega)
    have hupper : W / V ≤ T / va := by
      rw [Nat.le_div_iff_mul_le hvapos]
      have hmul : W / V * V ≤ W := Nat.div_mul_le_self W V
      by_contra hgt
      have hle : (T + 1) * B ≤ W / V * va * B := Nat.mul_le_mul_right B (not_le.mp hgt)
      have hleft : (T + 1) * B = T * B + B := by ring
      have hright : W / V * V = W / V * va * B + W / V * vl := by
        rw [hV]
        ring
      omega
    have hlower : (T / va - 1) * V ≤ W := by
      have hmul : T / va * va ≤ T := Nat.div_mul_le_self T va
      obtain hzero | ⟨k, hk⟩ : T / va = 0 ∨ ∃ k, T / va = k + 1 := by
        cases T / va with
        | zero => exact .inl rfl
        | succ k => exact .inr ⟨k, rfl⟩
      · rw [hzero]
        simp
      · rw [hk] at hmul hsmall ⊢
        rw [Nat.add_sub_cancel, hV]
        have hvlmul : k * vl ≤ k * B := Nat.mul_le_mul_left k hvl.le
        have hkva : k * va + k ≤ T := by
          have hexpand : (k + 1) * va = k * va + va := by ring
          omega
        have hmulB : (k * va + k) * B ≤ T * B := Nat.mul_le_mul_right B hkva
        have hleft : k * (va * B + vl) = k * va * B + k * vl := by ring
        have hright : (k * va + k) * B = k * va * B + k * B := by ring
        omega
    refine ⟨by omega, ?_, by omega⟩
    rw [← hqa] at hlower
    have := (Nat.le_div_iff_mul_le hVpos).mpr hlower
    omega

/-- A divisor that is ready: a zero, and a first digit of five at least. -/
structure Ready (v : List ℕ) : Prop where
  digits : Digits v
  form : ∃ v1 v2 t, v = 0 :: v1 :: v2 :: t ∧ 5 ≤ v1

theorem Ready.pos {v : List ℕ} (h : Ready v) : 0 < decVal v := by
  obtain ⟨v1, v2, t, rfl, hv1⟩ := h.form
  rw [decVal_cons, Nat.zero_mul, Nat.zero_add]
  have hlow := le_decVal (l := v2 :: t) (by omega : v1 ≠ 0)
  have hten : 0 < 10 ^ (v2 :: t).length := Nat.pow_pos (by decide)
  omega

theorem Ready.lt {v : List ℕ} (h : Ready v) : 10 * decVal v < 10 ^ v.length := by
  obtain ⟨v1, v2, t, rfl, -⟩ := h.form
  have hlt := decVal_lt h.digits.tail
  rw [decVal_cons, Nat.zero_mul, Nat.zero_add, List.length_cons, pow_succ]
  omega

/-- The window is the first digits of what is left of the dividend. -/
structure Window (v rest : List ℕ) : Prop where
  digits : Digits rest
  long : v.length ≤ rest.length
  small : decVal (rest.take v.length) < 10 * decVal v

/-- The digit is estimated right, or one too large. -/
theorem estimate_window {v rest : List ℕ} (hv : Ready v) (h : Window v rest) :
    decVal (rest.take v.length) / decVal v ≤ estimate v rest ∧
      estimate v rest ≤ decVal (rest.take v.length) / decVal v + 1 ∧ estimate v rest ≤ 9 := by
  have hsmall := h.small
  obtain ⟨v1, v2, t, rfl, hv1⟩ := hv.form
  have hlong := h.long
  obtain ⟨r0, rest, rfl⟩ := List.exists_cons_of_length_pos (by
    simp only [List.length_cons] at hlong
    omega : 0 < rest.length)
  obtain ⟨r1, rest, rfl⟩ := List.exists_cons_of_length_pos (by
    simp only [List.length_cons] at hlong
    omega : 0 < rest.length)
  obtain ⟨r2, rest, rfl⟩ := List.exists_cons_of_length_pos (by
    simp only [List.length_cons] at hlong
    omega : 0 < rest.length)
  have hr1 := h.digits.tail.head
  have hr2 := h.digits.tail.tail.head
  have hv1' := hv.digits.tail.head
  have hv2' := hv.digits.tail.tail.head
  have hlen : (rest.take t.length).length = t.length := by
    simp only [List.length_cons] at hlong
    rw [List.length_take]
    omega
  have hwl := decVal_lt (h.digits.tail.tail.tail.of_subset (List.take_subset t.length rest))
  have hvl := decVal_lt hv.digits.tail.tail.tail
  rw [hlen] at hwl
  have hW : decVal ((r0 :: r1 :: r2 :: rest).take (0 :: v1 :: v2 :: t).length) =
      (100 * r0 + 10 * r1 + r2) * 10 ^ t.length + decVal (rest.take t.length) := by
    simp only [List.length_cons, List.take_succ_cons]
    rw [decVal_cons, decVal_cons, decVal_cons, List.length_cons, List.length_cons, hlen]
    ring
  have hV : decVal (0 :: v1 :: v2 :: t) = (10 * v1 + v2) * 10 ^ t.length + decVal t := by
    rw [decVal_cons, decVal_cons, decVal_cons, List.length_cons, List.length_cons]
    ring
  apply estimate_spec hW hV hwl hvl (show r0 = _ / 100 by omega) (show v1 = _ / 10 by omega) hv1 (by omega) hsmall
  unfold estimate
  simp only [List.getD_cons_zero, List.getD_cons_succ]
  congr 2
  ring

/-- Two numbers below a power that differ by a multiple of it are the same. -/
theorem carry_zero {a r c P : ℤ} (ha : 0 ≤ a) (haP : a < P) (hr : 0 ≤ r) (hrP : r < P) (h : a + c * P = r) : c = 0 := by
  by_contra hne
  obtain hneg | hpos := lt_or_gt_of_ne hne
  · have : c * P ≤ -1 * P := mul_le_mul_of_nonneg_right (by omega) (by omega)
    linarith
  · have : 1 * P ≤ c * P := mul_le_mul_of_nonneg_right (by omega) (by omega)
    linarith

/-- A step finds the digit of the quotient, and leaves the remainder. -/
theorem divStep_spec {v rest : List ℕ} (hv : Ready v) (h : Window v rest) :
    (divStep v rest).1 = decVal (rest.take v.length) / decVal v ∧
      ∃ left : List ℕ, (divStep v rest).2 = left ++ rest.drop v.length ∧ Digits left ∧ left.length = v.length ∧
        decVal left = decVal (rest.take v.length) % decVal v := by
  obtain ⟨hlow, hhigh, hnine⟩ := estimate_window hv h
  have hVpos := hv.pos
  have hVlt := hv.lt
  have hlen : (rest.take v.length).reverse.length = v.reverse.length := by
    rw [List.length_reverse, List.length_reverse, List.length_take]
    exact Nat.min_eq_left h.long
  have hlenv : (rest.take v.length).reverse.length = v.length := by rw [hlen, List.length_reverse]
  obtain ⟨hdig, hlength, hval⟩ := windowLoop_spec (-(estimate v rest)) (rest.take v.length).reverse v.reverse 0 []
    hlen fun d hd => nomatch hd
  rw [hlenv] at hlength hval
  simp only [List.length_nil, add_zero, pow_zero, mul_one, decVal_nil, Nat.cast_zero] at hlength hval
  change _ = ((decVal (rest.take v.length) : ℕ) : ℤ) + -(estimate v rest) * ((decVal v : ℕ) : ℤ) at hval
  have hbound := decVal_lt hdig
  rw [hlength] at hbound
  have hdivmod := Nat.div_add_mod (decVal (rest.take v.length)) (decVal v)
  have hmod := Nat.mod_lt (decVal (rest.take v.length)) hVpos
  unfold divStep
  dsimp only
  generalize windowLoop (-(estimate v rest)) (rest.take v.length).reverse v.reverse 0 [] = sub at hdig hlength hval hbound ⊢
  generalize estimate v rest = qa at *
  generalize decVal (rest.take v.length) = W at *
  generalize hQ : W / decVal v = Q at *
  generalize hR : W % decVal v = R at *
  obtain ⟨cy, w⟩ := sub
  dsimp only at *
  have hwlt : (decVal w : ℤ) < 10 ^ v.length := by exact_mod_cast hbound
  obtain rfl | rfl : qa = Q ∨ qa = Q + 1 := by omega
  · -- The estimate is right, and nothing is borrowed.
    have hrem : (decVal w : ℤ) + cy * 10 ^ v.length = R := by
      rw [hval, ← hdivmod]
      push_cast
      ring
    have hcy : cy = 0 := by
      apply carry_zero (Int.natCast_nonneg _) hwlt (Int.natCast_nonneg R) _ hrem
      have : R < 10 ^ v.length := by omega
      exact_mod_cast this
    rw [hcy, zero_mul, add_zero] at hrem
    rw [if_neg (not_not.mpr hcy)]
    exact ⟨rfl, w, rfl, hdig, hlength, by exact_mod_cast hrem⟩
  · -- One too large: a one is borrowed, and the divisor is added back.
    have hrem : (decVal w : ℤ) + cy * 10 ^ v.length = R - decVal v := by
      rw [hval, ← hdivmod]
      push_cast
      ring
    have hRlt : (R : ℤ) < decVal v := by exact_mod_cast hmod
    have hVlt' : (decVal v : ℤ) < 10 ^ v.length := by
      have : decVal v < 10 ^ v.length := by omega
      exact_mod_cast this
    have hR0 : (0 : ℤ) ≤ R := Int.natCast_nonneg R
    have hcy : cy = -1 := by
      have hborrow : (decVal w : ℤ) + (cy + 1) * 10 ^ v.length = R - decVal v + 10 ^ v.length := by
        rw [← hrem]
        ring
      have := carry_zero (Int.natCast_nonneg _) hwlt (by omega) (by omega) hborrow
      omega
    rw [hcy] at hrem
    rw [if_pos (by omega)]
    have hlen2 : w.reverse.length = v.reverse.length := by rw [List.length_reverse, List.length_reverse, hlength]
    obtain ⟨hdig2, hlength2, hval2⟩ := windowLoop_spec 1 w.reverse v.reverse 0 [] hlen2 fun d hd => nomatch hd
    rw [List.length_reverse, hlength] at hlength2 hval2
    simp only [List.length_nil, add_zero, pow_zero, mul_one, one_mul, decVal_nil, Nat.cast_zero] at hlength2 hval2
    change _ = ((decVal w : ℕ) : ℤ) + ((decVal v : ℕ) : ℤ) at hval2
    have hbound2 := decVal_lt hdig2
    rw [hlength2] at hbound2
    generalize windowLoop 1 w.reverse v.reverse 0 [] = add at hdig2 hlength2 hval2 hbound2 ⊢
    obtain ⟨cy2, w2⟩ := add
    dsimp only at *
    have hw2lt : (decVal w2 : ℤ) < 10 ^ v.length := by exact_mod_cast hbound2
    have hback : (decVal w2 : ℤ) + (cy2 - 1) * 10 ^ v.length = R := by linarith
    have hcy2 : cy2 - 1 = 0 := carry_zero (Int.natCast_nonneg _) hw2lt hR0 (by omega) hback
    rw [hcy2, zero_mul, add_zero] at hback
    exact ⟨Nat.add_sub_cancel .., w2, rfl, hdig2, hlength2, by exact_mod_cast hback⟩

/-! ### All digits -/

/-- The step leads from a window to the next one. -/
theorem divStep_next {v rest : List ℕ} (hv : Ready v) (h : Window v rest) (hlong : v.length < rest.length) :
    (divStep v rest).1 < 10 ∧ Window v (divStep v rest).2.tail ∧ (divStep v rest).2.tail.length + 1 = rest.length ∧
      (decVal rest = 0 → (divStep v rest).1 = 0 ∧ decVal (divStep v rest).2.tail = 0) := by
  obtain ⟨hdigit, left, hrest, hdig, hlen, hval⟩ := divStep_spec hv h
  have hVpos := hv.pos
  have hVlt := hv.lt
  have hmod := Nat.mod_lt (decVal (rest.take v.length)) hVpos
  have hsmall := h.small
  -- What is left begins with a zero.
  obtain ⟨a, l, rfl⟩ := List.exists_cons_of_length_pos (by
    obtain ⟨v1, v2, t, rfl, -⟩ := hv.form
    rw [hlen, List.length_cons]
    omega : 0 < left.length)
  rw [List.length_cons] at hlen
  rw [decVal_cons] at hval
  have ha : a = 0 := by
    by_contra hne
    have hone : 1 * 10 ^ l.length ≤ a * 10 ^ l.length := Nat.mul_le_mul_right _ (Nat.pos_of_ne_zero hne)
    rw [← hlen, pow_succ] at hVlt
    omega
  rw [ha, Nat.zero_mul, Nat.zero_add] at hval
  obtain ⟨x, tail, hdrop⟩ := List.exists_cons_of_length_pos (by
    rw [List.length_drop]
    omega : 0 < (rest.drop v.length).length)
  have hdropdig : Digits (rest.drop v.length) := h.digits.of_subset (List.drop_subset _ _)
  have hcount : (rest.drop v.length).length = rest.length - v.length := List.length_drop
  rw [hdrop] at hdropdig hcount
  rw [List.length_cons] at hcount
  rw [hdigit, hrest, hdrop, List.cons_append, List.tail_cons]
  refine ⟨(Nat.div_lt_iff_lt_mul hVpos).mpr hsmall, ⟨?_, ?_, ?_⟩, ?_, fun hzero => ?_⟩
  · intro d hd
    obtain hd | hd := List.mem_append.mp hd
    · exact hdig.tail d hd
    · exact hdropdig d hd
  · rw [List.length_append, List.length_cons]
    omega
  · have htake : (l ++ x :: tail).take v.length = l ++ [x] := by
      rw [← hlen, List.take_length_add_append]
      rfl
    have hx := hdropdig.head
    rw [htake, decVal_append, decVal_singleton, List.length_singleton, pow_one, hval]
    omega
  · rw [List.length_append, List.length_cons]
    omega
  · have hsplit := decVal_append (rest.take v.length) (rest.drop v.length)
    rw [List.take_append_drop, hzero, hdrop] at hsplit
    have hpow : 0 < 10 ^ (x :: tail).length := Nat.pow_pos (by decide)
    have hW : decVal (rest.take v.length) = 0 := by
      by_contra hne
      have := Nat.mul_pos (Nat.pos_of_ne_zero hne) hpow
      omega
    rw [hW, Nat.zero_mul, Nat.zero_add] at hsplit
    rw [hW, Nat.zero_mod] at hval
    rw [hW, Nat.zero_div, decVal_append, hval, Nat.zero_mul, ← hsplit]
    exact ⟨rfl, rfl⟩

/-- The loop of `CFDiv`, by induction on the digits to come. -/
theorem divLoop_spec {v : List ℕ} (hv : Ready v) (n : ℕ) (rest digits : List ℕ) (h : Window v rest)
    (hlong : v.length + n ≤ rest.length) (hdigits : Digits digits) :
    Digits (divLoop v n rest digits).1 ∧ (divLoop v n rest digits).1.length = digits.length + n ∧
      Window v (divLoop v n rest digits).2 ∧
      (decVal rest = 0 → decVal digits = 0 →
        decVal (divLoop v n rest digits).1 = 0 ∧ decVal (divLoop v n rest digits).2 = 0) := by
  induction n generalizing rest digits with
  | zero => exact ⟨hdigits, rfl, h, fun hr hd => ⟨hd, hr⟩⟩
  | succ n ih =>
      obtain ⟨hdigit, hnext, hlen, hzero⟩ := divStep_next hv h (by omega)
      have hmore : Digits (digits ++ [(divStep v rest).1]) := by
        intro d hd
        obtain hd | hd := List.mem_append.mp hd
        · exact hdigits d hd
        · rw [List.mem_singleton.mp hd]
          exact hdigit
      obtain ⟨hdig, hlength, hwindow, hzeros⟩ := ih _ _ hnext (by omega) hmore
      unfold divLoop
      refine ⟨hdig, ?_, hwindow, fun hr hd => ?_⟩
      · rw [hlength, List.length_append, List.length_singleton]
        omega
      · obtain ⟨hq, hleft⟩ := hzero hr
        apply hzeros hleft
        rw [decVal_append, hd, hq]
        rfl

/-! ### The operands -/

theorem scalarLoop_eq {s : ℕ} (hs : s < 10) {l : List ℕ} (hl : Digits l) (quot : ℕ) (digits : List ℕ) (hquot : quot < 9) :
    scalarLoop s l quot digits = sdLoop s l quot digits := by
  induction l generalizing quot digits with
  | nil =>
      unfold scalarLoop sdLoop
      rw [Nat.mod_eq_of_lt (by omega)]
  | cons d l ih =>
      have hd := hl.head
      have hprod : s * d ≤ 9 * 9 := Nat.mul_le_mul (by omega) (by omega)
      have hsum : quot + d * s = s * d + quot := by rw [Nat.mul_comm, Nat.add_comm]
      unfold scalarLoop sdLoop
      dsimp only
      rw [hsum]
      exact ih hl.tail _ _ (by omega)

theorem scalarMultiply_spec {f : CFloat} (hf : Digits f.mant) {s : ℕ} (hs : s < 10) :
    Digits (scalarMultiply f s).mant ∧ (scalarMultiply f s).mant.length = f.mant.length + 1 ∧
      decVal (scalarMultiply f s).mant = decVal f.mant * s := by
  have hrev : Digits f.mant.reverse := fun d hd => hf d (List.mem_reverse.mp hd)
  obtain ⟨hdig, hlen, hval⟩ := sdLoop_spec hs hrev 0 [] (by decide) fun d hd => nomatch hd
  simp only [List.length_nil, pow_zero, mul_one, add_zero, decVal_nil, List.length_reverse] at hlen hval
  unfold scalarMultiply
  dsimp only
  rw [scalarLoop_eq hs hrev 0 [] (by decide)]
  exact ⟨hdig, hlen, hval⟩

theorem divScale_spec {d : ℕ} (h0 : d ≠ 0) (hd : d < 10) :
    divScale d ≤ 5 ∧ 5 ≤ d * divScale d ∧ (d + 1) * divScale d ≤ 10 := by
  have hall : ∀ e < 10, e ≠ 0 → divScale e ≤ 5 ∧ 5 ≤ e * divScale e ∧ (e + 1) * divScale e ≤ 10 := by decide
  exact hall d hd h0

theorem decVal_replicate (l : List ℕ) (n : ℕ) : decVal (l ++ List.replicate n 0) = decVal l * 10 ^ n := by
  rw [decVal_append, List.length_replicate, decVal_zeros fun d hd => List.eq_of_mem_replicate hd, Nat.add_zero]

theorem digits_replicate {l : List ℕ} (h : Digits l) (n : ℕ) : Digits (l ++ List.replicate n 0) := by
  intro d hd
  obtain hd | hd := List.mem_append.mp hd
  · exact h d hd
  · rw [List.eq_of_mem_replicate hd]
    decide

/-- The first digit of a number is what its size says. -/
theorem head_of_decVal {a n : ℕ} {l : List ℕ} (hl : Digits (a :: l)) :
    (decVal (a :: l) < n * 10 ^ l.length ↔ a < n) := by
  have hlt := decVal_lt hl.tail
  rw [decVal_cons]
  constructor
  · intro h
    by_contra hge
    have hle : n * 10 ^ l.length ≤ a * 10 ^ l.length := Nat.mul_le_mul_right _ (not_lt.mp hge)
    omega
  · intro h
    have hle : (a + 1) * 10 ^ l.length ≤ n * 10 ^ l.length := Nat.mul_le_mul_right _ h
    rw [Nat.succ_mul] at hle
    omega

theorem divDivisor_ready {f2 : CFloat} (h : f2.Proper) : Ready (divDivisor f2).mant := by
  obtain ⟨d, t, hmant, hd⟩ := h.trimmed.head
  have hdigits := h.trimmed.digits
  rw [hmant] at hdigits
  obtain ⟨hs5, hlow, hhigh⟩ := divScale_spec hd hdigits.head
  have hfirst : f2.access 0 = d := by
    unfold CFloat.access
    rw [hmant]
    rfl
  obtain ⟨hdig, hlen, hval⟩ := scalarMultiply_spec h.trimmed.digits (by omega : divScale d < 10)
  unfold divDivisor
  dsimp only
  rw [hfirst]
  generalize scalarMultiply f2 (divScale d) = v at hdig hlen hval ⊢
  rw [hmant, List.length_cons] at hlen
  rw [hmant, decVal_cons] at hval
  have htlt := decVal_lt hdigits.tail
  -- The value is at least five and below ten, in front of the digits of `t`.
  have hge : 5 * 10 ^ t.length ≤ decVal v.mant := by
    rw [hval, Nat.add_mul]
    have h1 : 5 * 10 ^ t.length ≤ d * divScale d * 10 ^ t.length := Nat.mul_le_mul_right _ hlow
    have h2 : d * 10 ^ t.length * divScale d = d * divScale d * 10 ^ t.length := by ring
    omega
  have hlt : decVal v.mant < 1 * 10 ^ (t.length + 1) := by
    rw [hval]
    obtain hzero | hpos := Nat.eq_zero_or_pos (divScale d)
    · rw [hzero, Nat.mul_zero]
      positivity
    · calc (d * 10 ^ t.length + decVal t) * divScale d
          < (d + 1) * 10 ^ t.length * divScale d := by
            apply Nat.mul_lt_mul_of_pos_right _ hpos
            rw [Nat.succ_mul]
            omega
        _ = (d + 1) * divScale d * 10 ^ t.length := by ring
        _ ≤ 10 * 10 ^ t.length := Nat.mul_le_mul_right _ hhigh
        _ = 1 * 10 ^ (t.length + 1) := by ring
  obtain ⟨vexp, vsign, vmant⟩ := v
  dsimp only at hdig hlen hval hge hlt
  match vmant, hlen with
  | a0 :: a1 :: rest, hlen =>
      simp only [List.length_cons, Nat.add_right_cancel_iff] at hlen
      have ha0 : a0 < 1 := by
        apply (head_of_decVal hdig).mp
        rw [List.length_cons, hlen]
        exact hlt
      obtain rfl : a0 = 0 := by omega
      have ha1 : ¬ a1 < 5 := by
        rw [← head_of_decVal hdig.tail, hlen]
        rw [decVal_cons, Nat.zero_mul, Nat.zero_add] at hge
        omega
      cases rest with
      | nil =>
          rw [if_pos (by unfold CFloat.len; simp only [List.length_cons, List.length_nil]; norm_num)]
          exact ⟨digits_replicate hdig 1, a1, 0, [], rfl, by omega⟩
      | cons a2 rest =>
          rw [if_neg (by unfold CFloat.len; simp only [List.length_cons]; push_cast; omega)]
          exact ⟨hdig, a1, a2, rest, rfl, by omega⟩

theorem Ready.ge {v : List ℕ} (h : Ready v) : 5 * 10 ^ v.length ≤ 100 * decVal v := by
  obtain ⟨v1, v2, t, rfl, hv1⟩ := h.form
  have hle : 5 * 10 ^ (v2 :: t).length ≤ v1 * 10 ^ (v2 :: t).length := Nat.mul_le_mul_right _ hv1
  rw [decVal_cons, Nat.zero_mul, Nat.zero_add, decVal_cons]
  have hpow : 10 ^ (0 :: v1 :: v2 :: t).length = 100 * 10 ^ (v2 :: t).length := by
    rw [List.length_cons, List.length_cons, pow_succ, pow_succ]
    ring
  omega

theorem CFloat.Normal.digits {f : CFloat} (h : f.Normal) : Digits f.mant ∧ f.mant ≠ [] := by
  obtain rfl | h := h
  · exact ⟨by decide, by decide⟩
  · obtain ⟨d, t, hmant, -⟩ := h.trimmed.head
    exact ⟨h.trimmed.digits, by rw [hmant]; exact List.cons_ne_nil d t⟩

/-- The dividend is ready for the first digit, and long enough for all of them. -/
theorem divDividend_window {f1 f2 : CFloat} (h1 : f1.Normal) (h2 : f2.Proper) :
    Window (divDivisor f2).mant ((divDividend f1 f2).mant ++ List.replicate cfMaxPrec 0) ∧
      (divDivisor f2).mant.length + 1 ≤ (divDividend f1 f2).mant.length ∧
      (decVal f1.mant = 0 → decVal ((divDividend f1 f2).mant ++ List.replicate cfMaxPrec 0) = 0) := by
  have hready := divDivisor_ready h2
  obtain ⟨hd1, hne⟩ := h1.digits
  obtain ⟨d, t, hmant2, hd⟩ := h2.trimmed.head
  have hdigits2 := h2.trimmed.digits
  rw [hmant2] at hdigits2
  obtain ⟨hs5, -, -⟩ := divScale_spec hd hdigits2.head
  have hfirst : f2.access 0 = d := by
    unfold CFloat.access
    rw [hmant2]
    rfl
  obtain ⟨hdig, hlen, hval⟩ := scalarMultiply_spec hd1 (by omega : divScale d < 10)
  unfold divDividend
  dsimp only
  rw [hfirst]
  generalize (divDivisor f2) = v at hready ⊢
  generalize scalarMultiply f1 (divScale d) = u at hdig hlen hval ⊢
  have hlt := decVal_lt hd1
  -- Both forms of the dividend are the product with zeros behind it.
  obtain ⟨n, hn, hlong⟩ : ∃ n, (if u.len ≤ v.len then expandCF u (v.len - u.len + 1).toNat else u).mant =
      u.mant ++ List.replicate n 0 ∧ v.mant.length + 1 ≤ u.mant.length + n := by
    unfold CFloat.len
    split_ifs with hshort
    · exact ⟨_, rfl, by omega⟩
    · exact ⟨0, (List.append_nil _).symm, by omega⟩
  rw [hn]
  have hall : Digits (u.mant ++ List.replicate n 0 ++ List.replicate cfMaxPrec 0) :=
    digits_replicate (digits_replicate hdig n) cfMaxPrec
  obtain ⟨a, rest, hu⟩ := List.exists_cons_of_length_pos (by omega : 0 < u.mant.length)
  have ha : a < 5 := by
    rw [hu] at hdig hval hlen
    apply (head_of_decVal hdig).mp
    rw [hval]
    have hrest : rest.length = f1.mant.length := by
      rw [List.length_cons] at hlen
      omega
    rw [hrest]
    calc decVal f1.mant * divScale d ≤ decVal f1.mant * 5 := Nat.mul_le_mul_left _ hs5
      _ < 5 * 10 ^ f1.mant.length := by omega
  refine ⟨⟨hall, ?_, ?_⟩, ?_, fun hzero => ?_⟩
  · rw [List.length_append, List.length_append, List.length_replicate, List.length_replicate]
    omega
  · have hge := hready.ge
    obtain ⟨v1, v2, tv, hv, -⟩ := hready.form
    have hvlen : v.mant.length = (v1 :: v2 :: tv).length + 1 := by rw [hv, List.length_cons]
    have htake : (u.mant ++ List.replicate n 0 ++ List.replicate cfMaxPrec 0).take v.mant.length =
        a :: (rest ++ List.replicate n 0 ++ List.replicate cfMaxPrec 0).take (v1 :: v2 :: tv).length := by
      rw [hvlen, hu, List.cons_append, List.cons_append, List.take_succ_cons]
    have hcount : ((rest ++ List.replicate n 0 ++ List.replicate cfMaxPrec 0).take (v1 :: v2 :: tv).length).length =
        (v1 :: v2 :: tv).length := by
      rw [hu, List.length_cons] at hlong
      rw [List.length_take, List.length_append, List.length_append, List.length_replicate, List.length_replicate]
      omega
    have hsub : Digits ((u.mant ++ List.replicate n 0 ++ List.replicate cfMaxPrec 0).take v.mant.length) :=
      hall.of_subset (List.take_subset _ _)
    rw [htake] at hsub ⊢
    have hsmall := (head_of_decVal hsub).mpr ha
    rw [hcount] at hsmall
    rw [hvlen, pow_succ] at hge
    omega
  · rw [List.length_append, List.length_replicate]
    exact hlong
  · rw [decVal_replicate, decVal_replicate, hval, hzero, Nat.zero_mul, Nat.zero_mul, Nat.zero_mul]

/-! ### The result -/

theorem roundupLoop_spec (l digits : List ℕ) (hl : Digits l) (hdigits : Digits digits) :
    Digits (roundupLoop l digits).2 ∧ (roundupLoop l digits).2.length = l.length + digits.length := by
  induction l generalizing digits with
  | nil =>
      unfold roundupLoop
      exact ⟨hdigits, by simp⟩
  | cons d l ih =>
      unfold roundupLoop
      split_ifs with hnine
      · obtain ⟨hdig, hlen⟩ := ih (0 :: digits) hl.tail (hdigits.cons (by decide))
        refine ⟨hdig, hlen.trans ?_⟩
        rw [List.length_cons, List.length_cons]
        omega
      · have hd := hl.head
        refine ⟨?_, ?_⟩
        · intro e he
          obtain he | he := List.mem_append.mp he
          · exact hl.tail e (List.mem_reverse.mp he)
          · exact (hdigits.cons (by omega : d + 1 < 10)) e he
        · dsimp only
          rw [List.length_append, List.length_reverse, List.length_cons, List.length_cons]
          omega

theorem roundupCF_spec {f : CFloat} (hf : Digits f.mant) (hne : f.mant ≠ []) :
    Digits (roundupCF f).mant ∧ (roundupCF f).mant.length = f.mant.length ∧ (roundupCF f).sign = f.sign := by
  have hrev : Digits f.mant.reverse := fun d hd => hf d (List.mem_reverse.mp hd)
  obtain ⟨hdig, hlen⟩ := roundupLoop_spec f.mant.reverse [] hrev fun d hd => nomatch hd
  rw [List.length_reverse, List.length_nil, Nat.add_zero] at hlen
  have hpos := List.length_pos_of_ne_nil hne
  unfold roundupCF
  generalize roundupLoop f.mant.reverse [] = r at hdig hlen ⊢
  obtain ⟨carry, digits⟩ := r
  dsimp only at hdig hlen
  cases carry with
  | true =>
      refine ⟨Digits.cons (by decide) (hdig.of_subset (List.tail_subset _)), ?_, rfl⟩
      dsimp only
      rw [List.length_cons, List.length_tail]
      omega
  | false => exact ⟨hdig, hlen, rfl⟩

/-- `CFClean` makes a normal form of 32 digits at most. -/
theorem cfClean_normal {f : CFloat} (hf : Digits f.mant) (hne : f.mant ≠ []) (hlen : f.mant.length ≤ cfMaxPrec)
    (hsign : (f.sign = 1 ∨ f.sign = -1) ∨ decVal f.mant = 0) : (cfClean f).Normal := by
  by_cases h0 : decVal f.mant = 0
  · rw [cfClean_zero hne h0]
    exact .zero
  · have hrough : f.Rough := ⟨hsign.resolve_right h0, hf, h0⟩
    have hshort : Short f.val := by
      refine ⟨decVal f.mant, f.exp - f.len, ?_, hrough.abs_val⟩
      exact lt_of_lt_of_le (decVal_lt hf) (Nat.pow_le_pow_right (by decide) hlen)
    exact .inr (cfClean_spec hrough hshort).1

/-- A quotient is in normal form. -/
theorem cfDiv_normal {f1 f2 : CFloat} (h1 : f1.Normal) (h2 : f2.Normal) : (cfDiv f1 f2).Normal := by
  unfold cfDiv
  by_cases hzero : f2.sign = 0
  · rw [if_pos hzero]
    exact .inr ⟨.inl rfl, (by decide : Trimmed [1])⟩
  · rw [if_neg hzero]
    obtain rfl | h2 := h2
    · exact absurd rfl hzero
    · have hready := divDivisor_ready h2
      obtain ⟨hwindow, hlong, hzeros⟩ := divDividend_window h1 h2
      dsimp only
      generalize (divDivisor f2).mant = v at hready hwindow hlong ⊢
      generalize (divDividend f1 f2).mant = u at hwindow hlong hzeros ⊢
      obtain ⟨hdig, hlen, hlast, hnone⟩ := divLoop_spec hready cfMaxPrec (u ++ List.replicate cfMaxPrec 0) [] hwindow
        (by rw [List.length_append, List.length_replicate]; omega) fun d hd => nomatch hd
      rw [List.length_nil, Nat.zero_add] at hlen
      generalize divLoop v cfMaxPrec (u ++ List.replicate cfMaxPrec 0) [] = all at hdig hlen hlast hnone ⊢
      have hne : all.1 ≠ [] := by
        intro hnil
        rw [hnil] at hlen
        exact absurd hlen (by decide)
      have hsign : (f1.sign * f2.sign = 1 ∨ f1.sign * f2.sign = -1) ∨ f1 = cfAlloc := by
        obtain rfl | h1 := h1
        · exact .inr rfl
        · exact .inl (mul_sign h1 h2)
      split_ifs with hround
      · obtain ⟨hdig', hlen', hsign'⟩ :=
          roundupCF_spec (f := ⟨f1.exp - f2.exp + 1, f1.sign * f2.sign, all.1⟩) hdig hne
        apply cfClean_normal hdig'
        · intro hnil
          rw [hnil] at hlen'
          exact hne (List.length_eq_zero_iff.mp hlen'.symm)
        · rw [hlen']
          exact hlen.le
        · rw [hsign']
          obtain hs | rfl := hsign
          · exact .inl hs
          · -- Nothing is rounded where the dividend is zero.
            obtain ⟨-, hrest⟩ := hnone (hzeros rfl) rfl
            have hq := (divStep_spec hready hlast).1
            have hsplit := decVal_append (all.2.take v.length) (all.2.drop v.length)
            rw [List.take_append_drop, hrest] at hsplit
            have hpow : 0 < 10 ^ (all.2.drop v.length).length := Nat.pow_pos (by decide)
            have hW : decVal (all.2.take v.length) = 0 := by
              by_contra hne
              have := Nat.mul_pos (Nat.pos_of_ne_zero hne) hpow
              omega
            rw [hW, Nat.zero_div] at hq
            rw [hq] at hround
            obtain hbad | hbad := hround
            · exact absurd hbad (by decide)
            · exact absurd hbad.1 (by decide)
      · apply cfClean_normal hdig hne hlen.le
        obtain hs | rfl := hsign
        · exact .inl hs
        · exact .inr (hnone (hzeros rfl) rfl).1

end OpenWatcom.Cfloat
