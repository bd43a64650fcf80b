import OpenWatcom.Cfloat.Division

/-! # The arrays of the decimal division

`CFDiv` keeps the dividend in a mantissa and has 32 more digits behind it in an array, `ue`.  Here every access is
checked, and gives nothing outside the two.  `cfDivArray_eq`: there is no such access, and the arrays compute the
quotient that the lists of `cfDiv` give. -/

namespace OpenWatcom.Cfloat

open OpenWatcom

/-! ### The arrays -/

/-- The digits of the dividend, `u`, and those behind them, `ue`. -/
structure Extended where
  u : List ℕ
  ue : List ℕ

namespace Extended

def all (m : Extended) : List ℕ := m.u ++ m.ue

/-- `efGet`. -/
def efGet (m : Extended) (i : ℕ) : Option ℕ := if m.u.length ≤ i then m.ue[i - m.u.length]? else m.u[i]?

/-- `efSet`. -/
def efSet (m : Extended) (i val : ℕ) : Option Extended :=
  if m.u.length ≤ i then
    if i - m.u.length < m.ue.length then some { m with ue := m.ue.set (i - m.u.length) val } else none
  else some { m with u := m.u.set i val }

/-- The loops over the divisor, from its last digit on. -/
def digitLoop (v : List ℕ) (factor : ℤ) (j : ℕ) : ℕ → Extended → ℤ → Option (ℤ × Extended)
  | 0, m, cy => some (cy, m)
  | i + 1, m, cy => do
    let w ← m.efGet (i + j)
    let d ← v[i]?
    let sum := divTen (w + factor * d + cy)
    let m ← m.efSet (i + j) sum.2.toNat
    digitLoop v factor j i m sum.1

/-- The estimate of the digit `j`. -/
def estimateAt (v1 v2 j : ℕ) (m : Extended) : Option ℕ := do
  let u0 ← m.efGet j
  if v1 = u0 then some 9
  else
    let u1 ← m.efGet (j + 1)
    let u2 ← m.efGet (j + 2)
    some ((u0 * 100 + u1 * 10 + u2) / (10 * v1 + v2))

/-- The body of the loop of `CFDiv`, up to the digit. -/
def divStepAt (v : List ℕ) (j : ℕ) (m : Extended) : Option (ℕ × Extended) := do
  let v1 ← v[1]?
  let v2 ← v[2]?
  let qa ← m.estimateAt v1 v2 j
  let sub ← digitLoop v (-qa) j v.length m 0
  if sub.1 ≠ 0 then
    let add ← digitLoop v 1 j v.length sub.2 0
    some (qa - 1, add.2)
  else some (qa, sub.2)

/-- `CFDeposit` of the next digit of the result, which has room for 32. -/
def deposit (digits : List ℕ) (q : ℕ) : Option (List ℕ) :=
  if digits.length < cfMaxPrec then some (digits ++ [q]) else none

def divLoopAt (v : List ℕ) : ℕ → ℕ → Extended → List ℕ → Option (List ℕ × Extended)
  | 0, _, m, digits => some (digits, m)
  | n + 1, j, m, digits => do
    let step ← m.divStepAt v j
    let digits ← deposit digits step.1
    divLoopAt v n (j + 1) step.2 digits

/-- Whether a digit of the remainder is not zero. -/
def anyLoop (j : ℕ) : ℕ → Extended → Option Bool
  | 0, _ => some false
  | i + 1, m => do
    let w ← m.efGet (i + j)
    if w ≠ 0 then some true else anyLoop j i m

end Extended

open Extended

/-- `CFDiv` with its arrays; nothing after an access outside them. -/
def cfDivArray (f1 f2 : CFloat) : Option CFloat :=
  if f2.sign = 0 then some ⟨cfErrExp, 1, [1]⟩
  else do
    let v := (divDivisor f2).mant
    let all ← divLoopAt v cfMaxPrec 0 ⟨(divDividend f1 f2).mant, List.replicate cfMaxPrec 0⟩ []
    let last ← all.2.divStepAt v cfMaxPrec
    let result : CFloat := ⟨f1.exp - f2.exp + 1, f1.sign * f2.sign, all.1⟩
    if 5 < last.1 then some (cfClean (roundupCF result))
    else if last.1 = 5 then
      let cy ← anyLoop cfMaxPrec v.length last.2
      if cy then some (cfClean (roundupCF result))
      else
        let d ← result.mant[cfMaxPrec - 1]?
        some (cfClean (if d % 2 ≠ 0 then roundupCF result else result))
    else some (cfClean result)

/-! ### Accesses -/

namespace Extended

theorem efGet_eq (m : Extended) (i : ℕ) : m.efGet i = m.all[i]? := by
  unfold efGet all
  split_ifs with h
  · rw [List.getElem?_append_right h]
  · rw [List.getElem?_append_left (not_le.mp h)]

/-- The arrays have the same lengths. -/
def SameSize (m m' : Extended) : Prop := m'.u.length = m.u.length ∧ m'.ue.length = m.ue.length

theorem SameSize.refl (m : Extended) : m.SameSize m := ⟨rfl, rfl⟩

theorem SameSize.trans {m m' m'' : Extended} (h : m.SameSize m') (h' : m'.SameSize m'') : m.SameSize m'' :=
  ⟨h'.1.trans h.1, h'.2.trans h.2⟩

theorem efSet_eq {m : Extended} {i : ℕ} (h : i < m.all.length) (val : ℕ) :
    ∃ m', m.efSet i val = some m' ∧ m'.all = m.all.set i val ∧ m.SameSize m' := by
  unfold all at h ⊢
  rw [List.length_append] at h
  unfold efSet
  split_ifs with hu hue
  · exact ⟨_, rfl, (List.set_append_right i val hu).symm, rfl, List.length_set⟩
  · omega
  · exact ⟨_, rfl, (List.set_append_left i val (not_le.mp hu)).symm, List.length_set, rfl⟩

/-- The loop over the divisor computes in place what the loop over the lists computes. -/
theorem digitLoop_eq (v : List ℕ) (factor : ℤ) (pre rest vdone : List ℕ) :
    ∀ (wr vr : List ℕ) (m : Extended) (cy : ℤ) (digits : List ℕ), wr.length = vr.length →
      m.all = pre ++ wr.reverse ++ digits ++ rest → v = vr.reverse ++ vdone →
      ∃ m', digitLoop v factor pre.length wr.length m cy = some ((windowLoop factor wr vr cy digits).1, m') ∧
        m'.all = pre ++ (windowLoop factor wr vr cy digits).2 ++ rest ∧ m.SameSize m'
  | [], [], m, cy, digits, _, hm, _ => ⟨m, rfl, by simpa [windowLoop] using hm, SameSize.refl m⟩
  | [], _ :: _, _, _, _, hlen, _, _ => nomatch hlen
  | _ :: _, [], _, _, _, hlen, _, _ => nomatch hlen
  | w :: wr, d :: vr, m, cy, digits, hlen, hm, hv => by
      have hlen' : wr.length = vr.length := Nat.succ.inj hlen
      rw [List.reverse_cons] at hm hv
      have hget : m.efGet (wr.length + pre.length) = some w := by
        rw [efGet_eq, hm]
        simp [Nat.add_comm]
      have hdigit : v[wr.length]? = some d := by
        rw [hv, hlen']
        simp
      have hbound : wr.length + pre.length < m.all.length := by
        rw [hm]
        simp only [List.length_append, List.length_reverse, List.length_cons]
        omega
      obtain ⟨m', hset, hall, hsize⟩ := efSet_eq hbound (divTen (w + factor * d + cy)).2.toNat
      have hm' : m'.all = pre ++ wr.reverse ++ ((divTen (w + factor * d + cy)).2.toNat :: digits) ++ rest := by
        rw [hall, hm]
        simp [Nat.add_comm]
      obtain ⟨m'', hloop, hall'', hsize''⟩ :=
        digitLoop_eq v factor pre rest ([d] ++ vdone) wr vr m' (divTen (w + factor * d + cy)).1 _ hlen' hm'
          (by rw [hv, List.append_assoc])
      refine ⟨m'', ?_, ?_, hsize.trans hsize''⟩
      · rw [List.length_cons, digitLoop, hget]
        simp only [Option.bind_eq_bind, Option.bind_some, hdigit, hset, hloop]
        rw [windowLoop]
      · rw [hall'', windowLoop]

/-- A step computes the digit and what is left in place. -/
theorem divStepAt_eq {v rest pre : List ℕ} (hv : Ready v) (h : Window v rest) {m : Extended}
    (hm : m.all = pre ++ rest) :
    ∃ m', m.divStepAt v pre.length = some ((divStep v rest).1, m') ∧ m'.all = pre ++ (divStep v rest).2 ∧
      m.SameSize m' := by
  have hlong := h.long
  have hget : ∀ i, m.efGet (pre.length + i) = rest[i]? := by
    intro i
    rw [efGet_eq, hm, List.getElem?_append_right (Nat.le_add_right _ _), Nat.add_sub_cancel_left]
  obtain ⟨v1, v2, t, hform, -⟩ := hv.form
  have hthree : 3 ≤ rest.length := by
    rw [hform] at hlong
    simp only [List.length_cons] at hlong
    omega
  have hsome : ∀ i < 3, rest[i]? = some (rest.getD i 0) := by
    intro i hi
    rw [List.getElem?_eq_getElem (by omega), List.getD_eq_getElem _ _ (by omega)]
  have hv1 : v[1]? = some (v.getD 1 0) := by
    rw [hform]
    rfl
  have hv2 : v[2]? = some (v.getD 2 0) := by
    rw [hform]
    rfl
  have hest : m.estimateAt (v.getD 1 0) (v.getD 2 0) pre.length = some (estimate v rest) := by
    have h0 := (hget 0).trans (hsome 0 (by decide))
    rw [Nat.add_zero] at h0
    unfold estimateAt estimate
    simp only [Option.bind_eq_bind, Option.bind_some, h0, (hget 1).trans (hsome 1 (by decide)),
      (hget 2).trans (hsome 2 (by decide))]
    split_ifs <;> rfl
  have hcount : (rest.take v.length).reverse.length = v.reverse.length := by
    rw [List.length_reverse, List.length_reverse, List.length_take, Nat.min_eq_left hlong]
  have hcount' : (rest.take v.length).reverse.length = v.length := hcount.trans List.length_reverse
  obtain ⟨m1, hloop1, hall1, hsize1⟩ := digitLoop_eq v (-(estimate v rest : ℤ)) pre (rest.drop v.length) []
    (rest.take v.length).reverse v.reverse m 0 [] hcount
    (by rw [List.reverse_reverse, List.append_nil, List.append_assoc, List.take_append_drop, hm])
    (by rw [List.reverse_reverse, List.append_nil])
  rw [hcount'] at hloop1
  obtain ⟨-, hlength, -⟩ := windowLoop_spec (-(estimate v rest)) (rest.take v.length).reverse v.reverse 0 []
    hcount fun d hd => nomatch hd
  rw [hcount', List.length_nil, Nat.add_zero] at hlength
  unfold divStepAt divStep
  simp only [Option.bind_eq_bind, hv1, hv2, Option.bind_some, hest, hloop1]
  generalize windowLoop (-(estimate v rest : ℤ)) (rest.take v.length).reverse v.reverse 0 [] = sub at *
  split_ifs with hcy
  · have hcount2 : sub.2.reverse.length = v.reverse.length := by
      rw [List.length_reverse, List.length_reverse, hlength]
    obtain ⟨m2, hloop2, hall2, hsize2⟩ := digitLoop_eq v 1 pre (rest.drop v.length) [] sub.2.reverse v.reverse
      m1 0 [] hcount2
      (by rw [List.reverse_reverse, List.append_nil, hall1])
      (by rw [List.reverse_reverse, List.append_nil])
    rw [List.length_reverse, hlength] at hloop2
    rw [hloop2]
    exact ⟨m2, rfl, hall2.trans (List.append_assoc ..), hsize1.trans hsize2⟩
  · exact ⟨m1, rfl, hall1.trans (List.append_assoc ..), hsize1⟩

/-- The loop of `CFDiv` in place. -/
theorem divLoopAt_eq {v : List ℕ} (hv : Ready v) (n : ℕ) (rest pre digits : List ℕ) (h : Window v rest)
    (hlong : v.length + n ≤ rest.length) (hroom : digits.length + n ≤ cfMaxPrec) {m : Extended}
    (hm : m.all = pre ++ rest) :
    ∃ m' pre', divLoopAt v n pre.length m digits = some ((divLoop v n rest digits).1, m') ∧
      m'.all = pre' ++ (divLoop v n rest digits).2 ∧ pre'.length = pre.length + n := by
  induction n generalizing rest pre digits m with
  | zero => exact ⟨m, pre, rfl, hm, rfl⟩
  | succ n ih =>
      obtain ⟨-, hnext, hlen, -⟩ := divStep_next hv h (by omega)
      obtain ⟨m', hstep, hall, -⟩ := divStepAt_eq hv h hm
      have hcons : (divStep v rest).2 = (divStep v rest).2.headD 0 :: (divStep v rest).2.tail := by
        cases hnil : (divStep v rest).2 with
        | nil =>
            obtain ⟨-, left, hleft, -, hleftlen, -⟩ := divStep_spec hv h
            have hpos := congrArg List.length hleft
            rw [hnil, List.length_append, hleftlen, List.length_drop, List.length_nil] at hpos
            omega
        | cons d l => rfl
      have hall' : m'.all = pre ++ [(divStep v rest).2.headD 0] ++ (divStep v rest).2.tail := by
        rw [hall, List.append_assoc, List.singleton_append, ← hcons]
      obtain ⟨m'', pre', hloop, hall'', hlen''⟩ := ih (divStep v rest).2.tail (pre ++ [(divStep v rest).2.headD 0])
        (digits ++ [(divStep v rest).1]) hnext (by omega)
        (by rw [List.length_append, List.length_singleton]; omega) hall'
      rw [List.length_append, List.length_singleton] at hloop hlen''
      refine ⟨m'', pre', ?_, hall'', by omega⟩
      have hdeposit : deposit digits (divStep v rest).1 = some (digits ++ [(divStep v rest).1]) := if_pos (by omega)
      rw [divLoopAt, hstep]
      simp only [Option.bind_eq_bind, Option.bind_some, hdeposit, hloop]
      rfl

theorem anyLoop_eq {rest pre : List ℕ} {m : Extended} (hm : m.all = pre ++ rest) {n : ℕ} (hn : n ≤ rest.length) :
    anyLoop pre.length n m = some ((rest.take n).any (· ≠ 0)) := by
  induction n with
  | zero => simp [anyLoop]
  | succ n ih =>
      have hget : m.efGet (n + pre.length) = some rest[n] := by
        rw [efGet_eq, hm, List.getElem?_append_right (Nat.le_add_left _ _), Nat.add_sub_cancel,
          List.getElem?_eq_getElem]
      rw [anyLoop, hget, List.take_succ_eq_append_getElem (by omega), List.any_append]
      simp only [Option.bind_eq_bind, Option.bind_some, ih (by omega)]
      by_cases h0 : rest[n] = 0 <;> simp [h0]

end Extended

/-- No access is outside the arrays. -/
theorem cfDivArray_eq {f1 f2 : CFloat} (h1 : f1.Normal) (h2 : f2.Normal) : cfDivArray f1 f2 = some (cfDiv f1 f2) := by
  unfold cfDivArray cfDiv
  by_cases hzero : f2.sign = 0
  · rw [if_pos hzero, if_pos hzero]
  · rw [if_neg hzero, if_neg hzero]
    obtain rfl | h2 := h2
    · exact absurd rfl hzero
    · have hready := divDivisor_ready h2
      obtain ⟨hwindow, hlong, -⟩ := divDividend_window h1 h2
      dsimp only
      generalize (divDivisor f2).mant = v at hready hwindow hlong ⊢
      generalize (divDividend f1 f2).mant = u at hwindow hlong ⊢
      have hfits : v.length + cfMaxPrec ≤ (u ++ List.replicate cfMaxPrec 0).length := by
        rw [List.length_append, List.length_replicate]
        omega
      obtain ⟨-, hdiglen, hlast, -⟩ := divLoop_spec hready cfMaxPrec _ [] hwindow hfits fun d hd => nomatch hd
      obtain ⟨m, pre, hloop, hall, hlen⟩ := divLoopAt_eq hready cfMaxPrec (u ++ List.replicate cfMaxPrec 0) [] []
        hwindow hfits le_rfl (m := ⟨u, List.replicate cfMaxPrec 0⟩) rfl
      rw [List.length_nil, Nat.zero_add] at hlen hdiglen
      obtain ⟨m', hstep, hall', -⟩ := divStepAt_eq hready hlast hall
      obtain ⟨-, left, hleft, -, hleftlen, -⟩ := divStep_spec hready hlast
      have hany := anyLoop_eq hall' (n := v.length) (by
        rw [hleft, List.length_append, hleftlen]
        omega)
      rw [hlen] at hstep hany
      have hdigit : (divLoop v cfMaxPrec (u ++ List.replicate cfMaxPrec 0) []).1[cfMaxPrec - 1]? =
          some ((divLoop v cfMaxPrec (u ++ List.replicate cfMaxPrec 0) []).1.getD (cfMaxPrec - 1) 0) := by
        have hbound : cfMaxPrec - 1 < (divLoop v cfMaxPrec (u ++ List.replicate cfMaxPrec 0) []).1.length := by
          rw [hdiglen]
          decide
        rw [List.getElem?_eq_getElem hbound, List.getD_eq_getElem _ _ hbound]
      have hacc : ∀ f : CFloat, f.access ((cfMaxPrec : ℤ) - 1) = f.mant.getD (cfMaxPrec - 1) 0 := fun _ => rfl
      change (divLoopAt v cfMaxPrec ([] : List ℕ).length _ []).bind _ = _
      rw [hloop]
      simp only [Option.bind_eq_bind, Option.bind_some, hstep, hany, hdigit, hacc]
      generalize (divLoop v cfMaxPrec (u ++ List.replicate cfMaxPrec 0) []).1 = q
      generalize divStep v (divLoop v cfMaxPrec (u ++ List.replicate cfMaxPrec 0) []).2 = last
      by_cases hgt : 5 < last.1
      · rw [if_pos hgt, if_pos (.inl hgt)]
      · rw [if_neg hgt]
        by_cases h5 : last.1 = 5
        · rw [if_pos h5]
          by_cases hrem : (last.2.take v.length).any (· ≠ 0) = true
          · rw [if_pos hrem, if_pos (.inr ⟨h5, .inl hrem⟩)]
          · rw [if_neg hrem]
            by_cases hodd : q.getD (cfMaxPrec - 1) 0 % 2 ≠ 0
            · rw [if_pos hodd, if_pos (.inr ⟨h5, .inr hodd⟩)]
            · rw [if_neg hodd, if_neg]
              rintro (h | ⟨-, h | h⟩)
              · exact hgt h
              · exact hrem h
              · exact hodd h
        · rw [if_neg h5, if_neg]
          rintro (h | ⟨h, -⟩)
          · exact hgt h
          · exact h5 h

end OpenWatcom.Cfloat
