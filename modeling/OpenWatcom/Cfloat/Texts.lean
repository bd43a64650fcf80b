import OpenWatcom.Cfloat.Quotient

/-! # Decimal texts of numbers

`CFCnvFS` writes a number as a text, and `CFCnvSF` reads it. Both place the point behind the first digit: an exponent
of the text is one less than that of the number. -/

namespace OpenWatcom.Cfloat

open OpenWatcom

/-- `I16DIGITS`. -/
def i16Digits : ℤ := 5

/-- The three digits of an exponent; the first one is not checked. -/
def expDigits (len : ℤ) : List Char :=
  [Char.ofNat ((len / 10 / 10).toNat + 48), Char.ofNat ((len / 10 % 10).toNat + 48),
    Char.ofNat ((len % 10).toNat + 48)]

/-- `CFCnvFS`, without the `NULLCHAR` at the end; a length below zero is none that `memcpy` could copy. -/
def cfCnvFS (f : CFloat) (maxlen : ℤ) : Option (List Char) :=
  let len := if f.len - 1 + 5 + i16Digits > maxlen then maxlen - 5 - i16Digits else f.len - 1
  if len < 0 then none
  else
    some ((if f.sign = -1 then ['-'] else []) ++ Nat.digitChar (f.access 0) :: '.' ::
      (((f.mant.tail.take len.toNat).map Nat.digitChar) ++ 'E' ::
        if 0 < f.exp then expDigits (f.exp - 1) else '-' :: expDigits (1 - f.exp)))

/-- A number as `CFClean` leaves it. -/
def CFloat.Normalised (f : CFloat) : Prop := f.Normal ∧ f.mant.length ≤ cfMaxPrec

/-- A number with the digits that a limit leaves room for. Beside the first digit, `CFCnvFS` reserves room for the
point, the letter, two signs, the end of the text and five digits of an exponent, of which it writes three. -/
def CFloat.fitted (f : CFloat) (maxlen : ℤ) : CFloat := { f with mant := f.mant.take (maxlen - 9).toNat }

theorem digitOf_digitChar {d : ℕ} (h : d < 10) : digitOf (Nat.digitChar d) = d ∧ (Nat.digitChar d).isDigit := by
  revert d
  decide

theorem map_digitOf {l : List ℕ} (h : Digits l) : (l.map Nat.digitChar).map digitOf = l := by
  rw [List.map_map]
  exact (List.map_congr_left fun d hd => (digitOf_digitChar (h d hd)).1).trans (List.map_id l)

/-- The digits at the front of a text are read up to a character that is none. -/
theorem takeWhile_digits {l : List ℕ} (h : Digits l) {c : Char} (hc : c.isDigit = false) (rest : List Char) :
    ((l.map Nat.digitChar) ++ c :: rest).takeWhile Char.isDigit = l.map Nat.digitChar ∧
      ((l.map Nat.digitChar) ++ c :: rest).dropWhile Char.isDigit = c :: rest := by
  have hl : ∀ x ∈ l.map Nat.digitChar, x.isDigit := by
    intro x hx
    obtain ⟨d, hd, rfl⟩ := List.mem_map.mp hx
    exact (digitOf_digitChar (h d hd)).2
  rw [List.takeWhile_append_of_pos hl, List.dropWhile_append_of_pos hl]
  simp [hc]

theorem expDigits_eq {n : ℕ} (hn : n < 1000) :
    expDigits n = [n / 100, n / 10 % 10, n % 10].map Nat.digitChar := by
  have hchar : ∀ d < 10, Char.ofNat (d + 48) = Nat.digitChar d := by decide
  have h1 : ((n : ℤ) / 10 / 10).toNat = n / 100 := by omega
  have h2 : ((n : ℤ) / 10 % 10).toNat = n / 10 % 10 := by omega
  have h3 : ((n : ℤ) % 10).toNat = n % 10 := by omega
  simp only [expDigits, h1, h2, h3, List.map_cons, List.map_nil]
  rw [hchar _ (by omega), hchar _ (by omega), hchar _ (by omega)]

/-- An exponent of three digits fits 16 bits. -/
theorem scanDec16_expDigits {n : ℕ} (hn : n < 1000) : scanDec16 (expDigits n) = n := by
  have hd : Digits [n / 100, n / 10 % 10, n % 10] := by
    intro d hd
    simp only [List.mem_cons, List.not_mem_nil, or_false] at hd
    omega
  have hall : ∀ x ∈ [n / 100, n / 10 % 10, n % 10].map Nat.digitChar, x.isDigit := by
    intro x hx
    obtain ⟨d, hd', rfl⟩ := List.mem_map.mp hx
    exact (digitOf_digitChar (hd d hd')).2
  have hval : decVal [n / 100, n / 10 % 10, n % 10] = n := by
    simp only [decVal_cons, decVal_nil, List.length_cons, List.length_nil]
    omega
  rw [scanDec16, expDigits_eq hn, List.takeWhile_eq_self_iff.mpr hall, map_digitOf hd, cfGetDec_eq (cOps_lawful 16),
    hval, BitVec.toInt_eq_toNat_bmod, BitVec.toNat_ofNat, Nat.mod_eq_of_lt (by omega)]
  exact Int.bmod_eq_of_le (by omega) (by omega)

/-- The exponent that is read from what is written for one. -/
theorem scanExp_text {e : ℤ} (h : |e - 1| ≤ 999) :
    scanExp ('E' :: if 0 < e then expDigits (e - 1) else '-' :: expDigits (1 - e)) = e - 1 := by
  obtain ⟨hlo, hhi⟩ := abs_le.mp h
  by_cases he : 0 < e
  · obtain ⟨n, hn⟩ := Int.eq_ofNat_of_zero_le (show 0 ≤ e - 1 by omega)
    rw [if_pos he, hn]
    have hlt : n < 1000 := by omega
    have hscan := scanDec16_expDigits hlt
    have hdigit := (digitOf_digitChar (show n / 100 < 10 by omega)).2
    rw [expDigits_eq hlt] at hscan ⊢
    simp only [List.map_cons] at hscan ⊢
    unfold scanExp
    simp only
    split
    · rename_i heq
      rw [(List.cons.inj heq).1] at hdigit
      exact absurd hdigit (by decide)
    · rename_i heq
      rw [(List.cons.inj heq).1] at hdigit
      exact absurd hdigit (by decide)
    · exact hscan
  · obtain ⟨n, hn⟩ := Int.eq_ofNat_of_zero_le (show 0 ≤ 1 - e by omega)
    rw [if_neg he, hn]
    have hscan := scanDec16_expDigits (show n < 1000 by omega)
    simp only [scanExp, hscan]
    omega

/-- A text with one digit before the point. -/
theorem cfCnvSF_text (neg : Bool) {d : ℕ} {l : List ℕ} (hd : Digits (d :: l)) {e : ℤ} (he : |e - 1| ≤ 999) :
    cfCnvSF ((if neg then ['-'] else []) ++ Nat.digitChar d :: '.' :: (l.map Nat.digitChar ++ 'E' ::
      if 0 < e then expDigits (e - 1) else '-' :: expDigits (1 - e))) =
        cfClean ⟨e, if neg then -1 else 1, d :: l⟩ := by
  obtain ⟨hd1, hd2⟩ := digitOf_digitChar hd.head
  generalize htail : ('E' :: if 0 < e then expDigits (e - 1) else '-' :: expDigits (1 - e) : List Char) = tail
  have hscan : scanExp tail = e - 1 := htail ▸ scanExp_text he
  have hne (c : Char) (hc : c.isDigit = false) : Nat.digitChar d ≠ c := by
    rintro rfl
    rw [hd2] at hc
    exact nomatch hc
  have hsign : scanSign ((if neg then ['-'] else []) ++ Nat.digitChar d :: '.' :: (l.map Nat.digitChar ++ tail)) =
      (if neg then -1 else 1, Nat.digitChar d :: '.' :: (l.map Nat.digitChar ++ tail)) := by
    cases neg with
    | true => simp [scanSign]
    | false =>
        have h1 := hne ' ' (by decide)
        have h2 := hne '-' (by decide)
        have h3 := hne '+' (by decide)
        simp only [scanSign, Bool.false_eq_true, if_false, List.nil_append, List.dropWhile_cons, h1, decide_false]
        split
        · rename_i heq
          exact absurd (List.cons.inj heq).1 h2
        · rename_i heq
          exact absurd (List.cons.inj heq).1 h3
        · rfl
  have hmant : scanMant (Nat.digitChar d :: '.' :: (l.map Nat.digitChar ++ tail)) =
      ([Nat.digitChar d], l.map Nat.digitChar, tail) := by
    subst htail
    obtain ⟨h1, h2⟩ := takeWhile_digits hd.tail (c := 'E') (by decide)
      (if 0 < e then expDigits (e - 1) else '-' :: expDigits (1 - e))
    have hdot : ('.' : Char).isDigit = false := by decide
    simp only [scanMant, List.takeWhile_cons, List.dropWhile_cons, hd2, hdot, if_true, Bool.false_eq_true, if_false,
      h1, h2]
  have hdigits : mantDigits ((if neg then ['-'] else []) ++ Nat.digitChar d :: '.' :: (l.map Nat.digitChar ++ tail)) =
      d :: l := by
    simp only [mantDigits, hsign, hmant, List.singleton_append, List.map_cons, hd1, map_digitOf hd.tail]
  rw [cfCnvSF, hdigits, if_neg (List.cons_ne_nil d l)]
  simp only [hsign, hmant, hscan, List.length_singleton]
  congr 2
  push_cast
  ring

/-- A number in normal form is clean. -/
theorem cfClean_proper {f : CFloat} (h : f.Proper) (hlen : f.mant.length ≤ cfMaxPrec) : cfClean f = f := by
  obtain ⟨d, t, hdt, hd⟩ := h.trimmed.head
  have hbody : f.mant.rdropWhile (· = 0) = f.mant :=
    List.rdropWhile_eq_self_iff.mpr fun hl => by simpa using h.trimmed.last hl
  have hne : f.mant ≠ [] := by simp [hdt]
  unfold cfClean
  simp only [hbody, hne, and_false, if_false]
  have htake : f.mant.takeWhile (· = 0) = [] := by simp [hdt, hd]
  have hdrop : f.mant.dropWhile (· = 0) = f.mant := by simp [hdt, hd]
  rw [htake, hdrop, List.take_of_length_le hlen]
  simp

/-- What is written where the limit leaves room for a digit. -/
theorem cfCnvFS_eq {f : CFloat} {d : ℕ} {l : List ℕ} (hf : f.mant = d :: l) {maxlen : ℤ} (h : 10 ≤ maxlen) :
    cfCnvFS f maxlen = some ((if decide (f.sign = -1) then ['-'] else []) ++ Nat.digitChar d :: '.' ::
      ((l.take (maxlen - 10).toNat).map Nat.digitChar ++ 'E' ::
        if 0 < f.exp then expDigits (f.exp - 1) else '-' :: expDigits (1 - f.exp))) := by
  have hlen : f.len = l.length + 1 := by simp [CFloat.len, hf]
  have haccess : f.access 0 = d := by simp [CFloat.access, hf]
  have htake : l.take ((if f.len - 1 + 5 + i16Digits > maxlen then maxlen - 5 - i16Digits else f.len - 1)).toNat =
      l.take (maxlen - 10).toNat := by
    unfold i16Digits
    split
    · congr 1
      omega
    · rw [List.take_of_length_le (by omega), List.take_of_length_le (by omega)]
  unfold cfCnvFS
  simp only
  rw [if_neg (by unfold i16Digits; split <;> omega), haccess]
  simp [hf, htake]

theorem cfCnvFS_none {f : CFloat} (hf : f.mant ≠ []) {maxlen : ℤ} (h : maxlen < 10) : cfCnvFS f maxlen = none := by
  have hlen : 1 ≤ f.len := by
    have := List.length_pos_of_ne_nil hf
    simp only [CFloat.len]
    omega
  unfold cfCnvFS i16Digits
  simp only
  rw [if_pos (by split <;> omega)]

/-- A text that does not reach the limit is written, which is read as the number with the digits that fit, and as the
number itself where there is room for all of them. -/
def Prints (f : CFloat) (maxlen : ℤ) : Prop :=
  ∃ text, cfCnvFS f maxlen = some text ∧ (text.length : ℤ) < maxlen ∧
    (cfCnvSF text).val = (f.fitted maxlen).val ∧ (f.len + 9 ≤ maxlen → cfCnvSF text = f)

theorem expText_length (e : ℤ) :
    (if 0 < e then expDigits (e - 1) else '-' :: expDigits (1 - e) : List Char).length ≤ 4 := by
  split <;> simp [expDigits]

/-- A number is printed and read again for every limit that leaves room for a digit, and for no other one. -/
theorem text_round_trip_iff {f : CFloat} (hf : f.Normalised) (he : |f.exp - 1| ≤ 999) (maxlen : ℤ) :
    Prints f maxlen ↔ 10 ≤ maxlen := by
  obtain ⟨hnormal, hlen⟩ := hf
  have hmant : Digits f.mant ∧ f.mant ≠ [] := by
    obtain rfl | hp := hnormal
    · simp [cfAlloc, Digits]
    · exact ⟨hp.trimmed.digits, by obtain ⟨d, t, hdt, -⟩ := hp.trimmed.head; simp [hdt]⟩
  constructor
  · rintro ⟨text, htext, -⟩
    by_contra hlt
    rw [cfCnvFS_none hmant.2 (by omega)] at htext
    cases htext
  · intro h
    obtain ⟨d, l, hdl⟩ := List.exists_cons_of_ne_nil hmant.2
    have hdigits : Digits (d :: l) := hdl ▸ hmant.1
    have hfit : Digits (d :: l.take (maxlen - 10).toNat) :=
      hdigits.of_subset (List.cons_subset_cons d (List.take_subset _ _))
    have hread := cfCnvSF_text (decide (f.sign = -1)) hfit he
    have hmantFit : (f.fitted maxlen).mant = d :: l.take (maxlen - 10).toNat := by
      rw [CFloat.fitted, hdl, show (maxlen - 9).toNat = (maxlen - 10).toNat + 1 by omega, List.take_succ_cons]
    refine ⟨_, cfCnvFS_eq hdl h, ?_, ?_, fun hall => ?_⟩
    · have h1 := expText_length f.exp
      have h2 : (if decide (f.sign = -1) then ['-'] else [] : List Char).length ≤ 1 := by split <;> simp
      simp only [List.length_append, List.length_cons, List.length_map, List.length_take]
      omega
    · rw [hread, cfClean_val hfit (List.cons_ne_nil _ _) ?_ ?_]
      · obtain rfl | hp := hnormal
        · obtain ⟨rfl, rfl⟩ : 0 = d ∧ l = [] := by simpa [cfAlloc] using hdl
          simp [CFloat.val, CFloat.mag, CFloat.fitted, cfAlloc, decVal]
        · have hsign : (if decide (f.sign = -1) then -1 else 1 : ℤ) = f.sign := by
            obtain hs | hs := hp.sign <;> simp [hs]
          rw [hsign, ← hmantFit]
          rfl
      · rw [hdl] at hlen
        simp only [List.length_cons, List.length_take] at hlen ⊢
        omega
      · split <;> simp
    · have hall' : l.take (maxlen - 10).toNat = l := by
        refine List.take_of_length_le ?_
        simp only [CFloat.len, hdl, List.length_cons] at hall
        omega
      rw [hread, hall', ← hdl]
      obtain rfl | hp := hnormal
      · exact cfClean_zero (by simp [cfAlloc]) (by simp [cfAlloc, decVal])
      · have hsign : (if decide (f.sign = -1) then -1 else 1 : ℤ) = f.sign := by
          obtain hs | hs := hp.sign <;> simp [hs]
        rw [hsign]
        exact cfClean_proper hp hlen

/-- The number of three digits and a sign at the least limit, and at one that holds all of its text. -/
theorem text_round_trip_iff_ten : Prints ⟨0, -1, [1, 2, 5]⟩ 10 ∧ Prints ⟨0, -1, [1, 2, 5]⟩ 12 := by
  have hf : CFloat.Normalised ⟨0, -1, [1, 2, 5]⟩ :=
    ⟨.inr ⟨.inr rfl, by simp [Digits], ⟨1, [2, 5], rfl, by decide⟩, by simp⟩, by decide⟩
  exact ⟨(text_round_trip_iff hf (by decide) 10).mpr le_rfl, (text_round_trip_iff hf (by decide) 12).mpr (by decide)⟩

/-- The limit is less than what is reserved. -/
theorem not_text_round_trip :
    CFloat.Normalised ⟨1, 1, [1, 5]⟩ ∧ cfCnvFS ⟨1, 1, [1, 5]⟩ 5 = none ∧ ¬ Prints ⟨1, 1, [1, 5]⟩ 5 := by
  have hnone : cfCnvFS ⟨1, 1, [1, 5]⟩ 5 = none := by decide
  refine ⟨⟨.inr ⟨.inl rfl, by simp [Digits], ⟨1, [5], rfl, by decide⟩, by simp⟩, by decide⟩, hnone, ?_⟩
  rintro ⟨text, htext, -⟩
  rw [hnone] at htext
  cases htext

end OpenWatcom.Cfloat
