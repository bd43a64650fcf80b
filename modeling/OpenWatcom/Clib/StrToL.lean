import Mathlib.Data.List.TakeWhile
import Mathlib.Data.Nat.Bitwise
import Mathlib.Tactic

/-! # From a string to an integer

`strtol` and `strtoul` for a `long` of 32 bits. A string is the list of its bytes before the NUL, and a pointer into it
is the list of the bytes from there on. -/

namespace OpenWatcom.Clib.StrToL

def ulongMax : ℕ := 0xFFFFFFFF

def longMax : ℤ := 0x7FFFFFFF

def longMin : ℤ := -0x80000000

abbrev Str := List UInt8

/-- What a pointer points to: the NUL at the end of the string. -/
def at0 (p : Str) : UInt8 := p.headD 0

def isspace (c : UInt8) : Bool := (9 ≤ c && c ≤ 13) || c == 32

def tolower (c : UInt8) : UInt8 := if 65 ≤ c ∧ c ≤ 90 then c + 32 else c

/-- `nearly_overflowing`. -/
def nearlyOverflowing : List ℕ := [
  ulongMax / 2, ulongMax / 3, ulongMax / 4, ulongMax / 5,
  ulongMax / 6, ulongMax / 7, ulongMax / 8, ulongMax / 9,
  ulongMax / 10, ulongMax / 11, ulongMax / 12, ulongMax / 13,
  ulongMax / 14, ulongMax / 15, ulongMax / 16, ulongMax / 17,
  ulongMax / 18, ulongMax / 19, ulongMax / 20, ulongMax / 21,
  ulongMax / 22, ulongMax / 23, ulongMax / 24, ulongMax / 25,
  ulongMax / 26, ulongMax / 27, ulongMax / 28, ulongMax / 29,
  ulongMax / 30, ulongMax / 31, ulongMax / 32, ulongMax / 33,
  ulongMax / 34, ulongMax / 35, ulongMax / 36]

/-- `hexstr`. -/
def hexstr (p : Str) : Bool := at0 p == 48 && (at0 p.tail == 120 || at0 p.tail == 88)

/-- `radix_value`. -/
def radixValue (c : UInt8) : ℕ :=
  if 48 ≤ c ∧ c ≤ 57 then c.toNat - 48
  else
    let c := tolower c
    if 97 ≤ c ∧ c ≤ 105 then c.toNat - 97 + 10
    else if 106 ≤ c ∧ c ≤ 114 then c.toNat - 106 + 19
    else if 115 ≤ c ∧ c ≤ 122 then c.toNat - 115 + 28
    else 37

/-- The values of `errno` that are set here. -/
inductive Errno where
  | EDOM
  | ERANGE
deriving DecidableEq

/-- What a call leaves: its result, `*endptr`, and the value of `errno` if it was set. -/
structure Answer (α : Type) where
  value : α
  endptr : Str
  errno : Option Errno
deriving DecidableEq

/-- The loop over white space. -/
def skipSpace : Str → Str
  | [] => []
  | c :: p => if isspace c then skipSpace p else c :: p

/-- The switch on the sign: `minus`, and the text after the sign. -/
def sign : Str → Bool × Str
  | 45 :: p => (true, p)
  | 43 :: p => (false, p)
  | p => (false, p)

/-- The base that is used. -/
def chooseBase (base : ℤ) (p : Str) : ℤ :=
  if base = 0 then
    if hexstr p then 16
    else if at0 p = 48 then 8
    else 10
  else base

/-- The loop over the digits: `p`, `value` and `overflow` when it is left. -/
def digitLoop (base : ℕ) : Str → ℕ → Bool → Str × ℕ × Bool
  | [], value, overflow => ([], value, overflow)
  | c :: p, value, overflow =>
    let digit := radixValue c
    if base ≤ digit then (c :: p, value, overflow)
    else
      let overflow := overflow || decide (nearlyOverflowing.getD (base - 2) 0 < value)
      let value' := (value * base + digit) % 2 ^ 32
      digitLoop base p value' (overflow || decide (value' < value))

/-- The test of the sign bit for `strtol`. -/
def signedOverflow (who minus : Bool) (value : ℕ) : Bool :=
  who && value &&& 0x80000000 != 0 && !(value == 0x80000000 && minus)

/-- What follows the loop: the value as an `unsigned long` and what `errno` is set to. -/
def finish (who minus : Bool) (value : ℕ) (overflow : Bool) : ℕ × Option Errno :=
  if overflow || signedOverflow who minus value then
    if !who then (ulongMax, some .ERANGE)
    else if minus then (0x80000000, some .ERANGE)
    else (0x7FFFFFFF, some .ERANGE)
  else (if minus then (2 ^ 32 - value) % 2 ^ 32 else value, none)

/-- `_stol`. -/
def stol (nptr : Str) (base : ℤ) (who : Bool) : Answer ℕ :=
  let minus := (sign (skipSpace nptr)).1
  let p := (sign (skipSpace nptr)).2
  let base := chooseBase base p
  if base < 2 ∨ 36 < base then ⟨0, nptr, some .EDOM⟩
  else
    let startp := if base = 16 ∧ hexstr p then p.drop 2 else p
    let loop := digitLoop base.toNat startp 0 false
    let result := finish who minus loop.2.1 loop.2.2
    ⟨result.1, if loop.1 = startp then nptr else loop.1, result.2⟩

/-- An `unsigned long` as a `long`. -/
def toLong (value : ℕ) : ℤ := if value < 2 ^ 31 then value else value - 2 ^ 32

def strtoul (nptr : Str) (base : ℤ) : Answer ℕ := stol nptr base false

def strtol (nptr : Str) (base : ℤ) : Answer ℤ :=
  let answer := stol nptr base true
  ⟨toLong answer.value, answer.endptr, answer.errno⟩

/-! ## The standard -/

/-- The value of a digit: the letters stand for 10 to 35. -/
def digitOf (c : UInt8) : Option ℕ :=
  if 48 ≤ c ∧ c ≤ 57 then some (c.toNat - 48)
  else if 97 ≤ c ∧ c ≤ 122 then some (c.toNat - 97 + 10)
  else if 65 ≤ c ∧ c ≤ 90 then some (c.toNat - 65 + 10)
  else none

/-- Whether a byte is a digit of the radix. -/
def isDigit (radix : ℕ) (c : UInt8) : Bool := (digitOf c).any (· < radix)

/-- The number that some digits stand for when `n` stands before them. -/
def numeralFrom (radix n : ℕ) (digits : Str) : ℕ :=
  digits.foldl (fun n c => n * radix + (digitOf c).getD 0) n

/-- The radix that the base asks for, and what stands before the digits. -/
inductive Form (base : ℤ) : ℕ → Str → Str → Prop
  | given (radix : ℕ) (digits : Str) : base = radix → 2 ≤ radix → radix ≤ 36 → Form base radix [] digits
  | hex (x : UInt8) (digits : Str) : base = 16 ∨ base = 0 → x = 120 ∨ x = 88 → Form base 16 [48, x] digits
  | octal (digits : Str) : base = 0 → Form base 8 [] (48 :: digits)
  | decimal (digits : Str) : base = 0 → digits.head? ≠ some 48 → Form base 10 [] digits

/-- The texts that are a number without a sign. -/
def Magnitude (base : ℤ) (text : Str) (n : ℕ) : Prop :=
  ∃ radix before digits, Form base radix before digits ∧ text = before ++ digits ∧ digits ≠ [] ∧
    (∀ c ∈ digits, isDigit radix c) ∧ n = numeralFrom radix 0 digits

/-- The texts that are a number. -/
inductive Number (base : ℤ) : Str → Bool → ℕ → Prop
  | unsigned {text n} : Magnitude base text n → Number base text false n
  | plus {text n} : Magnitude base text n → Number base (43 :: text) false n
  | minus {text n} : Magnitude base text n → Number base (45 :: text) true n

/-- The text after white space begins with a number. -/
def Begins (base : ℤ) (s text rest : Str) (neg : Bool) (n : ℕ) : Prop :=
  s.dropWhile isspace = text ++ rest ∧ Number base text neg n

/-- The number is the longest one that the text begins with. -/
def Longest (base : ℤ) (s text rest : Str) (neg : Bool) (n : ℕ) : Prop :=
  Begins base s text rest neg n ∧
    ∀ text' rest' neg' n', Begins base s text' rest' neg' n' → text'.length ≤ text.length

/-- The value of a number for `strtoul`, and what `errno` is set to. -/
def ulongOf (neg : Bool) (n : ℕ) : ℕ × Option Errno :=
  if n ≤ ulongMax then (if neg then (2 ^ 32 - n) % 2 ^ 32 else n, none) else (ulongMax, some .ERANGE)

/-- The value of a number for `strtol`, and what `errno` is set to. -/
def longOf (neg : Bool) (n : ℕ) : ℤ × Option Errno :=
  let value : ℤ := if neg then -n else n
  if value < longMin then (longMin, some .ERANGE)
  else if longMax < value then (longMax, some .ERANGE)
  else (value, none)

/-- An answer is the one that the standard defines. -/
structure Correct {α : Type} [Zero α] (valueOf : Bool → ℕ → α × Option Errno) (base : ℤ) (s : Str)
    (answer : Answer α) : Prop where
  number : (∃ text rest neg n, Begins base s text rest neg n) →
    ∃ text rest neg n, Longest base s text rest neg n ∧
      answer = ⟨(valueOf neg n).1, rest, (valueOf neg n).2⟩
  nothing : (∀ text rest neg n, ¬ Begins base s text rest neg n) →
    answer.value = 0 ∧ answer.errno ≠ some .ERANGE
  endptr : answer.endptr = s ↔ ∀ text rest neg n, ¬ Begins base s text rest neg n

/-- The text after white space and sign is `0x` without a digit, in a base that takes the prefix. -/
def BarePrefix (base : ℤ) (s : Str) : Prop :=
  let p := (sign (skipSpace s)).2
  (base = 0 ∨ base = 16) ∧ hexstr p ∧ ∀ c ∈ (p.drop 2).head?, ¬ isDigit 16 c

/-! ## The loop -/

theorem skipSpace_eq (s : Str) : skipSpace s = s.dropWhile isspace := by
  induction s with
  | nil => rfl
  | cons c p ih =>
    rw [skipSpace, List.dropWhile_cons, ih]

theorem radixValue_eq (c : UInt8) : radixValue c = (digitOf c).getD 37 := by
  have hall : ∀ i : Fin 256, radixValue (UInt8.ofFin i) = (digitOf (UInt8.ofFin i)).getD 37 := by
    decide +kernel
  exact hall c.toFin

theorem radixValue_lt {radix : ℕ} (h : radix ≤ 36) (c : UInt8) : radixValue c < radix ↔ isDigit radix c = true := by
  rw [radixValue_eq, isDigit]
  cases digitOf c with
  | none => simp; omega
  | some d => simp

theorem nearlyOverflowing_getD {radix : ℕ} (h : 2 ≤ radix) (h' : radix ≤ 36) :
    nearlyOverflowing.getD (radix - 2) 0 = ulongMax / radix := by
  interval_cases radix <;> rfl

/-- One digit: the wrapped value and the overflow flag stand for the number with the digit added. -/
theorem digit_step {radix n d : ℕ} (hr : 2 ≤ radix) (hr' : radix ≤ 36) (hd : d < radix) :
    (n % 2 ^ 32 * radix + d) % 2 ^ 32 = (n * radix + d) % 2 ^ 32 ∧
      ((2 ^ 32 ≤ n ∨ ulongMax / radix < n % 2 ^ 32 ∨ (n % 2 ^ 32 * radix + d) % 2 ^ 32 < n % 2 ^ 32) ↔
        2 ^ 32 ≤ n * radix + d) := by
  refine ⟨by simp [Nat.add_mod, Nat.mul_mod], ?_⟩
  have hmul : n * 2 ≤ n * radix := Nat.mul_le_mul_left n hr
  rcases Nat.lt_or_ge n (2 ^ 32) with hn | hn
  · rw [Nat.mod_eq_of_lt hn, Nat.div_lt_iff_lt_mul (by omega)]
    have hmul' : n * radix ≤ n * 36 := Nat.mul_le_mul_left n hr'
    unfold ulongMax
    rcases Nat.lt_or_ge (n * radix) (2 ^ 32) with hlt | hge
    · -- The product fits, so that only the digit can carry, and then the sum is smaller than the digit.
      rcases Nat.lt_or_ge (n * radix + d) (2 ^ 32) with hfit | hcarry
      · rw [Nat.mod_eq_of_lt hfit]
        omega
      · rw [Nat.mod_eq_sub_mod hcarry, Nat.mod_eq_of_lt (by omega)]
        omega
    · omega
  · omega

theorem digitLoop_spec {radix : ℕ} (hr : 2 ≤ radix) (hr' : radix ≤ 36) (p : Str) (n : ℕ) :
    digitLoop radix p (n % 2 ^ 32) (decide (2 ^ 32 ≤ n)) =
      (p.dropWhile (isDigit radix), numeralFrom radix n (p.takeWhile (isDigit radix)) % 2 ^ 32,
        decide (2 ^ 32 ≤ numeralFrom radix n (p.takeWhile (isDigit radix)))) := by
  induction p generalizing n with
  | nil => rfl
  | cons c p ih =>
    simp only [digitLoop]
    by_cases hc : radixValue c < radix
    · have hdigit : isDigit radix c = true := (radixValue_lt hr' c).1 hc
      have hvalue : radixValue c = (digitOf c).getD 0 := by
        rw [radixValue_eq] at hc ⊢
        cases hd : digitOf c with
        | none => rw [hd] at hc; simp at hc; omega
        | some d => rfl
      obtain ⟨hmod, hover⟩ := digit_step (n := n) hr hr' hc
      rw [if_neg (by omega), nearlyOverflowing_getD hr hr', List.dropWhile_cons_of_pos hdigit,
        List.takeWhile_cons_of_pos hdigit]
      have hflag : (decide (2 ^ 32 ≤ n) || decide (ulongMax / radix < n % 2 ^ 32) ||
          decide ((n % 2 ^ 32 * radix + radixValue c) % 2 ^ 32 < n % 2 ^ 32)) =
          decide (2 ^ 32 ≤ n * radix + radixValue c) := by
        rw [← Bool.decide_or, ← Bool.decide_or, decide_eq_decide, or_assoc]
        exact hover
      rw [hflag, hmod, ih, hvalue]
      rfl
    · have hdigit : ¬ isDigit radix c = true := fun h => hc ((radixValue_lt hr' c).2 h)
      rw [if_pos (by omega), List.dropWhile_cons_of_neg hdigit, List.takeWhile_cons_of_neg hdigit]
      rfl

/-! ## After the loop -/

theorem signBit (value : ℕ) (h : value < 2 ^ 32) : (value &&& 0x80000000 != 0) = decide (2 ^ 31 ≤ value) := by
  have hand : value &&& 0x80000000 = (value.testBit 31).toNat * 2 ^ 31 := Nat.and_two_pow value 31
  have hbit : value.testBit 31 = decide (2 ^ 31 ≤ value) := by
    rw [Nat.testBit_eq_decide_div_mod_eq, decide_eq_decide]
    omega
  rw [hand, hbit]
  by_cases hge : 2 ^ 31 ≤ value
  · rw [decide_eq_true hge]
    rfl
  · rw [decide_eq_false hge]
    rfl

theorem finish_ulong (neg : Bool) (n : ℕ) :
    finish false neg (n % 2 ^ 32) (decide (2 ^ 32 ≤ n)) = ulongOf neg n := by
  unfold finish ulongOf signedOverflow ulongMax
  by_cases hn : 2 ^ 32 ≤ n
  · rw [decide_eq_true hn, if_neg (show ¬ n ≤ 0xFFFFFFFF by omega)]
    rfl
  · rw [decide_eq_false hn, if_pos (show n ≤ 0xFFFFFFFF by omega), Nat.mod_eq_of_lt (by omega)]
    rfl

theorem longOf_minus (n : ℕ) : longOf true n = if 2 ^ 31 < n then (longMin, some .ERANGE) else (-(n : ℤ), none) := by
  unfold longOf longMin longMax
  by_cases hn : 2 ^ 31 < n
  · rw [if_pos hn]
    exact if_pos (by simp only [if_true]; omega)
  · rw [if_neg hn]
    dsimp only
    rw [if_pos rfl, if_neg (by omega), if_neg (by omega)]

theorem longOf_plus (n : ℕ) : longOf false n = if 2 ^ 31 ≤ n then (longMax, some .ERANGE) else ((n : ℤ), none) := by
  unfold longOf longMin longMax
  dsimp only
  rw [if_neg Bool.false_ne_true, if_neg (by omega)]
  by_cases hn : 2 ^ 31 ≤ n
  · rw [if_pos hn, if_pos (by omega)]
  · rw [if_neg hn, if_neg (by omega)]

theorem signedOverflow_eq (neg : Bool) (n : ℕ) (h : n < 2 ^ 32) :
    signedOverflow true neg n = if neg then decide (2 ^ 31 < n) else decide (2 ^ 31 ≤ n) := by
  unfold signedOverflow
  rw [signBit n h]
  by_cases hn : n = 2 ^ 31
  · subst hn
    cases neg <;> rfl
  · rw [show (n == 0x80000000) = false from beq_false_of_ne hn]
    rw [show decide (2 ^ 31 < n) = decide (2 ^ 31 ≤ n) from decide_eq_decide.2 (by omega)]
    cases neg <;> simp

theorem finish_long (neg : Bool) (n : ℕ) :
    (toLong (finish true neg (n % 2 ^ 32) (decide (2 ^ 32 ≤ n))).1,
      (finish true neg (n % 2 ^ 32) (decide (2 ^ 32 ≤ n))).2) = longOf neg n := by
  have hover : (decide (2 ^ 32 ≤ n) || signedOverflow true neg (n % 2 ^ 32)) =
      if neg then decide (2 ^ 31 < n) else decide (2 ^ 31 ≤ n) := by
    by_cases hn : 2 ^ 32 ≤ n
    · rw [decide_eq_true hn, decide_eq_true (show 2 ^ 31 < n by omega), decide_eq_true (show 2 ^ 31 ≤ n by omega)]
      cases neg <;> rfl
    · rw [decide_eq_false hn, Bool.false_or, Nat.mod_eq_of_lt (by omega), signedOverflow_eq neg n (by omega)]
  unfold finish
  rw [hover]
  cases neg with
  | true =>
    rw [longOf_minus, if_pos rfl]
    by_cases hn : 2 ^ 31 < n
    · rw [if_pos hn, decide_eq_true hn]
      rfl
    · rw [if_neg hn, decide_eq_false hn]
      have hlong : toLong ((2 ^ 32 - n) % 2 ^ 32) = -(n : ℤ) := by
        unfold toLong
        split_ifs <;> omega
      rw [← hlong, Nat.mod_eq_of_lt (show n < 2 ^ 32 by omega)]
      rfl
  | false =>
    rw [longOf_plus, if_neg Bool.false_ne_true]
    by_cases hn : 2 ^ 31 ≤ n
    · rw [if_pos hn, decide_eq_true hn]
      rfl
    · have hlong : toLong n = n := if_pos (by omega)
      rw [if_neg hn, decide_eq_false hn, ← hlong, Nat.mod_eq_of_lt (show n < 2 ^ 32 by omega)]
      rfl

/-! ## The longest number -/

theorem length_le_takeWhile {α : Type} {p : α → Bool} {front : List α} (h : ∀ c ∈ front, p c = true) (rest : List α) :
    front.length ≤ ((front ++ rest).takeWhile p).length := by
  rw [List.takeWhile_append_of_pos h, List.length_append]
  omega

/-- The sign as it stands in the text. -/
def signText : Str → Str
  | 45 :: _ => [45]
  | 43 :: _ => [43]
  | _ => []

theorem sign_cases (w : Str) :
    (∃ u, w = 45 :: u ∧ sign w = (true, u) ∧ signText w = [45]) ∨
      (∃ u, w = 43 :: u ∧ sign w = (false, u) ∧ signText w = [43]) ∨
      (w.head? ≠ some 45 ∧ w.head? ≠ some 43 ∧ sign w = (false, w) ∧ signText w = []) := by
  unfold sign signText
  split
  · exact .inl ⟨_, rfl, rfl, rfl⟩
  · exact .inr (.inl ⟨_, rfl, rfl, rfl⟩)
  · next h1 h2 =>
    refine .inr (.inr ⟨fun h => ?_, fun h => ?_, rfl, rfl⟩)
    · obtain ⟨u, hu⟩ := List.head?_eq_some_iff.1 h
      exact h1 u hu
    · obtain ⟨u, hu⟩ := List.head?_eq_some_iff.1 h
      exact h2 u hu

theorem sign_append (w : Str) : signText w ++ (sign w).2 = w := by
  rcases sign_cases w with ⟨u, hw, hs, ht⟩ | ⟨u, hw, hs, ht⟩ | ⟨-, -, hs, ht⟩ <;> rw [hs, ht]
  · exact hw.symm
  · exact hw.symm
  · rfl

/-- A number without a sign begins with a digit of some radix. -/
theorem Magnitude.head {base : ℤ} {text : Str} {n : ℕ} (h : Magnitude base text n) :
    ∃ c m, text = c :: m ∧ c ≠ 45 ∧ c ≠ 43 := by
  obtain ⟨radix, before, digits, hform, rfl, hne, hall, -⟩ := h
  have hhead : ∀ radix, ∀ c, isDigit radix c = true → c ≠ 45 ∧ c ≠ 43 := by
    intro radix c hc
    constructor <;> rintro rfl <;> exact absurd hc (by simp [isDigit, digitOf])
  cases digits with
  | nil => exact absurd rfl hne
  | cons c m =>
    have hc := hhead radix c (hall c (by simp))
    cases hform with
    | given => exact ⟨c, m, rfl, hc⟩
    | hex x => exact ⟨48, _, rfl, by decide, by decide⟩
    | octal => exact ⟨48, m, rfl, by decide, by decide⟩
    | decimal => exact ⟨c, m, rfl, hc⟩

theorem begins_iff {base : ℤ} {s text rest : Str} {neg : Bool} {n : ℕ} :
    Begins base s text rest neg n ↔ ∃ m, text = signText (skipSpace s) ++ m ∧
      (sign (skipSpace s)).2 = m ++ rest ∧ neg = (sign (skipSpace s)).1 ∧ Magnitude base m n := by
  unfold Begins
  rw [← skipSpace_eq]
  generalize skipSpace s = w
  constructor
  · rintro ⟨hw, hnum⟩
    cases hnum with
    | unsigned hm =>
      obtain ⟨c, m, rfl, h45, h43⟩ := hm.head
      subst hw
      rcases sign_cases (c :: m ++ rest) with ⟨u, hu, -⟩ | ⟨u, hu, -⟩ | ⟨-, -, hs, ht⟩
      · exact absurd (List.cons.inj hu).1 h45
      · exact absurd (List.cons.inj hu).1 h43
      · exact ⟨c :: m, by rw [ht]; rfl, by rw [hs], by rw [hs], hm⟩
    | @plus m _ hm =>
      subst hw
      exact ⟨m, rfl, rfl, rfl, hm⟩
    | @minus m _ hm =>
      subst hw
      exact ⟨m, rfl, rfl, rfl, hm⟩
  · rintro ⟨m, rfl, hu, rfl, hm⟩
    refine ⟨by rw [List.append_assoc, ← hu, sign_append], ?_⟩
    rcases sign_cases w with ⟨u, -, hs, ht⟩ | ⟨u, -, hs, ht⟩ | ⟨-, -, hs, ht⟩ <;> rw [hs, ht]
    · exact .minus hm
    · exact .plus hm
    · exact .unsigned hm

/-- Where the digits start. -/
def startOf (base : ℤ) (p : Str) : Str := if chooseBase base p = 16 ∧ hexstr p then p.drop 2 else p

/-- The digits that the loop reads. -/
def digitsOf (base : ℤ) (p : Str) : Str := (startOf base p).takeWhile (isDigit (chooseBase base p).toNat)

/-- What stands before these digits. -/
def beforeOf (base : ℤ) (p : Str) : Str := if chooseBase base p = 16 ∧ hexstr p then p.take 2 else []

theorem hexstr_iff {p : Str} : hexstr p = true ↔ ∃ x q, p = 48 :: x :: q ∧ (x = 120 ∨ x = 88) := by
  unfold hexstr at0
  constructor
  · intro h
    rcases p with - | ⟨c, - | ⟨x, q⟩⟩
    · simp at h
    · simp at h
    · exact ⟨x, q, by simpa using h⟩
  · rintro ⟨x, q, rfl, hx⟩
    simpa using hx

theorem prefixed_iff {base : ℤ} {p : Str} :
    chooseBase base p = 16 ∧ hexstr p = true ↔ (base = 0 ∨ base = 16) ∧ hexstr p = true := by
  unfold chooseBase
  split_ifs <;> simp_all

theorem digitsOf_append (base : ℤ) (p : Str) :
    p = beforeOf base p ++ digitsOf base p ++
      (startOf base p).dropWhile (isDigit (chooseBase base p).toNat) := by
  rw [List.append_assoc, digitsOf, List.takeWhile_append_dropWhile, beforeOf, startOf]
  split_ifs
  · exact (List.take_append_drop 2 p).symm
  · rfl

theorem isDigit_not_x {radix : ℕ} (h : radix ≤ 16) {x : UInt8} (hx : x = 120 ∨ x = 88) : ¬ isDigit radix x = true := by
  rcases hx with rfl | rfl <;> simp [isDigit, digitOf] <;> omega

/-- The digits that the loop reads are a number when there are any. -/
theorem magnitude_digitsOf {base : ℤ} {p : Str} (hlo : 2 ≤ chooseBase base p) (hhi : chooseBase base p ≤ 36)
    (hne : digitsOf base p ≠ []) :
    Magnitude base (beforeOf base p ++ digitsOf base p)
      (numeralFrom (chooseBase base p).toNat 0 (digitsOf base p)) := by
  refine ⟨(chooseBase base p).toNat, beforeOf base p, digitsOf base p, ?_, rfl, hne,
    fun c hc => List.mem_takeWhile_imp hc, rfl⟩
  by_cases hpre : chooseBase base p = 16 ∧ hexstr p = true
  · have hb := (prefixed_iff.1 hpre).1
    obtain ⟨x, q, rfl, hx⟩ := hexstr_iff.1 hpre.2
    rw [beforeOf, if_pos hpre, hpre.1]
    exact .hex x _ hb.symm hx
  · rw [beforeOf, if_neg hpre]
    by_cases h0 : base = 0
    · have hstart : startOf base p = p := if_neg hpre
      have hhex : ¬ hexstr p = true := fun h => hpre (prefixed_iff.2 ⟨.inl h0, h⟩)
      unfold digitsOf at hne ⊢
      rw [hstart] at hne ⊢
      rcases p with - | ⟨c, q⟩
      · exact absurd rfl hne
      by_cases h8 : c = 48
      · have hbase : chooseBase base (c :: q) = 8 := by
          rw [chooseBase, if_pos h0, if_neg hhex, if_pos (show at0 (c :: q) = 48 from h8)]
        rw [hbase, h8, List.takeWhile_cons_of_pos (by decide)]
        exact .octal _ h0
      · have hbase : chooseBase base (c :: q) = 10 := by
          rw [chooseBase, if_pos h0, if_neg hhex, if_neg (show ¬ at0 (c :: q) = 48 from h8)]
        rw [hbase]
        refine .decimal _ h0 ?_
        rw [List.head?_takeWhile]
        simp [Option.filter, h8]
    · have hbase : chooseBase base p = base := if_neg h0
      rw [hbase] at hlo hhi ⊢
      exact .given base.toNat _ (by omega) (by omega) (by omega)

/-- No number at the front of the text is longer than what the loop reads, unless the prefix stands alone. -/
theorem Magnitude.length_le {base : ℤ} {p m rest : Str} {n : ℕ} (h : Magnitude base m n) (hp : p = m ++ rest) :
    2 ≤ chooseBase base p ∧ chooseBase base p ≤ 36 ∧
      (digitsOf base p ≠ [] ∧ m.length ≤ (beforeOf base p ++ digitsOf base p).length ∨
        (base = 0 ∨ base = 16) ∧ hexstr p = true ∧ ∀ c ∈ (p.drop 2).head?, ¬ isDigit 16 c = true) := by
  obtain ⟨radix, before, digits, hform, rfl, hne, hall, -⟩ := h
  by_cases hpre : chooseBase base p = 16 ∧ hexstr p = true
  · have hb := (prefixed_iff.1 hpre).1
    refine ⟨by omega, by omega, ?_⟩
    obtain ⟨x, q, rfl, hx⟩ := hexstr_iff.1 hpre.2
    have hdigits : digitsOf base (48 :: x :: q) = q.takeWhile (isDigit 16) := by
      rw [digitsOf, startOf, if_pos hpre, hpre.1]
      rfl
    have hbefore : beforeOf base (48 :: x :: q) = [48, x] := by
      rw [beforeOf, if_pos hpre]
      rfl
    by_cases hbare : ∀ c ∈ q.head?, ¬ isDigit 16 c = true
    · exact .inr ⟨hb, hpre.2, hbare⟩
    left
    rw [hdigits, hbefore]
    have hsome : q.takeWhile (isDigit 16) ≠ [] := by
      intro h0
      apply hbare
      intro c hc
      cases q with
      | nil => simp at hc
      | cons d q =>
        intro hdig
        simp only [List.head?_cons, Option.mem_some_iff] at hc
        subst hc
        rw [List.takeWhile_cons_of_pos hdig] at h0
        exact absurd h0 (by simp)
    refine ⟨hsome, ?_⟩
    have hpos := List.length_pos_iff.2 hsome
    -- Before the letter there is only one digit.
    have hone : ∀ r ≤ 16, ∀ ds : Str, 48 :: x :: q = ds ++ rest → (∀ c ∈ ds, isDigit r c = true) → ds.length ≤ 1 := by
      intro r hr ds hds hds'
      rcases ds with - | ⟨a, - | ⟨b, ds⟩⟩
      · simp
      · simp
      · simp only [List.cons_append, List.cons.injEq] at hds
        exact absurd (hds' b (by simp)) (hds.2.1 ▸ isDigit_not_x hr hx)
    cases hform with
    | given _ _ hbase =>
      have := hone radix (by omega) digits hp hall
      simp
      omega
    | hex y ds =>
      simp only [List.cons_append, List.nil_append, List.cons.injEq] at hp
      have := length_le_takeWhile hall rest
      rw [← hp.2.2] at this
      simp
      omega
    | octal =>
      have := hone 8 (by omega) _ hp hall
      simp only [List.nil_append, List.length_append, List.length_cons, List.length_nil] at this ⊢
      omega
    | decimal _ _ h48 =>
      have := hone 10 (by omega) digits hp hall
      simp
      omega
  · have hstart : startOf base p = p := if_neg hpre
    have hbefore : beforeOf base p = [] := if_neg hpre
    -- Without the prefix the digits are read from where the text starts.
    have hread : ∀ r : ℕ, chooseBase base p = r → ∀ ds : Str, p = ds ++ rest → ds ≠ [] →
        (∀ c ∈ ds, isDigit r c = true) →
        digitsOf base p ≠ [] ∧ ds.length ≤ (beforeOf base p ++ digitsOf base p).length := by
      intro r hr ds hds hds0 hall
      have hlen := length_le_takeWhile hall rest
      have hpos := List.length_pos_iff.2 hds0
      rw [hbefore, digitsOf, hstart, hr, Int.toNat_natCast, hds]
      exact ⟨List.length_pos_iff.1 (by omega), by simpa using hlen⟩
    cases hform with
    | given _ _ hbase h2 h36 =>
      have hb : chooseBase base p = radix := by rw [chooseBase, if_neg (by omega), hbase]
      exact ⟨by omega, by omega, .inl (hread radix hb digits hp hne hall)⟩
    | hex x _ hb hx =>
      exact absurd (prefixed_iff.2 ⟨hb.symm, hexstr_iff.2 ⟨x, _, hp, hx⟩⟩) hpre
    | octal ds h0 =>
      have hb : chooseBase base p = 8 := by
        rw [chooseBase, if_pos h0, if_neg fun h => hpre (prefixed_iff.2 ⟨.inl h0, h⟩), if_pos (by rw [hp]; rfl)]
      exact ⟨by omega, by omega, .inl (hread 8 hb _ hp hne hall)⟩
    | decimal _ h0 h48 =>
      have hb : chooseBase base p = 10 := by
        rw [chooseBase, if_pos h0, if_neg fun h => hpre (prefixed_iff.2 ⟨.inl h0, h⟩), if_neg]
        rcases digits with - | ⟨c, ds⟩
        · exact absurd rfl hne
        · rw [hp]
          simpa [at0] using h48
      exact ⟨by omega, by omega, .inl (hread 10 hb digits hp hne hall)⟩

/-! ## The answers -/

/-- The text after white space and sign. -/
def subject (s : Str) : Str := (sign (skipSpace s)).2

/-- The number whose digits the loop reads. -/
def valueRead (base : ℤ) (p : Str) : ℕ := numeralFrom (chooseBase base p).toNat 0 (digitsOf base p)

theorem stol_invalid {s : Str} {base : ℤ} (who : Bool)
    (h : ¬ (2 ≤ chooseBase base (subject s) ∧ chooseBase base (subject s) ≤ 36)) :
    stol s base who = ⟨0, s, some .EDOM⟩ := by
  unfold subject at h
  exact if_pos (by omega)

theorem stol_valid {s : Str} {base : ℤ} (who : Bool)
    (h : 2 ≤ chooseBase base (subject s) ∧ chooseBase base (subject s) ≤ 36) :
    stol s base who =
      ⟨(finish who (sign (skipSpace s)).1 (valueRead base (subject s) % 2 ^ 32)
          (decide (2 ^ 32 ≤ valueRead base (subject s)))).1,
        if digitsOf base (subject s) = [] then s
        else (startOf base (subject s)).dropWhile (isDigit (chooseBase base (subject s)).toNat),
        (finish who (sign (skipSpace s)).1 (valueRead base (subject s) % 2 ^ 32)
          (decide (2 ^ 32 ≤ valueRead base (subject s)))).2⟩ := by
  have hloop := digitLoop_spec (show 2 ≤ (chooseBase base (subject s)).toNat by omega) (by omega)
    (startOf base (subject s)) 0
  have hmoved : (startOf base (subject s)).dropWhile (isDigit (chooseBase base (subject s)).toNat) =
      startOf base (subject s) ↔ digitsOf base (subject s) = [] := by
    have happ := @List.takeWhile_append_dropWhile _ (isDigit (chooseBase base (subject s)).toNat)
      (startOf base (subject s))
    unfold digitsOf
    constructor
    · intro heq
      rw [heq] at happ
      exact List.append_left_eq_self.1 happ
    · intro hnil
      rw [hnil, List.nil_append] at happ
      exact happ
  refine Eq.trans (if_neg (by unfold subject at h; omega)) ?_
  change Answer.mk _ (if (digitLoop (chooseBase base (subject s)).toNat (startOf base (subject s)) (0 % 2 ^ 32)
    (decide (2 ^ 32 ≤ 0))).1 = startOf base (subject s) then s else _) _ = _
  simp only [← if_congr hmoved rfl rfl]
  exact congrArg (fun loop : Str × ℕ × Bool =>
    (⟨(finish who (sign (skipSpace s)).1 loop.2.1 loop.2.2).1,
      if loop.1 = startOf base (subject s) then s else loop.1,
      (finish who (sign (skipSpace s)).1 loop.2.1 loop.2.2).2⟩ : Answer ℕ)) hloop

/-- What is read to the end is a longest number when there are digits and the prefix does not stand alone. -/
theorem longest_digitsOf {base : ℤ} {s : Str} (hbare : ¬ BarePrefix base s)
    (h : 2 ≤ chooseBase base (subject s) ∧ chooseBase base (subject s) ≤ 36) (hne : digitsOf base (subject s) ≠ []) :
    Longest base s (signText (skipSpace s) ++ (beforeOf base (subject s) ++ digitsOf base (subject s)))
      ((startOf base (subject s)).dropWhile (isDigit (chooseBase base (subject s)).toNat))
      (sign (skipSpace s)).1 (valueRead base (subject s)) := by
  refine ⟨begins_iff.2 ⟨_, rfl, digitsOf_append base _, rfl, magnitude_digitsOf h.1 h.2 hne⟩, ?_⟩
  intro text' rest' neg' n' hbegins
  obtain ⟨m, rfl, hu, -, hm⟩ := begins_iff.1 hbegins
  rcases (hm.length_le hu).2.2 with ⟨-, hlen⟩ | hb
  · rw [List.length_append, List.length_append]
    change m.length ≤ (beforeOf base (subject s) ++ digitsOf base (subject s)).length at hlen
    omega
  · exact absurd hb hbare

/-- The only number at the front of a bare prefix is its zero. -/
theorem begins_bare {base : ℤ} {s : Str} (hbare : BarePrefix base s) :
    ∃ text rest neg n, Begins base s text rest neg n := by
  obtain ⟨hb, hhex, -⟩ := hbare
  obtain ⟨x, q, hu, hx⟩ := hexstr_iff.1 hhex
  refine ⟨_, x :: q, _, 0, begins_iff.2 ⟨[48], rfl, hu, rfl, ?_⟩⟩
  rcases hb with h0 | h16
  · exact ⟨8, [], [48], .octal [] h0, rfl, by simp, List.forall_mem_singleton.2 (by decide), rfl⟩
  · exact ⟨16, [], [48], .given 16 [48] h16 (by decide) (by decide), rfl, by simp, List.forall_mem_singleton.2 (by decide), rfl⟩

/-- A number that the text begins with leaves less than the text. -/
theorem Begins.length_lt {base : ℤ} {s text rest : Str} {neg : Bool} {n : ℕ} (h : Begins base s text rest neg n) :
    rest.length < s.length := by
  obtain ⟨hs, hnum⟩ := h
  have hpos : 0 < text.length := by
    cases hnum with
    | unsigned hm =>
      obtain ⟨c, m, rfl, -⟩ := hm.head
      simp
    | plus => simp
    | minus => simp
  have hle := (List.dropWhile_sublist isspace (l := s)).length_le
  rw [hs, List.length_append] at hle
  omega

/-- An answer that goes by the digits that were read is right unless the prefix stands alone. -/
theorem correct_iff {α : Type} [Zero α] {valueOf : Bool → ℕ → α × Option Errno} {base : ℤ} {s : Str}
    {answer : Answer α} (hzero : ∀ neg, valueOf neg 0 = (0, none))
    (hinvalid : ¬ (2 ≤ chooseBase base (subject s) ∧ chooseBase base (subject s) ≤ 36) →
      answer = ⟨0, s, some .EDOM⟩)
    (hvalid : 2 ≤ chooseBase base (subject s) ∧ chooseBase base (subject s) ≤ 36 →
      answer = ⟨(valueOf (sign (skipSpace s)).1 (valueRead base (subject s))).1,
        if digitsOf base (subject s) = [] then s
        else (startOf base (subject s)).dropWhile (isDigit (chooseBase base (subject s)).toNat),
        (valueOf (sign (skipSpace s)).1 (valueRead base (subject s))).2⟩) :
    Correct valueOf base s answer ↔ ¬ BarePrefix base s := by
  constructor
  · -- At a bare prefix the end pointer is put back to the start, though the text begins with a zero.
    intro hcorrect hbare
    obtain ⟨text, rest, neg, n, hbegins⟩ := begins_bare hbare
    have hpre := prefixed_iff.2 ⟨hbare.1, hbare.2.1⟩
    have hnone : digitsOf base (subject s) = [] := by
      have hdrop := hbare.2.2
      rw [digitsOf, startOf, subject, if_pos hpre, hpre.1]
      rcases hd : (sign (skipSpace s)).2.drop 2 with - | ⟨c, q⟩
      · rfl
      · rw [hd] at hdrop
        exact List.takeWhile_cons_of_neg (hdrop c rfl)
    have hvalue := hvalid (by unfold subject; omega)
    rw [hnone, if_pos rfl] at hvalue
    exact hcorrect.endptr.1 (by rw [hvalue]) text rest neg n hbegins
  · intro hbare
    by_cases hbase : 2 ≤ chooseBase base (subject s) ∧ chooseBase base (subject s) ≤ 36
    · rw [hvalid hbase]
      by_cases hne : digitsOf base (subject s) = []
      · -- There is no number: any number would be as long as what was read at most.
        have hnothing : ∀ text rest neg n, ¬ Begins base s text rest neg n := by
          intro text rest neg n hbegins
          obtain ⟨m, -, hu, -, hm⟩ := begins_iff.1 hbegins
          rcases (hm.length_le hu).2.2 with ⟨hsome, -⟩ | hb
          · exact hsome hne
          · exact hbare hb
        have hread : valueRead base (subject s) = 0 := by
          rw [valueRead, hne]
          rfl
        rw [hread, hzero, if_pos hne]
        exact {
          number := fun ⟨text, rest, neg, n, hbegins⟩ => absurd hbegins (hnothing text rest neg n)
          nothing := fun _ => ⟨rfl, by simp⟩
          endptr := by simpa using hnothing }
      · rw [if_neg hne]
        have hlongest := longest_digitsOf hbare hbase hne
        exact {
          number := fun _ => ⟨_, _, _, _, hlongest, rfl⟩
          nothing := fun hno => absurd hlongest.1 (hno _ _ _ _)
          endptr := by
            constructor
            · intro hend
              exact absurd (congrArg List.length hend) (ne_of_lt hlongest.1.length_lt)
            · intro hno
              exact absurd hlongest.1 (hno _ _ _ _) }
    · have hnothing : ∀ text rest neg n, ¬ Begins base s text rest neg n := by
        intro text rest neg n hbegins
        obtain ⟨m, -, hu, -, hm⟩ := begins_iff.1 hbegins
        have hle := hm.length_le hu
        exact hbase ⟨hle.1, hle.2.1⟩
      rw [hinvalid hbase]
      exact {
        number := fun ⟨text, rest, neg, n, hbegins⟩ => absurd hbegins (hnothing text rest neg n)
        nothing := fun _ => ⟨rfl, fun h => by cases h⟩
        endptr := by simpa using hnothing }

theorem strtoul_strtol_correct_iff (s : Str) (base : ℤ) :
    (Correct ulongOf base s (strtoul s base) ↔ ¬ BarePrefix base s) ∧
      (Correct longOf base s (strtol s base) ↔ ¬ BarePrefix base s) := by
  constructor
  · refine correct_iff (fun neg => by cases neg <;> rfl) (stol_invalid false) fun hbase => ?_
    rw [strtoul, stol_valid false hbase, finish_ulong]
  · refine correct_iff (fun neg => by cases neg <;> rfl) (fun hbase => ?_) fun hbase => ?_
    · rw [strtol, stol_invalid true hbase]
      rfl
    · rw [strtol, stol_valid true hbase, ← finish_long]

/-- In `"0x"` the zero is a number, and the end pointer should be behind it. -/
theorem strtoul_bare_prefix : strtoul [48, 120] 0 = ⟨0, [48, 120], none⟩ ∧
    Begins 0 [48, 120] [48] [120] false 0 ∧ ¬ Correct ulongOf 0 [48, 120] (strtoul [48, 120] 0) ∧
    ¬ Correct longOf 0 [48, 120] (strtol [48, 120] 0) := by
  have hbegins : Begins 0 [48, 120] [48] [120] false 0 :=
    ⟨rfl, .unsigned ⟨8, [], [48], .octal [] rfl, rfl, by simp, List.forall_mem_singleton.2 (by decide), rfl⟩⟩
  refine ⟨rfl, hbegins, fun h => ?_, fun h => ?_⟩
  · exact h.endptr.1 rfl _ _ _ _ hbegins
  · exact h.endptr.1 rfl _ _ _ _ hbegins

end OpenWatcom.Clib.StrToL
