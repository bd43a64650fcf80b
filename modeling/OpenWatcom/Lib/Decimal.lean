import Mathlib.Data.List.DropRight
import Mathlib.Tactic

/-! # Decimal digits, the most significant first

`decVal` is the number that a list of digits stands for.  Zeros in front of the digits change nothing
(`decVal_dropWhile`), and zeros behind them multiply by ten (`decVal_rdropWhile`); a list without either is given by
its number and its length (`decVal_inj`), and its number tells its length (`decVal_lt`, `le_decVal`). -/

namespace OpenWatcom

/-- Digits below ten. -/
def Digits (l : List ℕ) : Prop := ∀ d ∈ l, d < 10

instance (l : List ℕ) : Decidable (Digits l) := inferInstanceAs (Decidable (∀ _ ∈ _, _))

/-- The number that the digits stand for. -/
def decVal (l : List ℕ) : ℕ := Nat.ofDigits 10 l.reverse

variable {l m : List ℕ} {d e : ℕ}

theorem Digits.head (h : Digits (d :: l)) : d < 10 := h d List.mem_cons_self

theorem Digits.tail (h : Digits (d :: l)) : Digits l := fun e he => h e (List.mem_cons_of_mem d he)

theorem Digits.cons (hd : d < 10) (h : Digits l) : Digits (d :: l) := List.forall_mem_cons.mpr ⟨hd, h⟩

theorem Digits.of_subset (h : Digits m) (hl : l ⊆ m) : Digits l := fun d hd => h d (hl hd)

/-! ### Values -/

@[simp] theorem decVal_nil : decVal [] = 0 := rfl

theorem decVal_append (l m : List ℕ) : decVal (l ++ m) = decVal l * 10 ^ m.length + decVal m := by
  unfold decVal
  rw [List.reverse_append, Nat.ofDigits_append, List.length_reverse]
  ring

theorem decVal_singleton (d : ℕ) : decVal [d] = d := Nat.ofDigits_singleton

theorem decVal_cons (d : ℕ) (l : List ℕ) : decVal (d :: l) = d * 10 ^ l.length + decVal l := by
  have h := decVal_append [d] l
  rwa [decVal_singleton] at h

theorem decVal_lt (h : Digits l) : decVal l < 10 ^ l.length := by
  have hlt := Nat.ofDigits_lt_base_pow_length (b := 10) (l := l.reverse) (by decide)
    fun d hd => h d (List.mem_reverse.mp hd)
  rwa [List.length_reverse] at hlt

theorem le_decVal (hd : d ≠ 0) : 10 ^ l.length ≤ decVal (d :: l) := by
  rw [decVal_cons]
  have hone : 1 * 10 ^ l.length ≤ d * 10 ^ l.length := Nat.mul_le_mul_right _ (Nat.pos_of_ne_zero hd)
  omega

theorem decVal_inj (hl : Digits l) (hm : Digits m) (hlen : l.length = m.length) (h : decVal l = decVal m) :
    l = m := by
  apply List.reverse_injective
  apply Nat.ofDigits_inj_of_len_eq (by decide : 1 < 10)
  · rw [List.length_reverse, List.length_reverse, hlen]
  · exact fun d hd => hl d (List.mem_reverse.mp hd)
  · exact fun d hd => hm d (List.mem_reverse.mp hd)
  · exact h

/-! ### Zeros -/

theorem decVal_zeros (h : ∀ d ∈ l, d = 0) : decVal l = 0 := by
  induction l with
  | nil => rfl
  | cons d l ih =>
      rw [decVal_cons, h d List.mem_cons_self, ih fun e he => h e (List.mem_cons_of_mem d he), Nat.zero_mul]

theorem decVal_dropWhile (l : List ℕ) : decVal (l.dropWhile (· = 0)) = decVal l := by
  induction l with
  | nil => rfl
  | cons d l ih =>
      by_cases hd : d = 0
      · rw [List.dropWhile_cons_of_pos (by simpa using hd), ih, decVal_cons, hd, Nat.zero_mul, Nat.zero_add]
      · rw [List.dropWhile_cons_of_neg (by simpa using hd)]

theorem length_takeWhile_add (l : List ℕ) (p : ℕ → Bool) :
    (l.takeWhile p).length + (l.dropWhile p).length = l.length := by
  rw [← List.length_append, List.takeWhile_append_dropWhile]

theorem decVal_rdropWhile (l : List ℕ) :
    decVal l = decVal (l.rdropWhile (· = 0)) * 10 ^ (l.length - (l.rdropWhile (· = 0)).length) := by
  induction l using List.reverseRecOn with
  | nil => rfl
  | append_singleton l d ih =>
      by_cases hd : d = 0
      · rw [List.rdropWhile_concat_pos _ _ _ (by simpa using hd), decVal_append, decVal_singleton, hd,
          Nat.add_zero, List.length_append, List.length_singleton]
        have hle := (List.rdropWhile_prefix (fun x : ℕ => decide (x = 0)) (l := l)).length_le
        have hpow : l.length + 1 - (l.rdropWhile (· = 0)).length =
            l.length - (l.rdropWhile (· = 0)).length + 1 := by omega
        rw [hpow, pow_one, pow_succ, ← Nat.mul_assoc, ← ih]
      · rw [List.rdropWhile_concat_neg _ _ _ (by simpa using hd), Nat.sub_self, pow_zero, Nat.mul_one]

/-- A number without zeros behind it is no multiple of ten. -/
theorem not_ten_dvd_decVal (h : Digits l) (hl : l ≠ []) (hlast : l.getLast hl ≠ 0) : ¬ 10 ∣ decVal l := by
  obtain ⟨m, d, rfl⟩ : ∃ m d, l = m ++ [d] := ⟨l.dropLast, l.getLast hl, (List.dropLast_append_getLast hl).symm⟩
  rw [List.getLast_append_singleton] at hlast
  have hd := h d (List.mem_append_right m List.mem_cons_self)
  rw [decVal_append, decVal_singleton, List.length_singleton, pow_one]
  omega

/-- Two numbers that are no multiples of ten have the same digits if powers of ten make them equal. -/
theorem eq_of_mul_pow_eq {a b i j : ℕ} (ha : ¬ 10 ∣ a) (hb : ¬ 10 ∣ b) (h : a * 10 ^ i = b * 10 ^ j) :
    a = b ∧ i = j := by
  induction i generalizing j with
  | zero =>
      cases j with
      | zero => simpa using h
      | succ j =>
          refine absurd ⟨b * 10 ^ j, ?_⟩ ha
          rw [pow_zero, Nat.mul_one] at h
          rw [h, pow_succ]
          ring
  | succ i ih =>
      cases j with
      | zero =>
          refine absurd ⟨a * 10 ^ i, ?_⟩ hb
          rw [pow_zero, Nat.mul_one] at h
          rw [← h, pow_succ]
          ring
      | succ j =>
          have hcancel : a * 10 ^ i = b * 10 ^ j := by
            rw [pow_succ, pow_succ, ← Nat.mul_assoc, ← Nat.mul_assoc] at h
            exact Nat.eq_of_mul_eq_mul_right (by decide) h
          obtain ⟨hab, hij⟩ := ih hcancel
          exact ⟨hab, by rw [hij]⟩

/-! ### Fractions and a half -/

theorem div_lt_half_iff {a b : ℕ} (hb : 0 < b) : (a : ℚ) / b < 1 / 2 ↔ 2 * a < b := by
  have hpos : (0 : ℚ) < b := Nat.cast_pos.mpr hb
  rw [div_lt_div_iff₀ hpos (by norm_num), one_mul, mul_comm]
  exact_mod_cast Iff.rfl

theorem div_eq_half_iff {a b : ℕ} (hb : 0 < b) : (a : ℚ) / b = 1 / 2 ↔ 2 * a = b := by
  have hpos : (b : ℚ) ≠ 0 := Nat.cast_ne_zero.mpr hb.ne'
  rw [div_eq_div_iff hpos (by norm_num), one_mul, mul_comm]
  exact_mod_cast Iff.rfl

end OpenWatcom
