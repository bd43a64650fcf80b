import Mathlib.Tactic

/-! # Numbers in groups of bits, the low group first

`unsignedGroups` and `signedGroups` write a number in as few groups as it needs.  In the signed reading the last group
carries the sign (`signedVal`).  `n` groups reach exactly the numbers below `b ^ n`, and in the signed reading the
numbers from `-(b ^ n / 2)` on and below `b ^ n / 2`; here `b = 2 * h`, so that half of `b ^ (n + 1)` is
`h * b ^ n`. -/

namespace OpenWatcom

/-! ### Unsigned numbers -/

/-- The groups of a number, at least one. -/
def unsignedGroups (b n : ℕ) : List ℕ :=
  if n = 0 then [0] else Nat.digits b n

section unsigned

variable {b n : ℕ}

theorem unsignedGroups_ne_nil (b n : ℕ) : unsignedGroups b n ≠ [] := by
  unfold unsignedGroups
  split
  · exact List.cons_ne_nil _ _
  · rename_i hn
    exact Nat.digits_ne_nil_iff_ne_zero.mpr hn

theorem unsignedGroups_of_lt (h : n < b) : unsignedGroups b n = [n] := by
  unfold unsignedGroups
  split
  · rename_i hn
    rw [hn]
  · rename_i hn
    exact Nat.digits_of_lt b n hn h

theorem unsignedGroups_of_le (hb : 1 < b) (h : b ≤ n) : unsignedGroups b n = n % b :: unsignedGroups b (n / b) := by
  have hq : n / b ≠ 0 := Nat.div_ne_zero_iff.mpr ⟨by omega, h⟩
  unfold unsignedGroups
  rw [if_neg (by omega), if_neg hq, Nat.digits_def' hb (by omega)]

theorem ofDigits_unsignedGroups (b n : ℕ) : Nat.ofDigits b (unsignedGroups b n) = n := by
  unfold unsignedGroups
  split
  · rename_i hn
    rw [hn, Nat.ofDigits_singleton]
  · exact Nat.ofDigits_digits b n

theorem unsignedGroups_lt (hb : 1 < b) {g : ℕ} (hg : g ∈ unsignedGroups b n) : g < b := by
  unfold unsignedGroups at hg
  split at hg
  · rw [List.mem_singleton.mp hg]
    omega
  · exact Nat.digits_lt_base hb hg

/-- No fewer groups hold the number. -/
theorem unsignedGroups_length_le (hb : 1 < b) {k : ℕ} (hk : k ≠ 0) (h : n < b ^ k) :
    (unsignedGroups b n).length ≤ k := by
  unfold unsignedGroups
  split
  · rw [List.length_singleton]
    omega
  · exact (Nat.digits_length_le_iff hb n).mpr h

end unsigned

/-! ### Signed numbers -/

/-- The number that groups of base `2 * h` stand for when the last one carries the sign. -/
def signedVal (h : ℕ) : List ℕ → ℤ
  | [] => 0
  | [g] => if g < h then g else g - 2 * h
  | g :: l => g + 2 * h * signedVal h l

/-- The groups of a signed number: the last one is the first that leaves only copies of its own sign behind. -/
def signedGroups (h : ℕ) (x : ℤ) : List ℕ :=
  if -h ≤ x ∧ x < h ∨ h = 0 then [(x % (2 * h)).toNat]
  else (x % (2 * h)).toNat :: signedGroups h (x / (2 * h))
termination_by x.natAbs
decreasing_by
  have hh : (2 : ℤ) ≤ 2 * h := by omega
  have hdm := Int.mul_ediv_add_emod x (2 * h)
  have hr := Int.emod_nonneg x (by omega : (2 * h : ℤ) ≠ 0)
  have hlt := Int.emod_lt_of_pos x (by omega : (0 : ℤ) < 2 * h)
  rcases le_or_gt 0 (x / (2 * h)) with hq | hq
  · have hmul : 2 * (x / (2 * h)) ≤ 2 * h * (x / (2 * h)) := mul_le_mul_of_nonneg_right hh hq
    omega
  · have hmul : 2 * h * (x / (2 * h) + 1) ≤ 2 * (x / (2 * h) + 1) := mul_le_mul_of_nonpos_right hh (by omega)
    rw [mul_add, mul_one] at hmul
    omega

section signed

variable {h : ℕ} {x : ℤ} {l : List ℕ} {g : ℕ}

@[simp] theorem signedVal_singleton (h g : ℕ) : signedVal h [g] = if g < h then (g : ℤ) else g - 2 * h := rfl

theorem signedVal_cons (hl : l ≠ []) : signedVal h (g :: l) = g + 2 * h * signedVal h l := by
  cases l with
  | nil => exact absurd rfl hl
  | cons a l => rfl

/-- The signed reading takes `(2 * h) ^ n` away from the unsigned one when the last group says so. -/
theorem signedVal_eq (hl : l ≠ []) :
    signedVal h l = Nat.ofDigits (2 * h) l - if l.getLast hl < h then (0 : ℤ) else (2 * h : ℤ) ^ l.length := by
  induction l with
  | nil => exact absurd rfl hl
  | cons a l ih =>
      by_cases hnil : l = []
      · subst hnil
        rw [signedVal_singleton, Nat.ofDigits_singleton, List.getLast_singleton, List.length_singleton, pow_one]
        split <;> ring
      · rw [signedVal_cons hnil, ih hnil, List.getLast_cons hnil, Nat.ofDigits_cons, List.length_cons, pow_succ]
        push_cast
        split <;> ring

/-- What `n` groups reach. -/
theorem signedVal_bounds (hl : l ≠ []) (hg : ∀ g ∈ l, g < 2 * h) :
    -(h * (2 * h) ^ (l.length - 1) : ℤ) ≤ signedVal h l ∧ signedVal h l < h * (2 * h) ^ (l.length - 1) := by
  induction l with
  | nil => exact absurd rfl hl
  | cons a l ih =>
      have ha := hg a List.mem_cons_self
      by_cases hnil : l = []
      · subst hnil
        rw [signedVal_singleton, List.length_singleton, Nat.sub_self, pow_zero, mul_one]
        split <;> omega
      · obtain ⟨hlow, hhigh⟩ := ih hnil fun g hg' => hg g (List.mem_cons_of_mem a hg')
        have hlen := List.length_pos_iff.mpr hnil
        have hpow : (h * (2 * h) ^ ((a :: l).length - 1) : ℤ) = 2 * h * (h * (2 * h) ^ (l.length - 1)) := by
          rw [List.length_cons, Nat.add_sub_cancel, ← Nat.sub_add_cancel hlen, pow_succ, Nat.add_sub_cancel]
          ring
        have hlow' := mul_le_mul_of_nonneg_left hlow (by omega : (0 : ℤ) ≤ 2 * h)
        have hhigh' := mul_le_mul_of_nonneg_left (Int.add_one_le_of_lt hhigh) (by omega : (0 : ℤ) ≤ 2 * h)
        rw [signedVal_cons hnil, hpow]
        constructor
        · linarith
        · linarith

theorem signedGroups_of_mem (hlow : -h ≤ x) (hhigh : x < h) : signedGroups h x = [(x % (2 * h)).toNat] := by
  rw [signedGroups, if_pos (Or.inl ⟨hlow, hhigh⟩)]

theorem signedGroups_of_not_mem (hpos : 0 < h) (hx : ¬ (-h ≤ x ∧ x < h)) :
    signedGroups h x = (x % (2 * h)).toNat :: signedGroups h (x / (2 * h)) := by
  rw [signedGroups, if_neg (by rw [not_or]; exact ⟨hx, by omega⟩)]

theorem signedGroups_ne_nil (h : ℕ) (x : ℤ) : signedGroups h x ≠ [] := by
  rw [signedGroups]
  split <;> exact List.cons_ne_nil _ _

theorem signedGroups_lt (hpos : 0 < h) (hg : g ∈ signedGroups h x) : g < 2 * h := by
  induction x using signedGroups.induct h with
  | case1 x hx =>
      rw [signedGroups, if_pos hx, List.mem_singleton] at hg
      have hlt := Int.emod_lt_of_pos x (by omega : (0 : ℤ) < 2 * h)
      omega
  | case2 x hx ih =>
      rw [signedGroups, if_neg hx, List.mem_cons] at hg
      have hlt := Int.emod_lt_of_pos x (by omega : (0 : ℤ) < 2 * h)
      rcases hg with rfl | hg
      · omega
      · exact ih hg

theorem signedVal_signedGroups (hpos : 0 < h) (x : ℤ) : signedVal h (signedGroups h x) = x := by
  have hrem (y : ℤ) : ((y % (2 * h)).toNat : ℤ) = y % (2 * h) :=
    Int.toNat_of_nonneg (Int.emod_nonneg y (by omega))
  induction x using signedGroups.induct h with
  | case1 x hx =>
      rcases hx with ⟨hlow, hhigh⟩ | hzero
      · rw [signedGroups_of_mem hlow hhigh, signedVal_singleton]
        rcases le_or_gt 0 x with hx | hx
        · have hmod : x % (2 * h) = x := Int.emod_eq_of_lt hx (by omega)
          rw [hrem, hmod, if_pos (by omega)]
        · have hmod : x % (2 * h) = x + 2 * h := by
            rw [← Int.add_emod_right, Int.emod_eq_of_lt (by omega) (by omega)]
          rw [hrem, hmod, if_neg (by omega)]
          ring
      · omega
  | case2 x hx ih =>
      rw [not_or] at hx
      rw [signedGroups_of_not_mem hpos hx.1, signedVal_cons (signedGroups_ne_nil h _), ih, hrem]
      exact Int.emod_add_mul_ediv x (2 * h)

/-- No fewer groups hold the number. -/
theorem signedGroups_length_le (hpos : 0 < h) {k : ℕ} (hlow : -(h * (2 * h) ^ k : ℤ) ≤ x)
    (hhigh : x < h * (2 * h) ^ k) : (signedGroups h x).length ≤ k + 1 := by
  induction k generalizing x with
  | zero =>
      rw [pow_zero, mul_one] at hlow hhigh
      rw [signedGroups_of_mem hlow hhigh, List.length_singleton]
  | succ k ih =>
      by_cases hx : -h ≤ x ∧ x < h
      · rw [signedGroups_of_mem hx.1 hx.2, List.length_singleton]
        omega
      · rw [signedGroups_of_not_mem hpos hx, List.length_cons]
        have hb : (0 : ℤ) < 2 * h := by omega
        have hpow : (h * (2 * h) ^ (k + 1) : ℤ) = h * (2 * h) ^ k * (2 * h) := by ring
        rw [hpow] at hlow hhigh
        refine Nat.succ_le_succ (ih ?_ ?_)
        · rw [Int.le_ediv_iff_mul_le hb]
          linarith
        · exact (Int.ediv_lt_iff_lt_mul hb).mpr hhigh

end signed

end OpenWatcom
