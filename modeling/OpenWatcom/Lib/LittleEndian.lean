import Mathlib.Tactic

/-! # Numbers as bytes

`leBytes k n` are the `k` bytes of `n`, the low one first, and `leVal` is the number that bytes stand for. -/

namespace OpenWatcom

/-- The number that bytes stand for, the low byte first. -/
def leVal : List UInt8 → ℕ
  | [] => 0
  | b :: l => b.toNat + 256 * leVal l

/-- The `k` bytes of a number, the low one first. -/
def leBytes : ℕ → ℕ → List UInt8
  | 0, _ => []
  | k + 1, n => UInt8.ofNat n :: leBytes k (n / 256)

@[simp] theorem leBytes_length (k n : ℕ) : (leBytes k n).length = k := by
  induction k generalizing n with
  | zero => rfl
  | succ k ih => rw [leBytes, List.length_cons, ih]

theorem leVal_leBytes {k n : ℕ} (h : n < 256 ^ k) : leVal (leBytes k n) = n := by
  induction k generalizing n with
  | zero =>
      rw [pow_zero] at h
      obtain rfl : n = 0 := by omega
      rfl
  | succ k ih =>
      rw [pow_succ] at h
      rw [leBytes, leVal, ih (by omega)]
      have hlow : (UInt8.ofNat n).toNat = n % 256 := by simp
      rw [hlow]
      omega

/-- A number of `k` bytes at the front, with what is behind it. -/
def readLe (k : ℕ) (l : List UInt8) : Option (ℕ × List UInt8) :=
  if k ≤ l.length then some (leVal (l.take k), l.drop k) else none

theorem readLe_append {k n : ℕ} (h : n < 256 ^ k) (l : List UInt8) : readLe k (leBytes k n ++ l) = some (n, l) := by
  have hlen := leBytes_length k n
  unfold readLe
  rw [if_pos (by rw [List.length_append]; omega), List.take_left' hlen, List.drop_left' hlen, leVal_leBytes h]

end OpenWatcom
