import Mathlib.Tactic

/-! # The proleptic Gregorian calendar

Days are counted from the first day of year 1.  `daysBefore` counts the days before a year in closed form; what it
means is `daysBefore_succ`: it grows by the length of the year.  `months` and `starts` are the lengths and the starts of
the months of a year. -/

namespace OpenWatcom.Gregorian

def leap (y : ℤ) : Bool := y % 4 == 0 && (y % 100 != 0 || y % 400 == 0)

def yearLength (y : ℤ) : ℤ := if leap y then 366 else 365

/-- The days of the months of a year. -/
def months (isLeap : Bool) : List ℤ := [31, if isLeap then 29 else 28, 31, 30, 31, 30, 31, 31, 30, 31, 30, 31]

/-- The days of the year before a month. -/
def monthStart (isLeap : Bool) (m : ℕ) : ℤ := ((months isLeap).take m).sum

/-- The days before a year. -/
def daysBefore (y : ℤ) : ℤ := 365 * (y - 1) + (y - 1) / 4 - (y - 1) / 100 + (y - 1) / 400

theorem daysBefore_succ (y : ℤ) : daysBefore (y + 1) = daysBefore y + yearLength y := by
  unfold daysBefore yearLength
  by_cases h : leap y = true
  · rw [if_pos h]
    simp only [leap, Bool.and_eq_true, Bool.or_eq_true, beq_iff_eq, bne_iff_ne, ne_eq] at h
    omega
  · rw [if_neg h]
    simp only [leap, Bool.and_eq_true, Bool.or_eq_true, beq_iff_eq, bne_iff_ne, ne_eq, not_and, not_or] at h
    omega

theorem yearLength_bounds (y : ℤ) : 365 ≤ yearLength y ∧ yearLength y ≤ 366 := by
  unfold yearLength
  split <;> omega

theorem daysBefore_mono {y z : ℤ} (h : y ≤ z) : daysBefore y ≤ daysBefore z := by
  unfold daysBefore
  omega

/-- The year of a day is the only one that it falls in. -/
theorem year_unique {y z d : ℤ} (hy : daysBefore y ≤ d) (hy' : d < daysBefore (y + 1)) (hz : daysBefore z ≤ d)
    (hz' : d < daysBefore (z + 1)) : y = z := by
  rcases lt_trichotomy y z with h | h | h
  · have hle := daysBefore_mono (show y + 1 ≤ z by omega)
    omega
  · exact h
  · have hle := daysBefore_mono (show z + 1 ≤ y by omega)
    omega

end OpenWatcom.Gregorian
