import Mathlib.Tactic

/-! # Bisection

`bisect cmp lo hi` looks for a place from `lo` up to `hi` where a key is, with `cmp i` the order of the key and the item
at `i`.

* `bisect_eq`: it finds the place of the key in items that increase;
* `bisect_sound`: a place that it finds holds the key. -/

namespace OpenWatcom

def bisect (cmp : ℕ → Ordering) (lo hi : ℕ) : Option ℕ :=
  if lo < hi then
    match cmp ((lo + hi) / 2) with
    | .eq => some ((lo + hi) / 2)
    | .lt => bisect cmp lo ((lo + hi) / 2)
    | .gt => bisect cmp ((lo + hi) / 2 + 1) hi
  else none
termination_by hi - lo

theorem bisect_sound {cmp : ℕ → Ordering} {lo hi k : ℕ} (h : bisect cmp lo hi = some k) :
    lo ≤ k ∧ k < hi ∧ cmp k = .eq := by
  fun_induction bisect cmp lo hi with
  | case1 lo hi hlt heq =>
      obtain rfl := Option.some.inj h
      exact ⟨by omega, by omega, heq⟩
  | case2 lo hi hlt _ ih =>
      obtain ⟨hlow, hhigh, heq⟩ := ih h
      exact ⟨hlow, by omega, heq⟩
  | case3 lo hi hlt _ ih =>
      obtain ⟨hlow, hhigh, heq⟩ := ih h
      exact ⟨by omega, hhigh, heq⟩
  | case4 lo hi hlt => cases h

theorem bisect_eq {cmp : ℕ → Ordering} {lo hi k : ℕ} (hlow : lo ≤ k) (hhigh : k < hi) (heq : cmp k = .eq)
    (hbefore : ∀ i, i < k → cmp i = .gt) (hbehind : ∀ i, k < i → i < hi → cmp i = .lt) :
    bisect cmp lo hi = some k := by
  fun_induction bisect cmp lo hi with
  | case1 lo hi hlt hmid =>
      obtain hlt | rfl | hgt := lt_trichotomy ((lo + hi) / 2) k
      · exact absurd (hmid.symm.trans (hbefore _ hlt)) (by decide)
      · rfl
      · exact absurd (hmid.symm.trans (hbehind _ hgt (by omega))) (by decide)
  | case2 lo hi hlt hmid ih =>
      have hk : k < (lo + hi) / 2 := by
        by_contra hle
        obtain hgt | heq' := lt_or_eq_of_le (not_lt.mp hle)
        · exact absurd (hmid.symm.trans (hbefore _ hgt)) (by decide)
        · exact absurd (hmid.symm.trans (heq' ▸ heq)) (by decide)
      exact ih hlow hk fun i hi hlt => hbehind i hi (by omega)
  | case3 lo hi hlt hmid ih =>
      have hk : (lo + hi) / 2 < k := by
        by_contra hle
        obtain hgt | heq' := lt_or_eq_of_le (not_lt.mp hle)
        · exact absurd (hmid.symm.trans (hbehind _ hgt (by omega))) (by decide)
        · exact absurd (hmid.symm.trans (heq' ▸ heq)) (by decide)
      exact ih hk hhigh hbehind
  | case4 lo hi hlt => omega

end OpenWatcom
