import Mathlib.Tactic

/-! # Runs of bounded length

A list is cut into runs of equal elements, from its front on, where a run of `a` has at most `limit a` of them.

* `expand_runsFrom`: the runs give the list back;
* `runsFrom_bounds`: no run is empty or longer than its limit. -/

namespace OpenWatcom.RunLengths

variable {α : Type*}

/-- What runs stand for. -/
def expand (runs : List (α × ℕ)) : List α := runs.flatMap fun r => List.replicate r.2 r.1

@[simp] theorem expand_nil : expand ([] : List (α × ℕ)) = [] := rfl

@[simp] theorem expand_cons (r : α × ℕ) (runs : List (α × ℕ)) :
    expand (r :: runs) = List.replicate r.2 r.1 ++ expand runs := rfl

variable [DecidableEq α] (limit : α → ℕ)

/-- The runs of a list that comes behind `cnt` elements `cur`. -/
def runsFrom (cur : α) (cnt : ℕ) : List α → List (α × ℕ)
  | [] => [(cur, cnt)]
  | x :: l => if x ≠ cur ∨ cnt = limit cur then (cur, cnt) :: runsFrom x 1 l else runsFrom cur (cnt + 1) l

/-- The runs of a list. -/
def runs : List α → List (α × ℕ)
  | [] => []
  | x :: l => runsFrom limit x 1 l

variable {limit}

theorem runsFrom_length_pos (cur : α) (cnt : ℕ) (l : List α) : 0 < (runsFrom limit cur cnt l).length := by
  induction l generalizing cur cnt with
  | nil => exact Nat.one_pos
  | cons x l ih =>
      unfold runsFrom
      split_ifs
      · exact Nat.succ_pos _
      · exact ih cur (cnt + 1)

theorem expand_runsFrom (cur : α) (cnt : ℕ) (l : List α) :
    expand (runsFrom limit cur cnt l) = List.replicate cnt cur ++ l := by
  induction l generalizing cur cnt with
  | nil => simp [runsFrom]
  | cons x l ih =>
      unfold runsFrom
      split_ifs with h
      · rw [expand_cons, ih]
        rfl
      · push Not at h
        rw [ih, List.replicate_succ', List.append_assoc, h.1, List.singleton_append]

theorem expand_runs (l : List α) : expand (runs limit l) = l := by
  cases l with
  | nil => rfl
  | cons x l => exact expand_runsFrom x 1 l

theorem runsFrom_bounds (hlimit : ∀ a, 1 ≤ limit a) {cur : α} {cnt : ℕ} (hpos : 1 ≤ cnt) (hle : cnt ≤ limit cur)
    (l : List α) : ∀ r ∈ runsFrom limit cur cnt l, 1 ≤ r.2 ∧ r.2 ≤ limit r.1 := by
  induction l generalizing cur cnt with
  | nil =>
      intro r hr
      rw [List.mem_singleton.mp hr]
      exact ⟨hpos, hle⟩
  | cons x l ih =>
      intro r hr
      unfold runsFrom at hr
      split_ifs at hr with h
      · obtain rfl | hr := List.mem_cons.mp hr
        · exact ⟨hpos, hle⟩
        · exact ih le_rfl (hlimit x) r hr
      · push Not at h
        have := h.2
        exact ih (by omega) (by omega) r hr

theorem runs_bounds (hlimit : ∀ a, 1 ≤ limit a) (l : List α) :
    ∀ r ∈ runs limit l, 1 ≤ r.2 ∧ r.2 ≤ limit r.1 := by
  cases l with
  | nil => exact fun r hr => nomatch hr
  | cons x l => exact runsFrom_bounds hlimit le_rfl (hlimit x) l

/-- A run is one of elements of the list. -/
theorem mem_of_mem_runs (hlimit : ∀ a, 1 ≤ limit a) {l : List α} {r : α × ℕ} (hr : r ∈ runs limit l) : r.1 ∈ l := by
  obtain ⟨hpos, -⟩ := runs_bounds hlimit l r hr
  rw [← (expand_runs l : expand (runs limit l) = l)]
  exact List.mem_flatMap.mpr ⟨r, hr, List.mem_replicate.mpr ⟨by omega, rfl⟩⟩

end OpenWatcom.RunLengths
