import Mathlib.Tactic

/-! # Numbered blocks end to end

Blocks `f 0`, `f 1`, … written one behind the other, with weights `w 0`, `w 1`, … that say how long they
are: `startOf w n` is where block `n` starts. -/

namespace OpenWatcom

/-- Where block `n` starts. -/
def startOf (w : ℕ → ℕ) (n : ℕ) : ℕ := ((List.range n).map w).sum

@[simp] theorem startOf_zero (w : ℕ → ℕ) : startOf w 0 = 0 := rfl

theorem startOf_succ (w : ℕ → ℕ) (n : ℕ) : startOf w (n + 1) = startOf w n + w n := by
  unfold startOf
  rw [List.range_succ, List.map_append, List.sum_append]
  simp

/-- The blocks between are empty. -/
theorem startOf_eq_of_zero (w : ℕ → ℕ) {m n : ℕ} (h : m ≤ n) (hz : ∀ i, m ≤ i → i < n → w i = 0) :
    startOf w n = startOf w m := by
  induction n, h using Nat.le_induction with
  | base => rfl
  | succ n hmn ih =>
      rw [startOf_succ, hz n hmn (Nat.lt_succ_self n),
        ih fun i h1 h2 => hz i h1 (h2.trans (Nat.lt_succ_self n))]
      rfl

/-- Each position before the end is in a block. -/
theorem exists_block (w : ℕ → ℕ) {n p : ℕ} (h : p < startOf w n) :
    ∃ i < n, ∃ k < w i, p = startOf w i + k := by
  induction n with
  | zero => exact absurd h (Nat.not_lt_zero p)
  | succ n ih =>
      rcases Nat.lt_or_ge p (startOf w n) with hp | hp
      · obtain ⟨i, hi, k, hk, hpk⟩ := ih hp
        exact ⟨i, hi.trans (Nat.lt_succ_self n), k, hk, hpk⟩
      · rw [startOf_succ] at h
        exact ⟨n, Nat.lt_succ_self n, p - startOf w n, by omega, by omega⟩

section blocks

variable {α : Type} (f : ℕ → List α)

/-- The blocks before block `n`. -/
def blocks (n : ℕ) : List α := (List.range n).flatMap f

theorem blocks_succ (n : ℕ) : blocks f (n + 1) = blocks f n ++ f n := by
  unfold blocks
  rw [List.range_succ, List.flatMap_append, List.flatMap_singleton]

theorem length_blocks (n : ℕ) : (blocks f n).length = startOf (fun i => (f i).length) n := by
  unfold blocks startOf
  rw [List.length_flatMap]

theorem blocks_mono {m n : ℕ} (h : m ≤ n) : blocks f m <+: blocks f n := by
  induction n, h using Nat.le_induction with
  | base => exact List.prefix_rfl
  | succ n _ ih =>
      rw [blocks_succ]
      exact ih.trans (List.prefix_append _ _)

variable {f} {w : ℕ → ℕ}

/-- What is at a position. -/
theorem getElem?_blocks (hw : ∀ i, (f i).length = w i) {n i k : ℕ} (hi : i < n) (hk : k < w i) :
    (blocks f n)[startOf w i + k]? = (f i)[k]? := by
  have hlen : (blocks f i).length = startOf w i := by
    rw [length_blocks]
    simp only [hw]
  obtain ⟨tail, htail⟩ := blocks_mono f hi
  rw [← htail, blocks_succ, List.append_assoc,
    List.getElem?_append_right (by rw [hlen]; exact Nat.le_add_right _ _), hlen,
    Nat.add_sub_cancel_left, List.getElem?_append_left (by rw [hw]; exact hk)]

/-- An element that is in one block alone, and there once, is found at its place only. -/
theorem eq_startOf_of_mem (hw : ∀ i, (f i).length = w i) {n i k p : ℕ} {a : α}
    (honly : ∀ j < n, ∀ l < w j, (f j)[l]? = some a → j = i ∧ l = k)
    (h : (blocks f n)[p]? = some a) : p = startOf w i + k := by
  have hp : p < startOf w n := by
    have := (List.getElem?_eq_some_iff.mp h).1
    rw [length_blocks] at this
    simpa only [hw] using this
  obtain ⟨j, hj, l, hl, rfl⟩ := exists_block w hp
  rw [getElem?_blocks hw hj hl] at h
  obtain ⟨rfl, rfl⟩ := honly j hj l hl h
  rfl

end blocks

/-! ### Blocks of one length -/

section uniform

variable {α β : Type} {f : α → List β} {m : ℕ}

/-- Element `i` of the block of the `p`-th item. -/
theorem getElem?_flatMap_of_length (hf : ∀ a, (f a).length = m) {l : List α} {p i : ℕ} {a : α}
    (hp : l[p]? = some a) (hi : i < m) : (l.flatMap f)[p * m + i]? = (f a)[i]? := by
  induction l generalizing p with
  | nil => cases hp
  | cons b l ih =>
      rw [List.flatMap_cons]
      cases p with
      | zero =>
          obtain rfl := Option.some.inj hp
          rw [Nat.zero_mul, Nat.zero_add, List.getElem?_append_left (by rw [hf]; exact hi)]
      | succ p =>
          have hlen : (p + 1) * m + i = (f b).length + (p * m + i) := by
            rw [hf, Nat.succ_mul]
            omega
          rw [hlen, List.getElem?_append_right (Nat.le_add_right _ _), Nat.add_sub_cancel_left]
          exact ih hp

theorem length_flatMap_of_length (hf : ∀ a, (f a).length = m) (l : List α) :
    (l.flatMap f).length = l.length * m := by
  rw [List.length_flatMap]
  simp [hf]

end uniform

end OpenWatcom
