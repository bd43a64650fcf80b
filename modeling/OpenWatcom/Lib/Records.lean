import Mathlib.Tactic

/-! # Bytes in a store of records

A store keeps records of `n` cells each; cell `p` of the store is cell `p % n` of record `p / n`, and a
record that was never written is full of a filler.  Changing a part of a record and putting it back
changes the cells of that part and no others: `cell_of_paste`.

`overlay f p l` is the function `f` with the list `l` laid over it from `p` on, and `slice f p k` the list of `k`
of its values from `p` on. -/

namespace OpenWatcom

variable {α : Type*}

/-! ### Overlays and slices -/

/-- `f` with `l` laid over it from `p` on. -/
def overlay (f : ℕ → α) (p : ℕ) (l : List α) : ℕ → α :=
  fun q => if p ≤ q then l[q - p]?.getD (f q) else f q

theorem overlay_of_lt {f : ℕ → α} {p q : ℕ} {l : List α} (h : q < p) : overlay f p l q = f q :=
  if_neg (by omega)

theorem overlay_of_ge {f : ℕ → α} {p q : ℕ} {l : List α} (h : p + l.length ≤ q) :
    overlay f p l q = f q := by
  unfold overlay
  rw [if_pos (by omega), List.getElem?_eq_none (by omega)]
  rfl

theorem overlay_of_mem {f : ℕ → α} {p i : ℕ} {l : List α} (h : i < l.length) :
    overlay f p l (p + i) = l[i] := by
  unfold overlay
  rw [if_pos (by omega), Nat.add_sub_cancel_left, List.getElem?_eq_getElem h]
  rfl

@[simp] theorem overlay_nil (f : ℕ → α) (p : ℕ) : overlay f p [] = f := by
  funext q
  unfold overlay
  split_ifs <;> rfl

theorem overlay_append (f : ℕ → α) (p : ℕ) (l m : List α) :
    overlay (overlay f p l) (p + l.length) m = overlay f p (l ++ m) := by
  funext q
  by_cases h1 : q < p
  · rw [overlay_of_lt (by omega), overlay_of_lt h1, overlay_of_lt h1]
  · by_cases h2 : q < p + l.length
    · obtain ⟨i, rfl⟩ : ∃ i, q = p + i := ⟨q - p, by omega⟩
      rw [overlay_of_lt h2, overlay_of_mem (by omega),
        overlay_of_mem (by rw [List.length_append]; omega), List.getElem_append_left (by omega)]
    · by_cases h3 : q < p + l.length + m.length
      · obtain ⟨i, rfl⟩ : ∃ i, q = p + l.length + i := ⟨q - (p + l.length), by omega⟩
        rw [overlay_of_mem (by omega), Nat.add_assoc,
          overlay_of_mem (by rw [List.length_append]; omega),
          List.getElem_append_right (by omega)]
        congr 1
        omega
      · rw [overlay_of_ge (by omega), overlay_of_ge (by omega),
          overlay_of_ge (by rw [List.length_append]; omega)]

/-- The `k` values of `f` from `p` on. -/
def slice (f : ℕ → α) (p k : ℕ) : List α := (List.range k).map fun i => f (p + i)

@[simp] theorem slice_length (f : ℕ → α) (p k : ℕ) : (slice f p k).length = k := by
  simp [slice]

@[simp] theorem slice_zero (f : ℕ → α) (p : ℕ) : slice f p 0 = [] := rfl

theorem slice_getElem {f : ℕ → α} {p k i : ℕ} (h : i < (slice f p k).length) :
    (slice f p k)[i] = f (p + i) := by
  simp [slice]

theorem slice_congr {f g : ℕ → α} {p k : ℕ} (h : ∀ q, p ≤ q → q < p + k → f q = g q) :
    slice f p k = slice g p k := by
  refine List.map_congr_left fun i hi => ?_
  have := List.mem_range.mp hi
  exact h _ (by omega) (by omega)

theorem slice_add (f : ℕ → α) (p j k : ℕ) :
    slice f p (j + k) = slice f p j ++ slice f (p + j) k := by
  unfold slice
  rw [List.range_add, List.map_append, List.map_map]
  congr 1
  refine List.map_congr_left fun i _ => ?_
  simp [Nat.add_assoc]

theorem slice_overlay_self (f : ℕ → α) (p : ℕ) (l : List α) :
    slice (overlay f p l) p l.length = l := by
  refine List.ext_getElem (by simp) fun i h1 h2 => ?_
  rw [slice_getElem, overlay_of_mem h2]

theorem slice_take (f : ℕ → α) (p : ℕ) {j k : ℕ} (h : j ≤ k) :
    (slice f p k).take j = slice f p j := by
  obtain ⟨i, rfl⟩ := Nat.exists_eq_add_of_le h
  rw [slice_add, List.take_append_of_le_length (by simp), List.take_of_length_le (by simp)]

theorem slice_drop (f : ℕ → α) (p j k : ℕ) : (slice f p k).drop j = slice f (p + j) (k - j) := by
  rcases Nat.le_total j k with h | h
  · obtain ⟨i, rfl⟩ := Nat.exists_eq_add_of_le h
    rw [slice_add, List.drop_left' (by simp), Nat.add_sub_cancel_left]
  · rw [List.drop_eq_nil_of_le (by simpa using h), Nat.sub_eq_zero_of_le h, slice_zero]

/-- Laying a list over the first `len` values, as an operation on lists. -/
theorem slice_overlay (f : ℕ → α) {p len : ℕ} (l : List α) (hp : p ≤ len) :
    slice (overlay f p l) 0 (max len (p + l.length)) =
      (slice f 0 len).take p ++ l ++ (slice f 0 len).drop (p + l.length) := by
  have hmax : max len (p + l.length) = p + l.length + (len - (p + l.length)) := by omega
  have hlow : slice (overlay f p l) 0 p = slice f 0 p :=
    slice_congr fun q _ hq => overlay_of_lt (by omega)
  have hhigh : ∀ k, slice (overlay f p l) (p + l.length) k = slice f (p + l.length) k :=
    fun _ => slice_congr fun q hq _ => overlay_of_ge hq
  rw [hmax, slice_add, slice_add, slice_take f 0 hp, slice_drop, Nat.zero_add, Nat.zero_add,
    slice_overlay_self, hlow, hhigh]

/-! ### Records -/

variable {n : ℕ} [NeZero n]

/-- Cell `i` of a record, where `i` counts modulo the length. -/
def cellOf (d : Fin n → α) (i : ℕ) : α := d (Fin.ofNat n i)

theorem cellOf_val (d : Fin n → α) (i : Fin n) : cellOf d i = d i := by
  unfold cellOf
  congr 1
  exact Fin.ext (Nat.mod_eq_of_lt i.isLt)

theorem cellOf_fun (f : ℕ → α) {i : ℕ} (h : i < n) : cellOf (fun j : Fin n => f j) i = f i := by
  unfold cellOf
  exact congrArg f (Nat.mod_eq_of_lt h)

/-- The record with `l` from its cell `off` on. -/
def paste (d : Fin n → α) (off : ℕ) (l : List α) : Fin n → α :=
  fun i => overlay (cellOf d) off l i

theorem cellOf_paste (d : Fin n → α) (off : ℕ) (l : List α) {i : ℕ} (h : i < n) :
    cellOf (paste d off l) i = overlay (cellOf d) off l i := cellOf_fun _ h

/-- Cell `p` of a store. -/
def cell (fill : α) (store : ℕ → Option (Fin n → α)) (p : ℕ) : α :=
  cellOf ((store (p / n)).getD fun _ => fill) (p % n)

/-- Inside one record the cells of the store are those of the record. -/
theorem slice_cell_of_record {fill : α} {store : ℕ → Option (Fin n → α)} {p k : ℕ} {d : Fin n → α}
    (hd : store (p / n) = some d) (hk : p % n + k ≤ n) :
    slice (cell fill store) p k = slice (cellOf d) (p % n) k := by
  refine List.map_congr_left fun i hi => ?_
  have hi := List.mem_range.mp hi
  have hn : 0 < n := Nat.pos_of_ne_zero (NeZero.ne n)
  have hdiv : (p + i) / n = p / n := by
    rw [Nat.div_eq_iff hn]
    have := Nat.div_add_mod p n
    have hmul : p / n * n = n * (p / n) := Nat.mul_comm _ _
    omega
  have hmod : (p + i) % n = p % n + i := by
    have h1 := Nat.div_add_mod p n
    have h2 := Nat.div_add_mod (p + i) n
    rw [hdiv] at h2
    omega
  unfold cell
  rw [hdiv, hd, hmod]
  rfl

/-- Putting back a record with a part changed. -/
theorem cell_of_paste {fill : α} {store store' : ℕ → Option (Fin n → α)} {p : ℕ} {l : List α}
    (hl : p % n + l.length ≤ n)
    (hself : store' (p / n) = some (paste ((store (p / n)).getD fun _ => fill) (p % n) l))
    (hother : ∀ r, r ≠ p / n → store' r = store r) :
    cell fill store' = overlay (cell fill store) p l := by
  have hn : 0 < n := Nat.pos_of_ne_zero (NeZero.ne n)
  have hp := Nat.div_add_mod p n
  funext q
  have hq := Nat.div_add_mod q n
  have hqn := Nat.mod_lt q hn
  by_cases hr : q / n = p / n
  · have hcell : cell fill store' q =
        overlay (cellOf ((store (p / n)).getD fun _ => fill)) (p % n) l (q % n) := by
      unfold cell
      rw [hr, hself]
      exact cellOf_paste _ _ _ hqn
    rw [hr] at hq
    rw [hcell]
    by_cases h1 : q < p
    · rw [overlay_of_lt h1, overlay_of_lt (by omega)]
      unfold cell
      rw [hr]
    · by_cases h2 : q < p + l.length
      · obtain ⟨i, rfl⟩ : ∃ i, q = p + i := ⟨q - p, by omega⟩
        rw [overlay_of_mem (by omega), show (p + i) % n = p % n + i by omega,
          overlay_of_mem (by omega)]
      · rw [overlay_of_ge (by omega), overlay_of_ge (by omega)]
        unfold cell
        rw [hr]
  · have hcell : cell fill store' q = cell fill store q := by
      unfold cell
      rw [hother _ hr]
    rw [hcell]
    rcases Nat.lt_or_ge (q / n) (p / n) with h | h
    · rw [overlay_of_lt]
      have := Nat.mul_le_mul_left n (show q / n + 1 ≤ p / n by omega)
      rw [Nat.mul_add] at this
      omega
    · rw [overlay_of_ge]
      have := Nat.mul_le_mul_left n (show p / n + 1 ≤ q / n by omega)
      rw [Nat.mul_add] at this
      omega

end OpenWatcom
