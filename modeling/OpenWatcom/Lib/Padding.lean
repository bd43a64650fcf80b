import Mathlib.Data.List.TakeWhile
import OpenWatcom.Lib.Records

/-! # Texts in records

A text is kept in records of `n` cells, and behind its end the last record is padded with a filler.  The end can be
found from two sides: `PaddedFrom` looks back from the end of the last record, and `text` ahead to the first
filler.  `PaddedFrom.append` and `text_append_iff` are about a list that is laid over the cells from the end
on.

Nothing here is about a particular filler or length. -/

namespace OpenWatcom

variable {α : Type*} {n : ℕ} {fill : α} {f : ℕ → α} {size p : ℕ}

/-- In the last of `size` records the filler begins at `p`. -/
structure PaddedFrom (n : ℕ) (fill : α) (f : ℕ → α) (size p : ℕ) : Prop where
  low : n * (size - 1) ≤ p
  high : p ≤ n * size
  pad : ∀ q, p ≤ q → q < n * size → f q = fill
  last : p = n * (size - 1) ∨ f (p - 1) ≠ fill

namespace PaddedFrom

/-- A list that does not end with the filler moves the place to its end. -/
theorem append (h : PaddedFrom n fill f size p) (hn : 0 < n) (hbeyond : ∀ q, n * size ≤ q → f q = fill)
    {l : List α} (hl : l ≠ []) (hlast : l.getLast hl ≠ fill) :
    PaddedFrom n fill (overlay f p l) (max size ((p + l.length - 1) / n + 1)) (p + l.length) := by
  have hlen := List.length_pos_of_ne_nil hl
  have hlow := h.low
  -- The last cell of the list is in the last record.
  have hsize : max size ((p + l.length - 1) / n + 1) = (p + l.length - 1) / n + 1 := by
    apply Nat.max_eq_right
    have hrecord : size - 1 ≤ (p + l.length - 1) / n := by
      rw [Nat.le_div_iff_mul_le hn, Nat.mul_comm]
      omega
    omega
  have hdiv := Nat.div_add_mod (p + l.length - 1) n
  have hmod := Nat.mod_lt (p + l.length - 1) hn
  rw [hsize]
  generalize (p + l.length - 1) / n = r at hdiv
  have hup : n * (r + 1) = n * r + n := Nat.mul_succ n r
  constructor
  · rw [Nat.add_sub_cancel]
    omega
  · omega
  · intro q hq _
    rw [overlay_of_ge hq]
    obtain hin | hout := Nat.lt_or_ge q (n * size)
    · exact h.pad q (by omega) hin
    · exact hbeyond q hout
  · apply Or.inr
    have hplace : p + l.length - 1 = p + (l.length - 1) := by omega
    rw [hplace, overlay_of_mem (by omega), ← List.getLast_eq_getElem hl]
    exact hlast

end PaddedFrom

section text

variable [DecidableEq α]

/-- What is in front of the first filler. -/
def text (fill : α) (l : List α) : List α := l.takeWhile (· ≠ fill)

theorem text_eq_self_iff {l : List α} : text fill l = l ↔ fill ∉ l := by
  unfold text
  rw [List.takeWhile_eq_self_iff]
  constructor
  · intro h hmem
    simpa using h fill hmem
  · intro h x hx
    have hne : x ≠ fill := fun heq => h (heq ▸ hx)
    simpa using hne

theorem text_append_of_mem {l m : List α} (h : fill ∈ l) : text fill (l ++ m) = text fill l := by
  unfold text
  rw [List.takeWhile_append, if_neg]
  intro hlen
  have hall := (List.takeWhile_prefix (l := l) (fun x => decide (x ≠ fill))).eq_of_length hlen
  exact text_eq_self_iff.mp hall h

theorem text_append_of_notMem {l m : List α} (h : fill ∉ l) : text fill (l ++ m) = l ++ text fill m := by
  have hall : l.takeWhile (fun x => decide (x ≠ fill)) = l := text_eq_self_iff.mpr h
  unfold text
  rw [List.takeWhile_append, hall, if_pos rfl]

/-- The text is in front of the place where the padding begins. -/
theorem PaddedFrom.text (h : PaddedFrom n fill f size p) :
    text fill (slice f 0 (n * size)) = text fill (slice f 0 p) := by
  obtain ⟨j, hj⟩ := Nat.exists_eq_add_of_le h.high
  rw [hj, slice_add, Nat.zero_add]
  by_cases hmem : fill ∈ slice f 0 p
  · exact text_append_of_mem hmem
  · have hpad : OpenWatcom.text fill (slice f p j) = [] := by
      cases j with
      | zero => rfl
      | succ j =>
          rw [Nat.add_comm, slice_add]
          have hfill : f p = fill := h.pad p (Nat.le_refl p) (by omega)
          unfold OpenWatcom.text
          simp [slice, hfill]
    rw [text_append_of_notMem hmem, hpad, List.append_nil, text_eq_self_iff.mpr hmem]

/-- A list without the filler joins the text exactly if there is no filler in front of it. -/
theorem text_append_iff {l m : List α} (hm : fill ∉ m) :
    text fill (l ++ m) = text fill l ++ m ↔ m = [] ∨ fill ∉ l := by
  constructor
  · intro h
    by_contra hno
    obtain ⟨hne, hmem⟩ := not_or.mp hno
    rw [text_append_of_mem (not_not.mp hmem)] at h
    exact hne (List.self_eq_append_right.mp h)
  · rintro (rfl | hl)
    · rw [List.append_nil, List.append_nil]
    · rw [text_append_of_notMem hl, text_eq_self_iff.mpr hl, text_eq_self_iff.mpr hm]

theorem text_append_length_le (l m : List α) : (text fill (l ++ m)).length ≤ (text fill l).length + m.length := by
  by_cases hl : fill ∈ l
  · rw [text_append_of_mem hl]
    exact Nat.le_add_right _ _
  · rw [text_append_of_notMem hl, text_eq_self_iff.mpr hl, List.length_append]
    exact Nat.add_le_add_left (List.takeWhile_prefix _).length_le _

/-- Looking at a part of what follows: the text goes on as far as it goes. -/
theorem text_take_drop {l : List α} {k m : ℕ} (hk : k ≤ (text fill l).length) :
    text fill ((l.drop k).take m) = ((text fill l).drop k).take m := by
  unfold text at hk ⊢
  induction l generalizing k m with
  | nil => simp
  | cons x l ih =>
      cases k with
      | zero =>
          rw [List.drop_zero, List.drop_zero, List.take_takeWhile]
      | succ k =>
          by_cases hx : x = fill
          · rw [List.takeWhile_cons_of_neg (by simpa using hx)] at hk
            exact absurd hk (by simp)
          · rw [List.takeWhile_cons_of_pos (by simpa using hx), List.length_cons] at hk
            rw [List.takeWhile_cons_of_pos (by simpa using hx), List.drop_succ_cons, List.drop_succ_cons]
            exact ih (by omega)

end text

end OpenWatcom
