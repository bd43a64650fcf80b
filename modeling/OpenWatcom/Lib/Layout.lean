import Mathlib.Tactic

/-! # Writing extents to a growing file

A writer that only appends: an *extent* has a position and contents, and `put` fills the gap
between the end of the file and the position before it appends the contents.  The *spans* of
the extents, their starts and stops, say where they go; `Ascending n spans` says that each starts at
or after the length `n` the file has by then.

* `putAll_eq_append`: what the file had stays;
* `putAll_length`: the file ends where the last extent ends;
* `putAll_getElem?_of_mem`: the contents are found at their positions;
* `putAll_getElem?_of_gap`: everything else that was written is fill. -/

namespace OpenWatcom

/-- Contents with the position they are to be written at. -/
structure Extent (α : Type) where
  start : ℕ
  bytes : List α

namespace Extent

/-! ### Spans -/

/-- Every span starts at or after the stop of the one before it, the first one at or after `n`, and
none stops before it starts. -/
def Ascending : ℕ → List (ℕ × ℕ) → Prop
  | _, [] => True
  | n, s :: spans => n ≤ s.1 ∧ s.1 ≤ s.2 ∧ Ascending s.2 spans

instance decAscending : ∀ (n : ℕ) (spans : List (ℕ × ℕ)), Decidable (Ascending n spans)
  | _, [] => inferInstanceAs (Decidable True)
  | n, s :: spans =>
    have := decAscending s.2 spans
    inferInstanceAs (Decidable (n ≤ s.1 ∧ s.1 ≤ s.2 ∧ Ascending s.2 spans))

/-- Where a file of length `n` ends after extents with these spans. -/
def finish (n : ℕ) : List (ℕ × ℕ) → ℕ
  | [] => n
  | s :: spans => finish s.2 spans

@[simp] theorem finish_nil (n : ℕ) : finish n [] = n := rfl

@[simp] theorem finish_cons (n : ℕ) (s : ℕ × ℕ) (spans : List (ℕ × ℕ)) :
    finish n (s :: spans) = finish s.2 spans := rfl

theorem Ascending.le_finish : ∀ {n : ℕ} {spans : List (ℕ × ℕ)}, Ascending n spans →
    n ≤ finish n spans
  | _, [], _ => le_rfl
  | n, s :: spans, h => by
      have h1 := h.1
      have h2 := h.2.1
      have h3 := h.2.2.le_finish
      rw [finish_cons]
      omega

theorem Ascending.bounds : ∀ {n : ℕ} {spans : List (ℕ × ℕ)}, Ascending n spans →
    ∀ s ∈ spans, n ≤ s.1 ∧ s.1 ≤ s.2 ∧ s.2 ≤ finish n spans
  | n, a :: spans, h, s, hs => by
      rcases List.mem_cons.mp hs with rfl | hs
      · exact ⟨h.1, h.2.1, h.2.2.le_finish⟩
      · have h1 := h.1
        have h2 := h.2.1
        have h3 := h.2.2.bounds s hs
        rw [finish_cons]
        omega

/-- Some span stops at the end, unless there is none. -/
theorem exists_stop_eq_finish : ∀ (n : ℕ) (spans : List (ℕ × ℕ)), spans ≠ [] →
    ∃ s ∈ spans, s.2 = finish n spans
  | _, [s], _ => ⟨s, by simp, rfl⟩
  | _, s :: t :: spans, _ => by
      obtain ⟨u, hu, hfin⟩ := exists_stop_eq_finish s.2 (t :: spans) (by simp)
      exact ⟨u, List.mem_cons_of_mem _ hu, hfin⟩

/-- Two ascending spans with a common position are the same span, or one is after the other. -/
theorem Ascending.pairwise : ∀ {n : ℕ} {spans : List (ℕ × ℕ)}, Ascending n spans →
    spans.Pairwise fun a b => a.2 ≤ b.1
  | _, [], _ => List.Pairwise.nil
  | _, _ :: _, h => List.pairwise_cons.mpr
      ⟨fun b hb => (h.2.2.bounds b hb).1, h.2.2.pairwise⟩

theorem Ascending.mono {m n : ℕ} (hmn : m ≤ n) : ∀ {spans : List (ℕ × ℕ)}, Ascending n spans →
    Ascending m spans
  | [], _ => trivial
  | _ :: _, h => ⟨hmn.trans h.1, h.2⟩

/-- Leaving out spans keeps the order. -/
theorem Ascending.sublist : ∀ {n : ℕ} {spans sub : List (ℕ × ℕ)}, sub.Sublist spans →
    Ascending n spans → Ascending n sub
  | _, _, _, .slnil, _ => trivial
  | _, _, _, .cons _ h, ha => (ha.2.2.sublist h).mono (ha.1.trans ha.2.1)
  | _, _, _, .cons_cons _ h, ha => ⟨ha.1, ha.2.1, ha.2.2.sublist h⟩

/-! ### Writing -/

variable {α : Type}

/-- One past the last position. -/
def stop (e : Extent α) : ℕ := e.start + e.bytes.length

def span (e : Extent α) : ℕ × ℕ := (e.start, e.stop)

/-- Pad to the position of the extent and append it. -/
def put (fill : α) (file : List α) (e : Extent α) : List α :=
  file ++ List.replicate (e.start - file.length) fill ++ e.bytes

/-- All the extents, in order. -/
def putAll (fill : α) (file : List α) (es : List (Extent α)) : List α := es.foldl (put fill) file

@[simp] theorem putAll_nil (fill : α) (file : List α) : putAll fill file [] = file := rfl

@[simp] theorem putAll_cons (fill : α) (file : List α) (e : Extent α) (es : List (Extent α)) :
    putAll fill file (e :: es) = putAll fill (put fill file e) es := rfl

theorem put_length (fill : α) {file : List α} {e : Extent α} (h : file.length ≤ e.start) :
    (put fill file e).length = e.stop := by
  simp only [put, stop, List.length_append, List.length_replicate]
  omega

theorem putAll_eq_append (fill : α) :
    ∀ (file : List α) (es : List (Extent α)), ∃ tail, putAll fill file es = file ++ tail
  | file, [] => ⟨[], by simp⟩
  | file, e :: es => by
      obtain ⟨tail, h⟩ := putAll_eq_append fill (put fill file e) es
      refine ⟨List.replicate (e.start - file.length) fill ++ e.bytes ++ tail, ?_⟩
      rw [putAll_cons, h, put]
      simp

theorem putAll_length (fill : α) : ∀ (file : List α) (es : List (Extent α)),
    Ascending file.length (es.map span) →
      (putAll fill file es).length = finish file.length (es.map span)
  | file, [], _ => rfl
  | file, e :: es, h => by
      have hl := put_length fill h.1
      rw [putAll_cons, putAll_length fill _ es (by rw [hl]; exact h.2.2), hl]
      rfl

/-- What was in the file is still there. -/
theorem putAll_getElem?_of_lt (fill : α) (file : List α) (es : List (Extent α)) {p : ℕ}
    (hp : p < file.length) : (putAll fill file es)[p]? = file[p]? := by
  obtain ⟨tail, h⟩ := putAll_eq_append fill file es
  rw [h, List.getElem?_append_left hp]

/-- The contents of each extent are at its position. -/
theorem putAll_getElem?_of_mem (fill : α) : ∀ (file : List α) (es : List (Extent α)),
    Ascending file.length (es.map span) → ∀ e ∈ es, ∀ i < e.bytes.length,
      (putAll fill file es)[e.start + i]? = e.bytes[i]?
  | file, a :: es, h, e, he, i, hi => by
      have hl := put_length fill h.1
      rcases List.mem_cons.mp he with rfl | he
      · rw [putAll_cons, putAll_getElem?_of_lt fill _ es (by rw [hl, stop]; omega), put,
          List.getElem?_append_right (by simp; have := h.1; simp only [span] at this; omega)]
        congr 1
        have := h.1
        simp only [span] at this
        simp
        omega
      · exact putAll_getElem?_of_mem fill _ es (by rw [hl]; exact h.2.2) e he i hi

/-- Between the extents there is fill. -/
theorem putAll_getElem?_of_gap (fill : α) : ∀ (file : List α) (es : List (Extent α)),
    Ascending file.length (es.map span) → ∀ p, file.length ≤ p →
      p < finish file.length (es.map span) → (∀ e ∈ es, p < e.start ∨ e.stop ≤ p) →
      (putAll fill file es)[p]? = some fill
  | file, [], _, p, h1, h2, _ => by
      rw [List.map_nil, finish_nil] at h2
      omega
  | file, a :: es, h, p, h1, h2, hno => by
      have hl := put_length fill h.1
      rcases hno a List.mem_cons_self with hp | hp
      · rw [putAll_cons, putAll_getElem?_of_lt fill _ es (by
            rw [hl]
            exact hp.trans_le (Nat.le_add_right _ _)), put,
          List.getElem?_append_left (by simp; omega), List.getElem?_append_right h1,
          List.getElem?_replicate]
        exact if_pos (by omega)
      · refine putAll_getElem?_of_gap fill _ es (by rw [hl]; exact h.2.2) p (by rw [hl]; exact hp) ?_
          fun e he => hno e (List.mem_cons_of_mem _ he)
        rw [hl]
        exact h2

/-- The same contents, `n` further on. -/
def shift (n : ℕ) (e : Extent α) : Extent α := { e with start := n + e.start }

/-- What is written does not depend on where the file ends, if the positions are relative to it. -/
theorem putAll_shift (fill : α) (file : List α) : ∀ (es : List (Extent α)) (out : List α),
    putAll fill (file ++ out) (es.map (shift file.length)) = file ++ putAll fill out es
  | [], _ => rfl
  | e :: es, out => by
      rw [List.map_cons, putAll_cons, putAll_cons, ← putAll_shift fill file es]
      congr 1
      simp only [put, shift, List.length_append, List.append_assoc]
      rw [Nat.add_sub_add_left]

/-- Contents that are fill leave nothing but fill. -/
theorem putAll_of_fill (fill : α) : ∀ (file : List α) (es : List (Extent α)),
    (∀ e ∈ es, ∀ b ∈ e.bytes, b = fill) → ∃ n, putAll fill file es = file ++ List.replicate n fill
  | file, [], _ => ⟨0, by simp⟩
  | file, e :: es, h => by
      obtain ⟨n, hn⟩ := putAll_of_fill fill (put fill file e) es
        fun e' he => h e' (List.mem_cons_of_mem _ he)
      have hb : e.bytes = List.replicate e.bytes.length fill :=
        List.eq_replicate_of_mem (h e List.mem_cons_self)
      refine ⟨(e.start - file.length) + e.bytes.length + n, ?_⟩
      rw [putAll_cons, hn, put, hb]
      simp only [List.append_assoc, List.replicate_append_replicate, List.length_replicate,
        Nat.add_assoc]

end Extent
end OpenWatcom
