import Mathlib.Data.List.TakeWhile
import Mathlib.Tactic.Common

/-! # Glob patterns for padded names

A pattern is a list of signs: `star` matches the rest of a name, `any` one character or the padding
behind its end, and every other sign the characters that are `same` as it.  A name is padded with `pad`,
so a name matches a pattern that ends with it or goes on with signs that match the padding.

`glob_take_iff` is what is lost when a pattern is cut to the width of its field, and
`glob_take_iff_forall` compares place by place with a field, as a search through a directory does. -/

namespace OpenWatcom.Globs

variable {α β : Type*}

/-- The pattern matches the name. -/
def Glob (star any : α) (pad : β) (same : α → β → Prop) : List α → List β → Prop
  | [], name => name = []
  | c :: p, name =>
    c = star ∨ (c = any ∨ same c (name.headD pad)) ∧ Glob star any pad same p name.tail

variable {star any : α} {pad : β} {same same' : α → β → Prop}

theorem glob_nil {name : List β} : Glob star any pad same [] name ↔ name = [] := Iff.rfl

theorem glob_cons {c : α} {p : List α} {name : List β} (hc : c ≠ star) :
    Glob star any pad same (c :: p) name ↔
      (c = any ∨ same c (name.headD pad)) ∧ Glob star any pad same p name.tail := by
  rw [Glob, or_iff_right hc]

theorem glob_star {p : List α} {name : List β} : Glob star any pad same (star :: p) name :=
  .inl rfl

variable [DecidableEq α]

/-- The sign that a field has in place `k`; behind a star it is `any`, behind the end `none`. -/
def signAt (star any : α) : List α → ℕ → Option α
  | [], _ => none
  | c :: p, k => if c = star then some any else match k with
    | 0 => some c
    | k + 1 => signAt star any p k

theorem signAt_star (p : List α) (k : ℕ) : signAt star any (star :: p) k = some any := by
  cases k <;> simp [signAt]

theorem signAt_zero {c : α} (p : List α) (hc : c ≠ star) : signAt star any (c :: p) 0 = some c := by
  simp [signAt, hc]

theorem signAt_succ {c : α} (p : List α) (k : ℕ) (hc : c ≠ star) :
    signAt star any (c :: p) (k + 1) = signAt star any p k := by
  simp [signAt, hc]

/-- Padding alone is matched by signs that match padding, up to the first star. -/
theorem glob_empty_iff : ∀ p : List α, Glob star any pad same p [] ↔
    ∀ c ∈ p.takeWhile (· ≠ star), c = any ∨ same c pad
  | [] => by simp [glob_nil]
  | c :: p => by
      by_cases hc : c = star
      · subst hc
        simp [glob_star]
      · have ih := glob_empty_iff p
        rw [glob_cons hc, List.takeWhile_cons_of_pos (by simpa using hc), List.forall_mem_cons]
        exact and_congr Iff.rfl ih

/-- A name of at most `w` characters matches a pattern when it matches its first `w` signs and the
others, up to the first star, match padding. -/
theorem glob_take_iff : ∀ (p : List α) (w : ℕ) (name : List β), name.length ≤ w →
    (Glob star any pad same p name ↔
      Glob star any pad same (p.take w) name ∧
        ∀ c ∈ (p.takeWhile (· ≠ star)).drop w, c = any ∨ same c pad)
  | p, 0, name, h => by
      obtain rfl := List.length_eq_zero_iff.mp (Nat.le_zero.mp h)
      rw [glob_empty_iff, List.take_zero, List.drop_zero]
      exact (and_iff_right rfl).symm
  | [], w + 1, name, h => by simp
  | c :: p, w + 1, name, h => by
      by_cases hc : c = star
      · subst hc
        simp [glob_star]
      · have ih := glob_take_iff p w name.tail (by rw [List.length_tail]; omega)
        rw [List.take_succ_cons, glob_cons hc, glob_cons hc,
          List.takeWhile_cons_of_pos (by simpa using hc), List.drop_succ_cons, ih, and_assoc]

/-- The first `w` signs match a name of at most `w` characters, none of them padding, when every place of
the field does. -/
theorem glob_take_iff_forall : ∀ (p : List α) (w : ℕ) (name : List β), name.length ≤ w →
    (∀ x ∈ name, x ≠ pad) →
    (Glob star any pad same (p.take w) name ↔
      ∀ k < w, match signAt star any p k with
        | none => (name[k]?).getD pad = pad
        | some c => c = any ∨ same c ((name[k]?).getD pad))
  | p, 0, name, h, _ => by
      obtain rfl := List.length_eq_zero_iff.mp (Nat.le_zero.mp h)
      simp [glob_nil]
  | [], w + 1, name, h, hpad => by
      rw [List.take_nil, glob_nil]
      constructor
      · rintro rfl k _
        rfl
      · intro hall
        cases name with
        | nil => rfl
        | cons x name => exact absurd (hall 0 w.succ_pos) (hpad x List.mem_cons_self)
  | c :: p, w + 1, name, h, hpad => by
      by_cases hc : c = star
      · subst hc
        simp [glob_star, signAt_star]
      · have ih := glob_take_iff_forall p w name.tail (by rw [List.length_tail]; omega)
          fun x hx => hpad x (List.mem_of_mem_tail hx)
        rw [List.take_succ_cons, glob_cons hc, ih]
        constructor
        · rintro ⟨hhead, htail⟩ k hk
          cases k with
          | zero =>
              cases name <;> simpa [signAt, hc] using hhead
          | succ k =>
              have := htail k (Nat.lt_of_succ_lt_succ hk)
              simpa [signAt, hc] using this
        · intro hall
          constructor
          · have := hall 0 w.succ_pos
            cases name <;> simpa [signAt, hc] using this
          · intro k hk
            have := hall (k + 1) (Nat.succ_lt_succ hk)
            simpa [signAt, hc] using this

/-- What the signs mean may change where they do not take part in a match. -/
theorem Glob.mono : ∀ {p : List α} {name : List β},
    (∀ c ∈ p.takeWhile (· ≠ star), c ≠ any → ∀ x ∈ pad :: name, same c x → same' c x) →
    Glob star any pad same p name → Glob star any pad same' p name
  | [], _, _, h => h
  | c :: p, name, hsame, h => by
      by_cases hc : c = star
      · exact .inl hc
      · rw [glob_cons hc] at h ⊢
        rw [List.takeWhile_cons_of_pos (by simpa using hc)] at hsame
        obtain ⟨hhead, htail⟩ := h
        constructor
        · obtain hany | hhead := hhead
          · exact .inl hany
          · by_cases hany : c = any
            · exact .inl hany
            · apply Or.inr
              apply hsame c List.mem_cons_self hany _ _ hhead
              cases name <;> simp
        · apply Glob.mono _ htail
          intro d hd hany x hx
          apply hsame d (List.mem_cons_of_mem _ hd) hany x
          obtain rfl | hx := List.mem_cons.mp hx
          · exact List.mem_cons_self
          · exact List.mem_cons_of_mem _ (List.mem_of_mem_tail hx)

/-- Every sign up to the first star matches a character of the name or the padding. -/
theorem Glob.sign : ∀ {p : List α} {name : List β}, Glob star any pad same p name →
    ∀ c ∈ p.takeWhile (· ≠ star), c = any ∨ ∃ x ∈ pad :: name, same c x
  | [], _, _ => by simp
  | c :: p, name, h => by
      by_cases hc : c = star
      · subst hc
        simp
      · rw [glob_cons hc] at h
        rw [List.takeWhile_cons_of_pos (by simpa using hc), List.forall_mem_cons]
        constructor
        · apply h.1.imp_right
          intro hhead
          refine ⟨_, ?_, hhead⟩
          cases name <;> simp
        · intro d hd
          apply (Glob.sign h.2 d hd).imp_right
          rintro ⟨x, hx, hsame⟩
          refine ⟨x, ?_, hsame⟩
          obtain rfl | hx := List.mem_cons.mp hx
          · exact List.mem_cons_self
          · exact List.mem_cons_of_mem _ (List.mem_of_mem_tail hx)

end OpenWatcom.Globs
