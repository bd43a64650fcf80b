import Mathlib.Tactic

/-! # Linear code with forward jumps

The shape of the code a code generator emits for a decision: conditional and
unconditional jumps, either to a *final* label of type `L` or to a *local* label
numbered by a natural number, and the definitions of the local labels.  The tests
`T` are abstract; `exec holds` runs a code on a valuation `holds` of the tests.

A jump to a local label is a search forward in the rest of the code.  That is the
meaning of a jump when every local label is defined once and after the jumps to
it; `Fresh` says the first half, and `exec_search_append` that a search passes over
code that does not define the label it looks for. -/

namespace OpenWatcom
namespace ForwardCode

/-- Where a jump goes: a label of the surrounding program or a local one. -/
inductive Target (L : Type) where
  | final (l : L)
  | here (n : ℕ)
  deriving DecidableEq, Repr

/-- One element of linear code. -/
inductive Instr (T L : Type) where
  | jump (l : Option (Target L))
  | ifTrue (t : T) (l : Target L)
  | label (n : ℕ)
  deriving DecidableEq, Repr

variable {T L : Type}

/-! ### Local labels -/

/-- The local labels a piece of code defines, in order. -/
def labels : List (Instr T L) → List ℕ
  | [] => []
  | .label n :: rest => n :: labels rest
  | .jump _ :: rest => labels rest
  | .ifTrue _ _ :: rest => labels rest

@[simp] theorem labels_nil : labels ([] : List (Instr T L)) = [] := rfl

@[simp] theorem labels_label (n : ℕ) (c : List (Instr T L)) :
    labels (.label n :: c) = n :: labels c := rfl

@[simp] theorem labels_jump (l : Option (Target L)) (c : List (Instr T L)) :
    labels (.jump l :: c) = labels c := rfl

@[simp] theorem labels_ifTrue (t : T) (l : Target L) (c : List (Instr T L)) :
    labels (.ifTrue t l :: c) = labels c := rfl

@[simp] theorem labels_append : ∀ c d : List (Instr T L), labels (c ++ d) = labels c ++ labels d
  | [], _ => rfl
  | .label n :: c, d => by simp [labels_append c d]
  | .jump _ :: c, d => by simp [labels_append c d]
  | .ifTrue _ _ :: c, d => by simp [labels_append c d]

/-- The code defines its local labels once each, all of them from `lo` up to `hi`. -/
def Fresh (lo hi : ℕ) (c : List (Instr T L)) : Prop :=
  lo ≤ hi ∧ (labels c).Nodup ∧ ∀ n ∈ labels c, lo ≤ n ∧ n < hi

theorem Fresh.of_labels_nil {c : List (Instr T L)} (h : labels c = []) (n : ℕ) : Fresh n n c :=
  ⟨le_rfl, by simp [h], by simp [h]⟩

/-- Code with no labels in front does not matter. -/
theorem Fresh.cons_of_labels_nil {lo hi : ℕ} {p c : List (Instr T L)} (hp : labels p = [])
    (hc : Fresh lo hi c) : Fresh lo hi (p ++ c) := by
  simpa [Fresh, hp] using hc

/-- A label taken from the counter, then two pieces of code drawing on it one after the other:
the pattern *first branch, label, second branch*. -/
theorem Fresh.branch {lo mid hi : ℕ} {c d : List (Instr T L)} (hc : Fresh (lo + 1) mid c)
    (hd : Fresh mid hi d) : Fresh lo hi (c ++ .label lo :: d) := by
  obtain ⟨hcle, hcn, hcr⟩ := hc
  obtain ⟨hdle, hdn, hdr⟩ := hd
  refine ⟨by omega, ?_, ?_⟩
  · rw [labels_append, labels_label, List.nodup_append]
    refine ⟨hcn, ?_, ?_⟩
    · refine List.nodup_cons.mpr ⟨fun h => ?_, hdn⟩
      have := hdr lo h
      omega
    · intro a ha b hb
      have := hcr a ha
      rcases List.mem_cons.mp hb with rfl | hb
      · omega
      · have := hdr b hb
        omega
  · intro n hn
    rw [labels_append, labels_label, List.mem_append, List.mem_cons] at hn
    rcases hn with hn | rfl | hn
    · have := hcr n hn
      omega
    · omega
    · have := hdr n hn
      omega

theorem Fresh.notMem {lo hi n : ℕ} {c : List (Instr T L)} (h : Fresh lo hi c) (hn : n < lo) :
    n ∉ labels c := by
  intro hm
  have := h.2.2 n hm
  omega

/-! ### Execution -/

/-- Run the code: the final label reached, or `none` when control runs off the end or
takes a jump that has no label.  `some n` is a pending search for the local label `n`. -/
def exec (holds : T → Bool) : Option ℕ → List (Instr T L) → Option L
  | _, [] => none
  | some n, .label m :: rest => if m = n then exec holds none rest else exec holds (some n) rest
  | some n, .jump _ :: rest => exec holds (some n) rest
  | some n, .ifTrue _ _ :: rest => exec holds (some n) rest
  | none, .label _ :: rest => exec holds none rest
  | none, .jump none :: _ => none
  | none, .jump (some (.final l)) :: _ => some l
  | none, .jump (some (.here n)) :: rest => exec holds (some n) rest
  | none, .ifTrue t (.final l) :: rest => if holds t then some l else exec holds none rest
  | none, .ifTrue t (.here n) :: rest => if holds t then exec holds (some n) rest
      else exec holds none rest

variable (holds : T → Bool)

@[simp] theorem exec_nil (s : Option ℕ) : exec holds s ([] : List (Instr T L)) = none := by
  cases s <;> rfl

@[simp] theorem exec_jump_none (rest : List (Instr T L)) :
    exec holds none (.jump none :: rest) = none := rfl

@[simp] theorem exec_jump_final (l : L) (rest : List (Instr T L)) :
    exec holds none (.jump (some (.final l)) :: rest) = some l := rfl

@[simp] theorem exec_jump_here (n : ℕ) (rest : List (Instr T L)) :
    exec holds none (.jump (some (.here n)) :: rest) = exec holds (some n) rest := rfl

@[simp] theorem exec_ifTrue_final (t : T) (l : L) (rest : List (Instr T L)) :
    exec holds none (.ifTrue t (.final l) :: rest) =
      if holds t then some l else exec holds none rest := rfl

@[simp] theorem exec_ifTrue_here (t : T) (n : ℕ) (rest : List (Instr T L)) :
    exec holds none (.ifTrue t (.here n) :: rest) =
      if holds t then exec holds (some n) rest else exec holds none rest := rfl

@[simp] theorem exec_label (n : ℕ) (rest : List (Instr T L)) :
    exec holds none (.label n :: rest) = exec holds none rest := rfl

@[simp] theorem exec_search_jump (n : ℕ) (l : Option (Target L)) (rest : List (Instr T L)) :
    exec holds (some n) (.jump l :: rest) = exec holds (some n) rest := rfl

@[simp] theorem exec_search_ifTrue (n : ℕ) (t : T) (l : Target L) (rest : List (Instr T L)) :
    exec holds (some n) (.ifTrue t l :: rest) = exec holds (some n) rest := rfl

@[simp] theorem exec_search_label (n : ℕ) (rest : List (Instr T L)) :
    exec holds (some n) (.label n :: rest) = exec holds none rest := by
  simp [exec]

/-- A search passes over code that does not define the label. -/
theorem exec_search_append (n : ℕ) (rest : List (Instr T L)) :
    ∀ c : List (Instr T L), n ∉ labels c →
      exec holds (some n) (c ++ rest) = exec holds (some n) rest
  | [], _ => rfl
  | .label m :: c, h => by
      rw [labels_label, List.mem_cons, not_or] at h
      simp only [List.cons_append, exec, if_neg (Ne.symm h.1)]
      exact exec_search_append n rest c h.2
  | .jump _ :: c, h => exec_search_append n rest c h
  | .ifTrue _ _ :: c, h => exec_search_append n rest c h

end ForwardCode
end OpenWatcom
