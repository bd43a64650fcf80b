import Mathlib.Tactic

/-! # Iteration to a greatest solution

Variables hold values of a partial order, and each has an equation.  A visit of a variable replaces its value with what
its equation gives; a pass visits a list of variables and notes whether a value changed; passes are made until none
changes.

* `iterate_solves`: from values that can only get smaller the passes end, at the greatest solution below them.

The dominator equations of a graph are the case treated here: `dominators_iff` says what their greatest solution is. -/

namespace OpenWatcom.Iteration

section Passes

variable {ι α : Type*} [DecidableEq ι] [DecidableEq α] (f : ι → (ι → α) → α)

/-- A visit of a variable, and whether a value has changed so far. -/
def visit (s : (ι → α) × Bool) (i : ι) : (ι → α) × Bool :=
  (Function.update s.1 i (f i s.1), if f i s.1 = s.1 i then s.2 else true)

/-- One pass. -/
def pass (l : List ι) (σ : ι → α) : (ι → α) × Bool := l.foldl (visit f) (σ, false)

/-- Passes until none changes a value. -/
def iterate (l : List ι) : ℕ → (ι → α) → Option (ι → α)
  | 0, _ => none
  | n + 1, σ => if (pass f l σ).2 then iterate l n (pass f l σ).1 else some (pass f l σ).1

variable [PartialOrder α] {f} {l : List ι} {σ τ : ι → α} {s : (ι → α) × Bool}

/-- No equation gives more than the value. -/
def Shrinks (f : ι → (ι → α) → α) (σ : ι → α) : Prop := ∀ i, f i σ ≤ σ i

theorem Shrinks.visit_le (h : Shrinks f s.1) (i : ι) : (visit f s i).1 ≤ s.1 := by
  intro j
  obtain rfl | hne := eq_or_ne j i
  · simpa [visit] using h j
  · simp [visit, hne]

theorem Shrinks.visit (hf : ∀ i, Monotone (f i)) (h : Shrinks f s.1) (i : ι) : Shrinks f (visit f s i).1 := by
  intro j
  have hle := hf j (h.visit_le i)
  obtain rfl | hne := eq_or_ne j i
  · simpa [Iteration.visit] using hle
  · exact hle.trans (by simpa [Iteration.visit, hne] using h j)

/-- Values that their equations keep are kept below. -/
theorem le_visit (hf : ∀ i, Monotone (f i)) (hτ : ∀ i, τ i ≤ f i τ) (h : τ ≤ s.1) (i : ι) : τ ≤ (visit f s i).1 := by
  intro j
  obtain rfl | hne := eq_or_ne j i
  · simpa [visit] using (hτ j).trans (hf j h)
  · simpa [visit, hne] using h j

omit [PartialOrder α] in
/-- A visit that notes no change changes nothing. -/
theorem visit_unchanged {i : ι} (h : (visit f s i).2 = false) : visit f s i = s ∧ f i s.1 = s.1 i := by
  unfold visit at h ⊢
  split at h
  case isTrue heq =>
    refine ⟨Prod.ext ?_ (by simp [heq]), heq⟩
    simp [heq]
  case isFalse => cases h

omit [PartialOrder α] in
theorem foldl_visit_of_changed (l : List ι) (h : s.2 = true) : (l.foldl (visit f) s).2 = true := by
  induction l generalizing s with
  | nil => exact h
  | cons i l ih => exact ih (by simp [visit, h])

omit [PartialOrder α] in
theorem foldl_visit_unchanged (h : (l.foldl (visit f) s).2 = false) :
    (l.foldl (visit f) s).1 = s.1 ∧ ∀ i ∈ l, f i s.1 = s.1 i := by
  induction l generalizing s with
  | nil => exact ⟨rfl, fun i hi => by cases hi⟩
  | cons i l ih =>
      have hfirst : (visit f s i).2 = false := by
        by_contra hne
        rw [List.foldl_cons, foldl_visit_of_changed l (eq_true_of_ne_false hne)] at h
        cases h
      obtain ⟨hsame, hi⟩ := visit_unchanged hfirst
      rw [List.foldl_cons, hsame] at h ⊢
      obtain ⟨hrest, hall⟩ := ih h
      exact ⟨hrest, fun j hj => by
        obtain rfl | hj := List.mem_cons.mp hj
        · exact hi
        · exact hall j hj⟩

theorem foldl_visit_spec (hf : ∀ i, Monotone (f i)) (l : List ι) (h : Shrinks f s.1) :
    Shrinks f (l.foldl (visit f) s).1 ∧ (l.foldl (visit f) s).1 ≤ s.1 ∧
      ∀ τ, (∀ i, τ i ≤ f i τ) → τ ≤ s.1 → τ ≤ (l.foldl (visit f) s).1 := by
  induction l generalizing s with
  | nil => exact ⟨h, le_rfl, fun τ _ hτ => hτ⟩
  | cons i l ih =>
      obtain ⟨hshrinks, hle, hlower⟩ := ih (h.visit hf i)
      exact ⟨hshrinks, hle.trans (h.visit_le i), fun τ hτ hle => hlower τ hτ (le_visit hf hτ hle i)⟩

/-- A visit that newly notes a change makes the values smaller. -/
theorem foldl_visit_changed (hf : ∀ i, Monotone (f i)) (h : Shrinks f s.1) (h0 : s.2 = false)
    (hchanged : (l.foldl (visit f) s).2 = true) : (l.foldl (visit f) s).1 ≠ s.1 := by
  induction l generalizing s with
  | nil => simp [h0] at hchanged
  | cons i l ih =>
      rw [List.foldl_cons] at hchanged ⊢
      by_cases heq : f i s.1 = s.1 i
      · have hsame : visit f s i = s := Prod.ext (by simp [visit, heq]) (by simp [visit, heq])
        rw [hsame] at hchanged ⊢
        exact ih h h0 hchanged
      · intro hback
        obtain ⟨-, hle, -⟩ := foldl_visit_spec hf l (h.visit hf i)
        rw [hback] at hle
        have hval : s.1 i ≤ f i s.1 := by simpa [visit] using hle i
        exact heq (le_antisymm (h i) hval)

/-- The passes end, at values that solve the equations of the list, and every other solution is below. -/
theorem iterate_solves [WellFoundedLT (ι → α)] (hf : ∀ i, Monotone (f i)) (h : Shrinks f σ) (l : List ι) :
    ∃ τ, (∃ n, ∀ m, n ≤ m → iterate f l m σ = some τ) ∧ τ ≤ σ ∧ (∀ i ∈ l, f i τ = τ i) ∧
      ∀ υ, (∀ i, υ i ≤ f i υ) → υ ≤ σ → υ ≤ τ := by
  induction σ using WellFoundedLT.induction with
  | ind σ ih =>
      obtain ⟨hshrinks, hle, hlower⟩ := foldl_visit_spec (s := (σ, false)) hf l h
      cases hchanged : (pass f l σ).2 with
      | false =>
          obtain ⟨hsame, hall⟩ := foldl_visit_unchanged hchanged
          refine ⟨σ, ⟨1, fun m hm => ?_⟩, le_rfl, hall, fun υ _ hυ => hυ⟩
          obtain ⟨m, rfl⟩ := Nat.exists_eq_add_of_le' hm
          rw [iterate, hchanged, if_neg Bool.false_ne_true]
          exact congrArg some hsame
      | true =>
          have hne := foldl_visit_changed (s := (σ, false)) hf h rfl hchanged
          obtain ⟨τ, ⟨n, hn⟩, hτ, hall, hgreatest⟩ := ih _ (lt_of_le_of_ne hle hne) hshrinks
          refine ⟨τ, ⟨n + 1, fun m hm => ?_⟩, hτ.trans hle, hall, fun υ hυ hle' => hgreatest υ hυ (hlower υ hυ hle')⟩
          obtain ⟨m, rfl⟩ := Nat.exists_eq_add_of_le' (show 1 ≤ m by omega)
          rw [iterate, hchanged, if_pos rfl]
          exact hn m (by omega)

omit [PartialOrder α] in
theorem foldl_visit_unvisited {i : ι} (hi : i ∉ l) : (l.foldl (visit f) s).1 i = s.1 i := by
  induction l generalizing s with
  | nil => rfl
  | cons j l ih =>
      rw [List.foldl_cons, ih (List.not_mem_of_not_mem_cons hi)]
      exact Function.update_of_ne (List.ne_of_not_mem_cons hi) _ _

omit [PartialOrder α] in
/-- A variable that is not visited keeps its value. -/
theorem iterate_unvisited {i : ι} {n : ℕ} (hi : i ∉ l) (h : iterate f l n σ = some τ) : τ i = σ i := by
  induction n generalizing σ with
  | zero => cases h
  | succ n ih =>
      have hpass : (pass f l σ).1 i = σ i := foldl_visit_unvisited hi
      rw [iterate] at h
      split at h
      · rw [ih h, hpass]
      · obtain rfl := Option.some.inj h
        exact hpass

end Passes

/-! ### Dominators -/

section Dominators

variable {β δ : Type*}

/-- A walk along a relation, with the points on it. -/
inductive Walk (r : β → β → Prop) : β → List β → β → Prop
  | single (a : β) : Walk r a [a] a
  | snoc {a b c : β} {l : List β} : Walk r a l b → r b c → Walk r a (l ++ [c]) c

variable {r : β → β → Prop} {a b c : β} {l : List β}

theorem Walk.cons (hr : r a b) (h : Walk r b l c) : Walk r a (a :: l) c := by
  induction h with
  | single => exact (Walk.single a).snoc hr
  | snoc _ hstep ih => exact ih.snoc hstep

/-- A walk backwards along the relation. -/
theorem Walk.reverse (h : Walk r a l b) : Walk (fun x y => r y x) b l.reverse a := by
  induction h with
  | single => exact .single _
  | snoc _ hstep ih =>
      rw [List.reverse_append]
      exact ih.cons hstep

/-- What the dominator equation of a point gives, from the sets of the points before it. -/
def domEquation (before : β → Set β) (root : β) (own : β → δ) (b : β) (σ : β → Set δ) : Set δ :=
  {d | d = own b ∨ b ≠ root ∧ ∀ p ∈ before b, d ∈ σ p}

variable {before : β → Set β} {root : β} {own : β → δ} {σ : β → Set δ}

/-- What a solution has is on every walk from the root. -/
theorem exists_own_of_walk (hsol : ∀ b, σ b = domEquation before root own b σ) {d : δ}
    (hwalk : Walk (fun p b => p ∈ before b) root l b) (hd : d ∈ σ b) : ∃ x ∈ l, own x = d := by
  induction hwalk with
  | single =>
      rw [hsol] at hd
      obtain rfl | ⟨hne, -⟩ := hd
      · exact ⟨_, List.mem_singleton_self _, rfl⟩
      · exact absurd rfl hne
  | @snoc _ c _ _ hstep ih =>
      rw [hsol] at hd
      obtain rfl | ⟨-, hall⟩ := hd
      · exact ⟨c, List.mem_append_right _ (List.mem_singleton_self _), rfl⟩
      · obtain ⟨x, hx, hown⟩ := ih (hall _ hstep)
        exact ⟨x, List.mem_append_left _ hx, hown⟩

variable (before) in
/-- The greatest solution has what is on every walk from the root. -/
theorem dominators_iff (hsol : ∀ b, σ b = domEquation before root own b σ)
    (hgreatest : ∀ τ : β → Set δ, (∀ b, τ b ⊆ domEquation before root own b τ) → ∀ b, τ b ⊆ σ b) (d : δ) :
    d ∈ σ b ↔ ∀ l, Walk (fun p b => p ∈ before b) root l b → ∃ x ∈ l, own x = d := by
  refine ⟨fun hd l hwalk => exists_own_of_walk hsol hwalk hd, fun hall => ?_⟩
  refine hgreatest (fun b => {d | ∀ l, Walk (fun p b => p ∈ before b) root l b → ∃ x ∈ l, own x = d}) ?_ b hall
  intro b d hd
  by_cases hown : d = own b
  · exact .inl hown
  · refine .inr ⟨?_, fun p hp l hl => ?_⟩
    · rintro rfl
      obtain ⟨x, hx, rfl⟩ := hd _ (.single b)
      obtain rfl := List.mem_singleton.mp hx
      exact hown rfl
    · obtain ⟨x, hx, rfl⟩ := hd _ (hl.snoc hp)
      obtain hx | hx := List.mem_append.mp hx
      · exact ⟨x, hx, rfl⟩
      · obtain rfl := List.mem_singleton.mp hx
        exact absurd rfl hown

end Dominators

end OpenWatcom.Iteration
