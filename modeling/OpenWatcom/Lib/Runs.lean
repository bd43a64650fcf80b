import Mathlib.Data.List.Basic

/-! # Runs of a state machine

A machine is a function `step` from a state and an event to the next state, and a *run* is what a list
of events does to a state.

* `run_invariant`: what every step preserves holds after a run;
* `run_invariant_of_along`: the same for runs whose steps all meet a condition;
* `along_of_along`: what every step that meets the condition has, all steps of such a run have;
* `outcome_refines`: a machine with outputs that does in every step what another one does. -/

namespace OpenWatcom

variable {σ ε : Type*}

/-- The state after the events. -/
def run (step : σ → ε → σ) (s : σ) (es : List ε) : σ := es.foldl step s

/-- Every event of the run meets the condition in the state it happens in. -/
def Along (step : σ → ε → σ) (cond : σ → ε → Prop) : σ → List ε → Prop
  | _, [] => True
  | s, e :: es => cond s e ∧ Along step cond (step s e) es

instance Along.decidable (step : σ → ε → σ) (cond : σ → ε → Prop)
    [∀ s e, Decidable (cond s e)] : ∀ s es, Decidable (Along step cond s es)
  | _, [] => isTrue trivial
  | _, _ :: es =>
    @instDecidableAnd _ _ _ (Along.decidable step cond _ es)

section run

variable (step : σ → ε → σ)

@[simp] theorem run_nil (s : σ) : run step s [] = s := rfl

@[simp] theorem run_cons (s : σ) (e : ε) (es : List ε) :
    run step s (e :: es) = run step (step s e) es := rfl

theorem run_append (s : σ) (es fs : List ε) :
    run step s (es ++ fs) = run step (run step s es) fs :=
  List.foldl_append

theorem along_append {cond : σ → ε → Prop} {s : σ} {es fs : List ε} :
    Along step cond s (es ++ fs) ↔ Along step cond s es ∧ Along step cond (run step s es) fs := by
  induction es generalizing s with
  | nil => simp [Along]
  | cons e es ih =>
      rw [List.cons_append, Along, Along, ih, run_cons, and_assoc]

end run

variable {step : σ → ε → σ} {inv : σ → Prop}

theorem run_invariant_of_along {cond : σ → ε → Prop}
    (hstep : ∀ s e, inv s → cond s e → inv (step s e)) {s : σ} {es : List ε} (hs : inv s)
    (hcond : Along step cond s es) : inv (run step s es) := by
  induction es generalizing s with
  | nil => exact hs
  | cons e es ih =>
      obtain ⟨he, hes⟩ := hcond
      exact ih (hstep s e hs he) hes

theorem run_invariant (hstep : ∀ s e, inv s → inv (step s e)) {s : σ} (es : List ε) (hs : inv s) :
    inv (run step s es) := by
  induction es generalizing s with
  | nil => exact hs
  | cons e es ih => exact ih (hstep s e hs)

/-- If every step that meets a condition has a property and keeps the invariant, all steps of a run have it. -/
theorem along_of_along {cond good : σ → ε → Prop}
    (hstep : ∀ s e, inv s → cond s e → inv (step s e) ∧ good s e) {s : σ} {es : List ε} (hs : inv s)
    (hcond : Along step cond s es) : Along step good s es := by
  induction es generalizing s with
  | nil => trivial
  | cons e es ih =>
      obtain ⟨he, hes⟩ := hcond
      obtain ⟨hinv, hgood⟩ := hstep s e hs he
      exact ⟨hgood, ih hinv hes⟩

/-! ### Machines with outputs -/

section outcome

variable {τ δ ρ : Type*}

/-- The outputs of a run and the state after it. -/
def outcome (step : σ → ε → ρ × σ) : σ → List ε → List ρ × σ
  | s, [] => ([], s)
  | s, e :: es =>
    let r := outcome step (step s e).2 es
    ((step s e).1 :: r.1, r.2)

/-- The events of another machine that the events of a run amount to. -/
def translate (step : σ → ε → ρ × σ) (event : σ → ε → δ) : σ → List ε → List δ
  | _, [] => []
  | s, e :: es => event s e :: translate step event (step s e).2 es

/-- If in every step the abstract machine gives the same output and goes to the abstraction of the next
state, it does so over a run. -/
theorem outcome_refines {step : σ → ε → ρ × σ} {step' : τ → δ → ρ × τ} {abs : σ → τ}
    {event : σ → ε → δ} {cond : σ → ε → Prop}
    (hstep : ∀ s e, inv s → cond s e →
      inv (step s e).2 ∧ step' (abs s) (event s e) = ((step s e).1, abs (step s e).2))
    {s : σ} {es : List ε} (hs : inv s) (hcond : Along (fun s e => (step s e).2) cond s es) :
    inv (outcome step s es).2 ∧
      outcome step' (abs s) (translate step event s es) =
        ((outcome step s es).1, abs (outcome step s es).2) := by
  induction es generalizing s with
  | nil => exact ⟨hs, rfl⟩
  | cons e es ih =>
      obtain ⟨he, hes⟩ := hcond
      obtain ⟨hinv, heq⟩ := hstep s e hs he
      obtain ⟨hinv', heq'⟩ := ih hinv hes
      refine ⟨hinv', ?_⟩
      rw [translate, outcome, heq, heq', outcome]

end outcome

end OpenWatcom
