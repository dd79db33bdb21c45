import Mathlib.Logic.Relation

/-! Finite labelled runs of a transition relation.

A run records the label of every step, so that a property may speak about the
calls made along the way and not only about the two end states.
-/

set_option autoImplicit false

namespace Cs544.Library

variable {State Label : Type}

inductive Run (step : State → Label → State → Prop) : State → List Label → State → Prop where
  | nil (state : State) : Run step state [] state
  | cons {state next final : State} {label : Label} {labels : List Label} :
      step state label next → Run step next labels final → Run step state (label :: labels) final

namespace Run

variable {step : State → Label → State → Prop} {state next final : State}
  {label : Label} {labels more : List Label}

/-- What every single step preserves, every run preserves. -/
theorem invariant (Inv : State → Prop)
    (preserved : ∀ {s : State} {l : Label} {t : State}, Inv s → step s l t → Inv t)
    (run : Run step state labels final) (start : Inv state) : Inv final := by
  induction run with
  | nil => exact start
  | cons first _ ih => exact ih (preserved start first)

theorem mono {coarser : State → Label → State → Prop}
    (weaker : ∀ {s : State} {l : Label} {t : State}, step s l t → coarser s l t)
    (run : Run step state labels final) : Run coarser state labels final := by
  induction run with
  | nil => exact .nil _
  | cons first _ ih => exact .cons (weaker first) ih

theorem append (first : Run step state labels next) (rest : Run step next more final) :
    Run step state (labels ++ more) final := by
  induction first with
  | nil => exact rest
  | cons edge _ ih => exact .cons edge (ih rest)

theorem split (run : Run step state (labels ++ more) final) :
    ∃ middle, Run step state labels middle ∧ Run step middle more final := by
  induction labels generalizing state with
  | nil => exact ⟨state, .nil state, run⟩
  | cons label labels ih =>
    cases run with
    | cons edge rest =>
      obtain ⟨middle, front, back⟩ := ih rest
      exact ⟨middle, .cons edge front, back⟩

end Run

/-- The run of a step function along given labels, if every step exists. -/
def execute (next : State → Label → Option State) : State → List Label → Option State
  | state, [] => some state
  | state, label :: labels =>
      match next state label with
      | none => none
      | some state => execute next state labels

theorem run_of_execute {next : State → Label → Option State} {state final : State} {labels : List Label}
    (result : execute next state labels = some final) :
    Run (fun s l t => next s l = some t) state labels final := by
  induction labels generalizing state with
  | nil =>
    cases result
    exact .nil _
  | cons label labels ih =>
    rw [execute] at result
    split at result
    · cases result
    next edge => exact .cons edge (ih result)

end Cs544.Library
