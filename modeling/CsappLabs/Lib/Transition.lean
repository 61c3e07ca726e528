import Mathlib.Data.List.Basic

/-
  Labelled transition systems, their runs, and the two
  induction rules used on them.

  Key definitions include:
    * `Transition.Run`

  Key theorems include:
    * `Transition.Run.invariant`
    * `Transition.Run.simulation`
    * `Transition.Run.history`
    * `Transition.Run.append`
    * `Transition.Run.mono`
-/

------------------------------------------------------------
-- Runs
------------------------------------------------------------

namespace Transition

variable {σ τ α : Type}

/- A finite run, with the labels of its steps in order. -/
inductive Run (step : σ → α → σ → Prop) (start : σ) :
    List α → σ → Prop
| nil : Run step start [] start
| snoc {labels : List α} {s t : σ} {label : α} :
    Run step start labels s →
    step s label t →
    Run step start (labels ++ [label]) t

variable {step step' : σ → α → σ → Prop}
variable {abstractStep : τ → α → τ → Prop}
variable {start s : σ} {labels : List α}

------------------------------------------------------------
-- Rules
------------------------------------------------------------

/- What every step preserves holds after every run. -/
theorem Run.invariant
    (hRun : Run step start labels s)
    (inv : σ → Prop)
    (hStart : inv start)
    (hStep :
      ∀ s label t, inv s → step s label t → inv t) :
    inv s := by
  induction hRun with
  | nil => exact hStart
  | snoc _ hLast ih => exact hStep _ _ _ ih hLast

/-
  A forward simulation carries every run of the concrete
  system to a run of the abstract one with the same labels.
-/
theorem Run.simulation
    {abstractStart : τ}
    (hRun : Run step start labels s)
    (related : σ → τ → Prop)
    (hStart : related start abstractStart)
    (hStep :
      ∀ s t label s', related s t → step s label s' →
        ∃ t', abstractStep t label t' ∧ related s' t') :
    ∃ t, Run abstractStep abstractStart labels t ∧
      related s t := by
  induction hRun with
  | nil => exact ⟨abstractStart, .nil, hStart⟩
  | snoc _ hLast ih =>
      rcases ih with ⟨t, hAbstract, hRelated⟩
      rcases hStep _ _ _ _ hRelated hLast with
        ⟨t', hAbstractStep, hRelated'⟩
      exact ⟨t', .snoc hAbstract hAbstractStep, hRelated'⟩

/-
  The invariant rule with the labels of the run at hand: what
  every step preserves of a state and its history.
-/
theorem Run.history
    (hRun : Run step start labels s)
    (inv : List α → σ → Prop)
    (hStart : inv [] start)
    (hStep :
      ∀ labels s label t, inv labels s → step s label t →
        inv (labels ++ [label]) t) :
    inv labels s := by
  induction hRun with
  | nil => exact hStart
  | snoc _ hLast ih => exact hStep _ _ _ _ ih hLast

/- One run after another. -/
theorem Run.append
    {middle : σ}
    {later : List α}
    (hRun : Run step start labels middle)
    (hLater : Run step middle later s) :
    Run step start (labels ++ later) s := by
  induction hLater with
  | nil => rwa [List.append_nil]
  | snoc _ hLast ih =>
      rw [← List.append_assoc]
      exact .snoc ih hLast

/- A run of a system is a run of any system with more steps. -/
theorem Run.mono
    (hRun : Run step start labels s)
    (hSub : ∀ s label t, step s label t → step' s label t) :
    Run step' start labels s := by
  induction hRun with
  | nil => exact .nil
  | snoc _ hLast ih => exact .snoc ih (hSub _ _ _ hLast)

end Transition
