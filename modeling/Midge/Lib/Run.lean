import Mathlib.Tactic

/-!
# Runs

A run takes a list of items one after the other, each by a step from one state to the
next.
-/

variable {σ α : Type*}

/-- The items lead from one state to another. -/
inductive Run (step : σ → α → σ → Prop) : σ → List α → σ → Prop
  | nil {s : σ} : Run step s [] s
  | cons {s s' s'' : σ} {item : α} {items : List α} (hstep : step s item s')
      (hrest : Run step s' items s'') : Run step s (item :: items) s''

namespace Run

variable {step : σ → α → σ → Prop} {s s' s'' : σ} {item : α} {items items' : List α}

theorem append (h : Run step s items s') (h' : Run step s' items' s'') :
    Run step s (items ++ items') s'' := by
  induction h with
  | nil => exact h'
  | cons hstep _ ih => exact .cons hstep (ih h')

/-- The steps of a run may be taken for others. -/
theorem imp {step' : σ → α → σ → Prop} (h : Run step s items s')
    (himp : ∀ item ∈ items, ∀ s s', step s item s' → step' s item s') : Run step' s items s' := by
  induction h with
  | nil => exact .nil
  | cons hstep _ ih =>
    exact .cons (himp _ (.head _) _ _ hstep) (ih fun item hitem => himp item (.tail _ hitem))

theorem singleton (h : step s item s') : Run step s [item] s' := .cons h .nil

end Run
