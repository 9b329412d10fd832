import Mathlib.Tactic.TypeStar

/-!
# What holds along a deterministic run

`Along step P s t` says that the steps of a partial function lead from `s` to `t`, and that `P` holds
of every state on the way, `s` included and `t` left out.  Runs compose, and what holds of every
state on the way may be weakened.
-/

namespace UltraKernel

/-- The states before `t` on the way from `s` all satisfy `P`. -/
inductive Along {σ : Type*} (step : σ → Option σ) (P : σ → Prop) : σ → σ → Prop
  | refl (s : σ) : Along step P s s
  | head {s t u : σ} (hs : P s) (hst : step s = some t) (htu : Along step P t u) : Along step P s u

namespace Along

variable {σ : Type*} {step : σ → Option σ} {P Q : σ → Prop} {s t u : σ}

theorem single (hs : P s) (hst : step s = some t) : Along step P s t := .head hs hst (.refl t)

theorem trans (h : Along step P s t) (h' : Along step P t u) : Along step P s u := by
  induction h with
  | refl => exact h'
  | head hs hst _ ih => exact .head hs hst (ih h')

theorem mono (hPQ : ∀ s, P s → Q s) (h : Along step P s t) : Along step Q s t := by
  induction h with
  | refl => exact .refl _
  | head hs hst _ ih => exact .head (hPQ _ hs) hst ih

/-- What holds on the way holds where it begins, unless that is its end. -/
theorem first (h : Along step P s t) (hne : s ≠ t) : P s := by
  cases h with
  | refl => exact absurd rfl hne
  | head hs _ _ => exact hs

end Along

end UltraKernel
