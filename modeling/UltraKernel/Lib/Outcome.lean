import Mathlib.Data.Nat.Notation
import Mathlib.Logic.Basic
import Mathlib.Tactic.TypeStar

/-!
# Outcomes of fuelled programs

A program that may stop on a failed assertion and may fail to terminate is run with a fuel
argument.  `Outcome ε α` keeps the three endings apart: a value, an assertion of kind `ε`, or a
run cut short.  `Below` is the definedness order; a fuelled program is monotone in it, so the
ending of a run that was not cut short does not depend on how much fuel it had left.
-/

namespace UltraKernel

/-- How a run ends: with a value, on a failed assertion, or cut short. -/
inductive Outcome (ε α : Type*) where
  | done (a : α)
  | halt (e : ε)
  | outOfFuel
  deriving DecidableEq, Repr

namespace Outcome

variable {ε α β : Type*}

/-- Sequencing: only a value is passed on. -/
def bind (x : Outcome ε α) (f : α → Outcome ε β) : Outcome ε β :=
  match x with
  | done a => f a
  | halt e => halt e
  | outOfFuel => outOfFuel

instance {ε : Type*} : Monad (Outcome ε) where
  pure := done
  bind := bind

@[simp] theorem pure_eq {ε α : Type _} (a : α) : (pure a : Outcome ε α) = done a := rfl

@[simp] theorem done_bind {ε α β : Type _} (a : α) (f : α → Outcome ε β) :
    (done a >>= f) = f a := rfl

@[simp] theorem halt_bind {ε α β : Type _} (e : ε) (f : α → Outcome ε β) :
    ((halt e : Outcome ε α) >>= f) = halt e := rfl

@[simp] theorem outOfFuel_bind {ε α β : Type _} (f : α → Outcome ε β) :
    ((outOfFuel : Outcome ε α) >>= f) = outOfFuel := rfl

/-- **Inversion of sequencing**: a completed sequence completed its first part. -/
theorem bind_eq_done {ε α β : Type _} {x : Outcome ε α} {f : α → Outcome ε β} {b : β} :
    (x >>= f) = done b ↔ ∃ a, x = done a ∧ f a = done b := by
  cases x <;> simp

/-- A run as a part of a program with more assertions. -/
def mapHalt {ε ε' α : Type*} (f : ε → ε') : Outcome ε α → Outcome ε' α
  | done a => done a
  | halt e => halt (f e)
  | outOfFuel => outOfFuel

@[simp] theorem mapHalt_done {ε ε' α : Type*} (f : ε → ε') (a : α) :
    (done a : Outcome ε α).mapHalt f = done a := rfl

/-- The value of a completed run. -/
def value? (x : Outcome ε α) : Option α :=
  match x with
  | done a => some a
  | _ => none

theorem value?_eq_some {x : Outcome ε α} {a : α} : x.value? = some a ↔ x = done a := by
  cases x <;> simp [value?]

/-- The definedness order: `x` was cut short or already has the ending of `y`. -/
def Below (x y : Outcome ε α) : Prop := x = outOfFuel ∨ x = y

theorem Below.refl (x : Outcome ε α) : Below x x := Or.inr rfl

theorem Below.eq_of_ne {x y : Outcome ε α} (h : Below x y) (hx : x ≠ outOfFuel) : y = x :=
  (h.resolve_left hx).symm

theorem Below.done {x y : Outcome ε α} {a : α} (h : Below x y) (hx : x = .done a) : y = .done a := by
  rw [h.eq_of_ne (by simp [hx]), hx]

/-- Sequencing is monotone in both parts. -/
theorem Below.bind {ε α β : Type _} {x y : Outcome ε α} {f g : α → Outcome ε β} (h : Below x y)
    (hf : ∀ a, Below (f a) (g a)) : Below (x >>= f) (y >>= g) := by
  rcases h with rfl | rfl
  · exact Or.inl rfl
  · cases x with
    | done a => exact hf a
    | halt e => exact Or.inr rfl
    | outOfFuel => exact Or.inl rfl

theorem Below.trans {x y z : Outcome ε α} (h : Below x y) (h' : Below y z) : Below x z := by
  rcases h with rfl | rfl
  · exact Or.inl rfl
  · exact h'

/-- A fuelled program that is monotone in single steps is monotone. -/
theorem below_of_le {f : ℕ → Outcome ε α} (h : ∀ n, Below (f n) (f (n + 1))) {m n : ℕ}
    (hmn : m ≤ n) : Below (f m) (f n) := by
  induction hmn with
  | refl => exact Below.refl _
  | step _ ih => exact ih.trans (h _)

/-! ### Total correctness -/

/-- The run ends, with a value that has the property or on an assertion that is allowed. -/
def Ends (allowed : ε → Prop) (Q : α → Prop) (x : Outcome ε α) : Prop :=
  match x with
  | done a => Q a
  | halt e => allowed e
  | outOfFuel => False

section Ends

variable {allowed allowed' : ε → Prop} {Q Q' : α → Prop} {x : Outcome ε α}

theorem Ends.ne_outOfFuel (h : Ends allowed Q x) : x ≠ outOfFuel := by
  rintro rfl
  exact h

theorem Ends.of_done (h : Ends allowed Q x) {a : α} (hx : x = done a) : Q a := by
  subst hx
  exact h

theorem Ends.mono (h : Ends allowed Q x) (hallowed : ∀ e, allowed e → allowed' e)
    (hpost : ∀ a, Q a → Q' a) : Ends allowed' Q' x := by
  cases x with
  | done a => exact hpost a h
  | halt e => exact hallowed e h
  | outOfFuel => exact h

/-- **Sequencing**: the second part ends from every value the first may pass on. -/
theorem Ends.bind {ε α β : Type _} {allowed : ε → Prop} {Q : α → Prop} {Q' : β → Prop}
    {x : Outcome ε α} {f : α → Outcome ε β} (h : Ends allowed Q x)
    (hf : ∀ a, Q a → Ends allowed Q' (f a)) : Ends allowed Q' (x >>= f) := by
  cases x with
  | done a => exact hf a h
  | halt e => exact h
  | outOfFuel => exact h

end Ends

/-! ### Two runs -/

/-- Both runs end the same way, with related values. -/
def Related (R : α → β → Prop) : Outcome ε α → Outcome ε β → Prop
  | done a, done b => R a b
  | halt e, halt e' => e = e'
  | outOfFuel, outOfFuel => True
  | _, _ => False

section Related

variable {R : α → β → Prop}

theorem Related.of_done {x : Outcome ε α} {y : Outcome ε β} (h : Related R x y) {a : α}
    (hx : x = done a) : ∃ b, y = done b ∧ R a b := by
  subst hx
  cases y with
  | done b => exact ⟨b, rfl, h⟩
  | halt e => exact absurd h id
  | outOfFuel => exact absurd h id

/-- **Sequencing**: related runs pass on related values. -/
theorem Related.bind {ε α β γ δ : Type _} {R : α → β → Prop} {S : γ → δ → Prop}
    {x : Outcome ε α} {y : Outcome ε β} {f : α → Outcome ε γ} {g : β → Outcome ε δ}
    (h : Related R x y) (hf : ∀ a b, R a b → Related S (f a) (g b)) :
    Related S (x >>= f) (y >>= g) := by
  cases x <;> cases y <;> first | exact absurd h id | exact hf _ _ h | exact h

/-- The same run, continued in two ways. -/
theorem Related.bind_same {ε α γ δ : Type _} {S : γ → δ → Prop} (x : Outcome ε α)
    {f : α → Outcome ε γ} {g : α → Outcome ε δ} (hf : ∀ a, Related S (f a) (g a)) :
    Related S (x >>= f) (x >>= g) := by
  cases x with
  | done a => exact hf a
  | halt e => rfl
  | outOfFuel => trivial

end Related

end Outcome

end UltraKernel
