import Mathlib.Data.List.Sort
import Mathlib.Data.Prod.Lex
import Mathlib.Order.Defs.LinearOrder

/-!
# Sorting by a comparator

A comparator gives a number that is negative, zero or positive.  It orders by a key when it is at most
zero exactly for keys in order; a chain of comparisons orders by the tuple of the keys.

* `Keyed.lex`: a comparison in front of a chain;
* `Keyed.pairwise`: a list that is sorted by a comparator is in order.
-/

namespace UltraKernel

variable {α κ φ : Type*} [LinearOrder κ] [LinearOrder φ]

/-- **The comparator orders by the key.** -/
def Keyed (cmp : α → α → ℤ) (key : α → κ) : Prop := ∀ a b, cmp a b ≤ 0 ↔ key a ≤ key b

/-- A list sorted by a comparator, with equal elements in their order. -/
def sortedBy {α : Type*} (cmp : α → α → ℤ) (l : List α) : List α :=
  l.insertionSort fun a b => cmp a b ≤ 0

theorem sortedBy_perm {α : Type*} (cmp : α → α → ℤ) (l : List α) : (sortedBy cmp l).Perm l :=
  List.perm_insertionSort _ l

namespace Keyed

variable {cmp c : α → α → ℤ} {key : α → κ} {f : α → φ}

/-- **One more comparison** in front of a chain. -/
theorem lex (hfirst : ∀ a b, f a ≠ f b → (c a b ≤ 0 ↔ f a < f b)) (h : Keyed cmp key) :
    Keyed (fun a b => if f a ≠ f b then c a b else cmp a b)
      fun a => toLex (f a, key a) := by
  intro a b
  show (if f a ≠ f b then c a b else cmp a b) ≤ 0 ↔ toLex (f a, key a) ≤ toLex (f b, key b)
  rw [Prod.Lex.toLex_le_toLex]
  by_cases hne : f a = f b
  · rw [if_neg (not_not.mpr hne), h a b]
    constructor
    · intro hle
      exact .inr ⟨hne, hle⟩
    · rintro (hlt | ⟨-, hle⟩)
      · exact absurd hne hlt.ne
      · exact hle
  · rw [if_pos hne, hfirst a b hne]
    constructor
    · exact .inl
    · rintro (hlt | ⟨heq, -⟩)
      · exact hlt
      · exact absurd heq hne

/-- The difference of two numbers orders by them. -/
theorem sub (f : α → ℕ) : Keyed (fun a b => (f a : ℤ) - f b) f := by
  intro a b
  show (f a : ℤ) - f b ≤ 0 ↔ f a ≤ f b
  omega

/-- **A sorted list is in order.** -/
theorem pairwise (h : Keyed cmp key) (l : List α) :
    (sortedBy cmp l).Pairwise fun a b => cmp a b ≤ 0 := by
  have : Std.Total fun a b => cmp a b ≤ 0 := ⟨fun a b => by
    rw [h, h]
    exact le_total _ _⟩
  have : IsTrans α fun a b => cmp a b ≤ 0 := ⟨fun a b c hab hbc => by
    rw [h] at *
    exact hab.trans hbc⟩
  exact List.pairwise_insertionSort (fun a b => cmp a b ≤ 0) l

end Keyed

end UltraKernel
