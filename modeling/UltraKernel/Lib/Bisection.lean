import Mathlib.Data.Nat.Notation
import Mathlib.Logic.Basic

/-!
# Bisection

A search for the last index with a property keeps two bounds, and moves one of them to an index in
between.  It ends when the bounds are next to each other.

* `Bisected.of_holds`, `Bisected.of_not`: one round of the search;
* `Bisected.lastOrZero`: what is found, if the indices with the property come first.
-/

namespace UltraKernel

/-- Where a search between `first` and `last` may end: at an index with the property, or the first
one, before one without it, or the last one. -/
structure Bisected (p : ℕ → Prop) (first last k : ℕ) : Prop where
  first_le : first ≤ k
  lt_last : k < last
  low : k = first ∨ p k
  high : k + 1 = last ∨ ¬ p (k + 1)

/-- The last index below `n` with the property, or 0 if there is none. -/
structure LastOrZero (p : ℕ → Prop) (n k : ℕ) : Prop where
  lt : k < n
  last : ∀ j, k < j → j < n → ¬ p j
  holds : p k ∨ k = 0 ∧ ¬ p 0

variable {p : ℕ → Prop} {first last i k l n : ℕ}

namespace Bisected

theorem of_adjacent (hlt : first < last) (hlast : ¬ last - first > 1) :
    Bisected p first last first := ⟨Nat.le_refl _, hlt, Or.inl rfl, Or.inl (by omega)⟩

/-- The index has the property, and becomes the first. -/
theorem of_holds (h : Bisected p i last k) (hi : p i) (hle : first ≤ i) : Bisected p first last k where
  first_le := Nat.le_trans hle h.first_le
  lt_last := h.lt_last
  low := by
    rcases h.low with rfl | hk
    · exact Or.inr hi
    · exact Or.inr hk
  high := h.high

/-- The index does not have the property, and becomes the last. -/
theorem of_not (h : Bisected p first i k) (hi : ¬ p i) (hle : i ≤ last) : Bisected p first last k where
  first_le := h.first_le
  lt_last := Nat.lt_of_lt_of_le h.lt_last hle
  low := h.low
  high := by
    rcases h.high with rfl | hk
    · exact Or.inr hi
    · exact Or.inr hk

/-- **What is found**, if the indices with the property come first. -/
theorem lastOrZero (h : Bisected p 0 n k) (hdown : ∀ i j, i ≤ j → j < n → p j → p i) : LastOrZero p n k where
  lt := h.lt_last
  last j hkj hj hp := by
    rcases h.high with hend | hnot
    · omega
    · exact hnot (hdown (k + 1) j hkj hj hp)
  holds := by
    by_cases hk : p k
    · exact Or.inl hk
    · obtain rfl := h.low.resolve_right hk
      exact Or.inr ⟨rfl, hk⟩

end Bisected

/-- The property matters below `n` only. -/
theorem LastOrZero.congr {q : ℕ → Prop} (h : LastOrZero p n k) (hpq : ∀ i < n, p i ↔ q i) :
    LastOrZero q n k where
  lt := h.lt
  last j hkj hj := fun hq => h.last j hkj hj ((hpq j hj).mpr hq)
  holds := by
    have hpos : 0 < n := Nat.lt_of_le_of_lt (Nat.zero_le k) h.lt
    rw [← hpq k h.lt, ← hpq 0 hpos]
    exact h.holds

/-- There is one such index. -/
theorem LastOrZero.unique (h : LastOrZero p n k) (h' : LastOrZero p n l) : k = l := by
  have hle : ∀ {k l}, LastOrZero p n k → LastOrZero p n l → ¬ k < l := by
    intro k l h h' hlt
    rcases h'.holds with hl | ⟨rfl, -⟩
    · exact h.last l hlt h'.lt hl
    · exact Nat.not_lt_zero k hlt
  have h₁ := hle h h'
  have h₂ := hle h' h
  omega

end UltraKernel
