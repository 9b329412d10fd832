import Mathlib.Data.Nat.Notation
import Mathlib.Logic.Function.Basic

/-!
# Copying cells one after the other

The `i`-th cell of the source is `src i`, and that of the destination `dst i`; the two may share
cells.  `Copied` says that some of the cells, in a row, were copied as the source held them at first.

* `Copied.up`, `Copied.down`: the next cell, above or below those that were copied;
* `Copied.unique`: there is one memory where the cells were copied.
-/

namespace UltraKernel

variable {ι β : Type*}

/-- The cells from `lo` up to `hi` were copied, and no other cell was changed. -/
structure Copied (dst src : ℕ → ι) (before after : ι → β) (lo hi : ℕ) : Prop where
  copied : ∀ i, lo ≤ i → i < hi → after (dst i) = before (src i)
  frame : ∀ a, (∀ i, lo ≤ i → i < hi → a ≠ dst i) → after a = before a

namespace Copied

variable {dst src : ℕ → ι} {before after after' : ι → β} {lo hi : ℕ}

theorem refl (dst src : ℕ → ι) (before : ι → β) (k : ℕ) : Copied dst src before before k k :=
  ⟨fun _ hlo hhi => absurd hhi (Nat.not_lt.mpr hlo), fun _ _ => rfl⟩

theorem unique (h : Copied dst src before after lo hi) (h' : Copied dst src before after' lo hi) :
    after = after' := by
  funext a
  by_cases hcopied : ∃ i, lo ≤ i ∧ i < hi ∧ a = dst i
  · obtain ⟨i, hlo, hhi, rfl⟩ := hcopied
    rw [h.copied i hlo hhi, h'.copied i hlo hhi]
  · have hframe : ∀ i, lo ≤ i → i < hi → a ≠ dst i := fun i hlo hhi heq =>
      hcopied ⟨i, hlo, hhi, heq⟩
    rw [h.frame a hframe, h'.frame a hframe]

variable [DecidableEq ι]

/-- **One cell more**, if no copy was written to the cell that is read, or is written to again. -/
theorem insert {k : ℕ} (h : Copied dst src before after lo hi) {lo' hi' : ℕ}
    (hrange : ∀ i, lo' ≤ i ∧ i < hi' ↔ i = k ∨ lo ≤ i ∧ i < hi)
    (hread : ∀ i, lo ≤ i → i < hi → src k ≠ dst i) (hfresh : ∀ i, lo ≤ i → i < hi → dst i ≠ dst k) :
    Copied dst src before (Function.update after (dst k) (after (src k))) lo' hi' := by
  refine ⟨fun i hlo hhi => ?_, fun a ha => ?_⟩
  · rcases (hrange i).mp ⟨hlo, hhi⟩ with rfl | ⟨hlo', hhi'⟩
    · rw [Function.update_self, h.frame _ hread]
    · rw [Function.update_of_ne (hfresh i hlo' hhi'), h.copied i hlo' hhi']
  · obtain ⟨hlo, hhi⟩ := (hrange k).mpr (Or.inl rfl)
    rw [Function.update_of_ne (ha k hlo hhi)]
    refine h.frame a fun i hlo' hhi' => ?_
    obtain ⟨hi, hi'⟩ := (hrange i).mpr (Or.inr ⟨hlo', hhi'⟩)
    exact ha i hi hi'

/-- **The next cell above.** -/
theorem up (h : Copied dst src before after lo hi) (hle : lo ≤ hi)
    (hread : ∀ i, lo ≤ i → i < hi → src hi ≠ dst i) (hfresh : ∀ i, lo ≤ i → i < hi → dst i ≠ dst hi) :
    Copied dst src before (Function.update after (dst hi) (after (src hi))) lo (hi + 1) :=
  h.insert (fun i => by omega) hread hfresh

/-- **The next cell below.** -/
theorem down (h : Copied dst src before after (lo + 1) hi) (hle : lo < hi)
    (hread : ∀ i, lo + 1 ≤ i → i < hi → src lo ≠ dst i)
    (hfresh : ∀ i, lo + 1 ≤ i → i < hi → dst i ≠ dst lo) :
    Copied dst src before (Function.update after (dst lo) (after (src lo))) lo hi :=
  h.insert (fun i => by omega) hread hfresh

end Copied

end UltraKernel
