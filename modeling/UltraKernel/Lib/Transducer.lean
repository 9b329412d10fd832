import Mathlib.Data.List.Basic

/-!
# Transducers, and where they stop

A transducer reads a list letter by letter: every letter moves it to another state and may emit
something, and so may the end of the list.  A stopping rule looks at the state and at all that is
left.  What is read with the rule in force, up to the first place where it applies, is compared with
what is read without it.

* `run_append`: a run is cut in two at any place;
* `runUntil_cases`: a run with a stopping rule is the whole run, or what is emitted before the first
  place where the rule applies.
-/

namespace UltraKernel

/-- The states `σ`, the letters `α`, and what is emitted, in `β`. -/
structure Transducer (σ α β : Type*) where
  next : σ → α → σ
  emits : σ → α → List β
  final : σ → List β

namespace Transducer

variable {σ α β ρ : Type*} (T : Transducer σ α β)

def stateAfter (s : σ) (input : List α) : σ := input.foldl T.next s

/-- What is emitted while the list is read. -/
def output : σ → List α → List β
  | _, [] => []
  | s, a :: input => T.emits s a ++ output (T.next s a) input

/-- What is emitted in all. -/
def run (s : σ) (input : List α) : List β := T.output s input ++ T.final (T.stateAfter s input)

/-- A run that ends where the rule applies, with what the rule returns. -/
def runUntil (stop : σ → List α → Option ρ) : σ → List α → List β × Option ρ
  | s, [] =>
    match stop s [] with
    | some r => ([], some r)
    | none => (T.final s, none)
  | s, a :: input =>
    match stop s (a :: input) with
    | some r => ([], some r)
    | none =>
      let (out, r) := runUntil stop (T.next s a) input
      (T.emits s a ++ out, r)

variable {T} {s : σ} {a : α} {input before after : List α} {r : ρ}

theorem stateAfter_append (s : σ) (before after : List α) :
    T.stateAfter s (before ++ after) = T.stateAfter (T.stateAfter s before) after :=
  List.foldl_append

theorem output_append (s : σ) (before after : List α) :
    T.output s (before ++ after) = T.output s before ++ T.output (T.stateAfter s before) after := by
  induction before generalizing s with
  | nil => rfl
  | cons a before ih =>
    rw [List.cons_append, output, ih, output, List.append_assoc]
    rfl

/-- **A run is cut in two** at any place. -/
theorem run_append (s : σ) (before after : List α) :
    T.run s (before ++ after) = T.output s before ++ T.run (T.stateAfter s before) after := by
  rw [run, output_append, stateAfter_append, run, List.append_assoc]

theorem run_cons (s : σ) (a : α) (input : List α) :
    T.run s (a :: input) = T.emits s a ++ T.run (T.next s a) input := by
  rw [run, output, List.append_assoc]
  rfl

section Stopping

variable {stop : σ → List α → Option ρ}

theorem runUntil_of_some (h : stop s input = some r) : T.runUntil stop s input = ([], some r) := by
  cases input with
  | nil => rw [runUntil, h]
  | cons a input => rw [runUntil, h]

theorem runUntil_nil (h : stop s [] = none) : T.runUntil stop s [] = (T.final s, none) := by
  rw [runUntil, h]

theorem runUntil_cons (h : stop s (a :: input) = none) :
    T.runUntil stop s (a :: input) =
      (T.emits s a ++ (T.runUntil stop (T.next s a) input).1,
        (T.runUntil stop (T.next s a) input).2) := by
  rw [runUntil, h]

/-- The rule applies after `before`, with `after` left, and at no place before. -/
structure StopsFirst (T : Transducer σ α β) (stop : σ → List α → Option ρ) (s : σ)
    (before after : List α) (r : ρ) : Prop where
  applies : stop (T.stateAfter s before) after = some r
  first : ∀ earlier between, before = earlier ++ between → between ≠ [] →
    stop (T.stateAfter s earlier) (between ++ after) = none

/-- **A run with a stopping rule**: the rule applies nowhere, and the run is the whole one, or what
is emitted before the first place where it applies. -/
theorem runUntil_cases (T : Transducer σ α β) (stop : σ → List α → Option ρ) (s : σ)
    (input : List α) :
    ((∀ before after, input = before ++ after → stop (T.stateAfter s before) after = none) ∧
      T.runUntil stop s input = (T.run s input, none)) ∨
    ∃ before after r, input = before ++ after ∧ T.StopsFirst stop s before after r ∧
      T.runUntil stop s input = (T.output s before, some r) := by
  induction input generalizing s with
  | nil =>
    cases hstop : stop s [] with
    | some r =>
      refine .inr ⟨[], [], r, rfl, ⟨hstop, ?_⟩, runUntil_of_some hstop⟩
      intro earlier between heq hne
      exact absurd (List.append_eq_nil_iff.mp heq.symm).2 hne
    | none =>
      refine .inl ⟨?_, runUntil_nil hstop⟩
      intro before after heq
      obtain ⟨rfl, rfl⟩ := List.append_eq_nil_iff.mp heq.symm
      exact hstop
  | cons a input ih =>
    cases hstop : stop s (a :: input) with
    | some r =>
      refine .inr ⟨[], a :: input, r, rfl, ⟨hstop, ?_⟩, runUntil_of_some hstop⟩
      intro earlier between heq hne
      exact absurd (List.append_eq_nil_iff.mp heq.symm).2 hne
    | none =>
      rcases ih (T.next s a) with ⟨hnone, hrun⟩ | ⟨before, after, r, rfl, hfirst, hrun⟩
      · refine .inl ⟨?_, by rw [runUntil_cons hstop, hrun, run_cons]⟩
        intro before after heq
        cases before with
        | nil =>
          rw [List.nil_append] at heq
          rw [← heq]
          exact hstop
        | cons b before =>
          obtain ⟨rfl, htail⟩ := List.cons.inj heq
          exact hnone before after htail
      · refine .inr ⟨a :: before, after, r, rfl, ⟨hfirst.applies, ?_⟩, ?_⟩
        · intro earlier between heq hne
          cases earlier with
          | nil =>
            rw [List.nil_append] at heq
            rw [← heq]
            exact hstop
          | cons b earlier =>
            obtain ⟨rfl, htail⟩ := List.cons.inj heq
            exact hfirst.first earlier between htail hne
        · rw [runUntil_cons hstop, hrun]
          rfl

/-- The first stop is at or before any place where the rule applies. -/
theorem StopsFirst.before_of_applies {before' after' : List α}
    (h : T.StopsFirst stop s before after r) (heq : before ++ after = before' ++ after')
    (happlies : stop (T.stateAfter s before') after' ≠ none) :
    ∃ between, before' = before ++ between ∧ after = between ++ after' := by
  rcases List.append_eq_append_iff.mp heq with ⟨between, hbefore, hafter⟩ | ⟨between, hbefore, hafter⟩
  · exact ⟨between, hbefore, hafter⟩
  · cases between with
    | nil =>
      rw [List.append_nil] at hbefore
      rw [List.nil_append] at hafter
      exact ⟨[], by rw [hbefore, List.append_nil], hafter.symm⟩
    | cons a between =>
      have hnone := h.first before' (a :: between) hbefore (List.cons_ne_nil a between)
      rw [← hafter] at hnone
      exact absurd hnone happlies

end Stopping

end Transducer

end UltraKernel
