import Mathlib.Data.Nat.Notation
import Mathlib.Data.List.Nodup
import Mathlib.Logic.Function.Basic

/-!
# Singly linked lists

`Linked next start l` says that following `next` from `start` passes the objects of `l` in order and
ends.  Such a list has no object twice (`Linked.nodup`); objects that are not on it may change their
`next` freely.

* `Linked.push`: a new head;
* `Linked.unlink`: the object after another one is taken out.
-/

namespace UltraKernel

variable {ι : Type*}

/-- The objects passed from `start` on. -/
def Linked (next : ι → Option ι) : Option ι → List ι → Prop
  | start, [] => start = none
  | start, a :: l => start = some a ∧ Linked next (next a) l

namespace Linked

variable {next : ι → Option ι} {start : Option ι} {a b : ι} {l m : List ι}

theorem head?_eq (h : Linked next start l) : l.head? = start := by
  cases l with
  | nil => exact h.symm
  | cons a l => exact h.1.symm

/-- **The list is determined** by where it starts. -/
theorem unique (h : Linked next start l) (h' : Linked next start m) : l = m := by
  induction l generalizing start m with
  | nil =>
    cases m with
    | nil => rfl
    | cons b m => exact absurd (h.symm.trans h'.1) (by simp)
  | cons a l ih =>
    cases m with
    | nil => exact absurd (h.1.symm.trans h') (by simp)
    | cons b m =>
      obtain rfl : a = b := Option.some.inj (h.1.symm.trans h'.1)
      rw [ih h.2 h'.2]

theorem of_append (h : Linked next start (l ++ a :: m)) : Linked next (some a) (a :: m) := by
  induction l generalizing start with
  | nil => exact ⟨rfl, h.2⟩
  | cons b l ih => exact ih h.2

/-- **No object is passed twice**, since the list ends. -/
theorem nodup (h : Linked next start l) : l.Nodup := by
  induction l generalizing start with
  | nil => exact List.nodup_nil
  | cons a l ih =>
    refine List.nodup_cons.mpr ⟨fun ha => ?_, ih h.2⟩
    obtain ⟨before, after, rfl⟩ := List.append_of_mem ha
    have hfirst : Linked next (some a) (a :: (before ++ a :: after)) := ⟨rfl, h.2⟩
    have hlength := congrArg List.length (hfirst.unique h.2.of_append)
    simp only [List.length_cons, List.length_append] at hlength
    omega

variable [DecidableEq ι]

theorem update_of_notMem (h : Linked next start l) (ha : a ∉ l) (target : Option ι) :
    Linked (Function.update next a target) start l := by
  induction l generalizing start with
  | nil => exact h
  | cons b l ih =>
    rw [List.mem_cons, not_or] at ha
    obtain ⟨hb, hl⟩ := ha
    refine ⟨h.1, ?_⟩
    rw [Function.update_of_ne (Ne.symm hb)]
    exact ih h.2 hl

/-- **A new head.** -/
theorem push (h : Linked next start l) (ha : a ∉ l) :
    Linked (Function.update next a start) (some a) (a :: l) := by
  refine ⟨rfl, ?_⟩
  rw [Function.update_self]
  exact h.update_of_notMem ha start

/-- **Taking an object out** after another one. -/
theorem unlink (h : Linked next start (l ++ a :: b :: m)) :
    Linked (Function.update next a (next b)) start (l ++ a :: m) := by
  have hnodup := h.nodup
  induction l generalizing start with
  | nil =>
    refine ⟨h.1, ?_⟩
    rw [Function.update_self]
    refine h.2.2.update_of_notMem (fun ha => ?_) _
    exact (List.nodup_cons.mp hnodup).1 (List.mem_cons_of_mem _ ha)
  | cons c l ih =>
    obtain ⟨hc, hrest⟩ := List.nodup_cons.mp hnodup
    have hne : c ≠ a := by
      rintro rfl
      exact hc (by simp)
    refine ⟨h.1, ?_⟩
    rw [Function.update_of_ne hne]
    exact ih h.2 hrest

end Linked

end UltraKernel
