import Mathlib.Data.List.Basic
import Mathlib.Order.Basic
import Mathlib.Data.Nat.Notation
import Mathlib.Order.Nat

/-!
# Tables of rows, written as edits

A table of rows, each from a location on, is often stored as a program: entries that edit the
current row, and entries that advance the location, before which the row is put down.  A value is
looked up without building the table, by running the entries until the location is passed.

* `rows`, `covering`: the table, and its row for a location, which is the last that starts at or
  before it;
* `runUntil`: the run that stops early;
* `covering_rows`: the run finds the value of that row.
-/

namespace UltraKernel.RowTable

variable {ρ : Type}

/-- An entry advances the location, or edits the row. -/
inductive Entry (ρ : Type) where
  | advance (delta : ℕ)
  | edit (f : ρ → ρ)

/-- The location and the row after an entry. -/
def Entry.apply (location : ℕ) (value : ρ) : Entry ρ → ℕ × ρ
  | advance delta => (location + delta, value)
  | edit f => (location, f value)

structure Row (ρ : Type) where
  location : ℕ
  value : ρ

/-- The table of the entries, from a location and a row on. -/
def rows (location : ℕ) (value : ρ) : List (Entry ρ) → List (Row ρ)
  | [] => [⟨location, value⟩]
  | .advance delta :: entries => ⟨location, value⟩ :: rows (location + delta) value entries
  | .edit f :: entries => rows location (f value) entries

/-- How far the entries advance. -/
def extent : List (Entry ρ) → ℕ
  | [] => 0
  | .advance delta :: entries => delta + extent entries
  | .edit _ :: entries => extent entries

/-- The last row whose location is at most `pc`. -/
def covering (table : List (Row ρ)) (pc : ℕ) : Option (Row ρ) :=
  (table.filter fun row => row.location ≤ pc).getLast?

/-- The location and the row that the entries lead to, stopping once the location is past `pc`. -/
def runUntil (pc : ℕ) : ℕ → ρ → List (Entry ρ) → ℕ × ρ
  | location, value, [] => (location, value)
  | location, value, entry :: entries =>
    if pc < location then (location, value)
    else runUntil pc (entry.apply location value).1 (entry.apply location value).2 entries

variable {pc location : ℕ} {value : ρ} {entries : List (Entry ρ)}

theorem apply_extent (location : ℕ) (value : ρ) (entry : Entry ρ) (entries : List (Entry ρ)) :
    (entry.apply location value).1 + extent entries = location + extent (entry :: entries) := by
  cases entry with
  | advance delta => exact Nat.add_assoc _ _ _
  | edit f => rfl

theorem extent_append (first second : List (Entry ρ)) :
    extent (first ++ second) = extent first + extent second := by
  induction first with
  | nil => exact (Nat.zero_add _).symm
  | cons entry first ih =>
    cases entry with
    | advance delta => rw [List.cons_append, extent, extent, ih, Nat.add_assoc]
    | edit f => exact ih

theorem le_of_mem_rows {row : Row ρ} (h : row ∈ rows location value entries) :
    location ≤ row.location := by
  induction entries generalizing location value with
  | nil =>
    obtain rfl := List.mem_singleton.mp h
    exact le_refl _
  | cons entry entries ih =>
    cases entry with
    | advance delta =>
      rcases List.mem_cons.mp h with rfl | h
      · exact le_refl _
      · exact (Nat.le_add_right _ _).trans (ih h)
    | edit f => exact ih h

theorem runUntil_of_lt (h : pc < location) (value : ρ) (entries : List (Entry ρ)) :
    runUntil pc location value entries = (location, value) := by
  cases entries with
  | nil => rfl
  | cons entry entries => rw [runUntil, if_pos h]

theorem runUntil_of_le {entry : Entry ρ} (h : location ≤ pc) :
    runUntil pc location value (entry :: entries) =
      runUntil pc (entry.apply location value).1 (entry.apply location value).2 entries := by
  rw [runUntil, if_neg (not_lt.mpr h)]

/-- A run that is cut in two: a run that has stopped stays as it is. -/
theorem runUntil_append (first second : List (Entry ρ)) :
    runUntil pc location value (first ++ second) =
      runUntil pc (runUntil pc location value first).1 (runUntil pc location value first).2
        second := by
  induction first generalizing location value with
  | nil => rfl
  | cons entry first ih =>
    rcases Nat.lt_or_ge pc location with hpc | hpc
    · rw [runUntil_of_lt hpc, runUntil_of_lt hpc, runUntil_of_lt hpc]
    · rw [List.cons_append, runUntil_of_le hpc, runUntil_of_le hpc]
      exact ih

/-- A run does not lead further than the entries advance. -/
theorem runUntil_le_extent (pc location : ℕ) (value : ρ) (entries : List (Entry ρ)) :
    (runUntil pc location value entries).1 ≤ location + extent entries := by
  induction entries generalizing location value with
  | nil => exact le_refl _
  | cons entry entries ih =>
    rcases Nat.lt_or_ge pc location with hpc | hpc
    · rw [runUntil_of_lt hpc]
      exact Nat.le_add_right _ _
    · rw [runUntil_of_le hpc, ← apply_extent location value]
      exact ih _ _

/-- **The run that stops early** finds the value of the row for the location. -/
theorem covering_rows (h : location ≤ pc) :
    (covering (rows location value entries) pc).map Row.value =
      some (runUntil pc location value entries).2 := by
  induction entries generalizing location value with
  | nil =>
    rw [covering, rows, List.filter_cons_of_pos (by simpa using h)]
    rfl
  | cons entry entries ih =>
    rw [runUntil_of_le h]
    cases entry with
    | edit f => exact ih h
    | advance delta =>
      rw [covering, rows, List.filter_cons_of_pos (by simpa using h), Entry.apply]
      by_cases hnext : location + delta ≤ pc
      · have hlast := @ih _ value hnext
        rw [covering] at hlast
        obtain ⟨row, hrow, _⟩ := Option.map_eq_some_iff.mp hlast
        rw [List.getLast?_cons, hrow, Option.getD_some, ← hlast, hrow]
      · have hnil : (rows (location + delta) value entries).filter
            (fun row => row.location ≤ pc) = [] := by
          refine List.filter_eq_nil_iff.mpr fun row hrow => ?_
          have hle := le_of_mem_rows hrow
          rw [decide_eq_true_eq]
          omega
        rw [hnil, runUntil_of_lt (not_le.mp hnext)]
        rfl

end UltraKernel.RowTable
