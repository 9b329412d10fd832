import Mathlib.Data.List.Basic
import Mathlib.Data.Nat.Notation

/-!
# Sized strings and character classes

A `struct string` is the list of its characters; `str_offset_by` by a length that was checked is
`List.drop`.  A pointer to a NUL-terminated string is the list of characters stored there, the NUL
that ends the string is the first in the list or follows it.
-/

namespace UltraKernel

/-- `error_t`: a positive errno value. -/
abbrev ErrorT := ℕ

/-- `EOK` -/
def eok : ErrorT := 0

/-- `EBUSY` -/
def ebusy : ErrorT := 10

/-- `EINVAL` -/
def einval : ErrorT := 28

/-- `ENOSYS` -/
def enosys : ErrorT := 55

/-- `ERANGE` -/
def erange : ErrorT := 72

/-- `'\0'` -/
def nul : Char := Char.ofNat 0

/-! ### Character classes -/

def isdigit (c : Char) : Bool := c.isDigit

def isxdigit (c : Char) : Bool :=
  isdigit c || ('a' ≤ c && c ≤ 'f') || ('A' ≤ c && c ≤ 'F')

/-- Tab, line feed, vertical tab, form feed, carriage return and space. -/
def isspace (c : Char) : Bool := (9 ≤ c.toNat && c.toNat ≤ 13) || c.toNat = 32

def tolower (c : Char) : Char := c.toLower

theorem isdigit_iff {c : Char} : isdigit c ↔ 48 ≤ c.toNat ∧ c.toNat ≤ 57 := by
  simp only [isdigit, Char.isDigit, Bool.and_eq_true, decide_eq_true_eq]
  exact Iff.rfl

theorem isxdigit_iff {c : Char} : isxdigit c ↔ (48 ≤ c.toNat ∧ c.toNat ≤ 57) ∨
    (97 ≤ c.toNat ∧ c.toNat ≤ 102) ∨ (65 ≤ c.toNat ∧ c.toNat ≤ 70) := by
  simp only [isxdigit, Bool.or_eq_true, isdigit_iff, Bool.and_eq_true, decide_eq_true_eq, or_assoc]
  exact Iff.rfl

theorem tolower_toNat (c : Char) :
    (tolower c).toNat = if 65 ≤ c.toNat ∧ c.toNat ≤ 90 then c.toNat + 32 else c.toNat := by
  have hupper : (c.val ≥ 'A'.val ∧ c.val ≤ 'Z'.val) ↔ 65 ≤ c.toNat ∧ c.toNat ≤ 90 := Iff.rfl
  unfold tolower Char.toLower
  by_cases h : c.val ≥ 'A'.val ∧ c.val ≤ 'Z'.val
  · rw [dif_pos h, if_pos (hupper.mp h)]
    change (c.val.toNat + 32) % 2 ^ 32 = c.val.toNat + 32
    have hle : c.val.toNat ≤ 90 := h.2
    omega
  · rw [dif_neg h, if_neg (hupper.not.mp h)]

/-! ### Strings -/

/-- `STR` of a pointer: the string ends before the first NUL. -/
def strRuntime (text : List Char) : List Char := text.takeWhile (· ≠ nul)

/-- The loop of `str_equals_with_cb`, on strings of the same size. -/
def equalsLoop (areEqual : Char → Char → Bool) : List Char → List Char → Bool
  | l :: lhs, r :: rhs => areEqual l r && equalsLoop areEqual lhs rhs
  | _, _ => true

def strEqualsWithCb (lhs rhs : List Char) (areEqual : Char → Char → Bool) : Bool :=
  lhs.length = rhs.length && equalsLoop areEqual lhs rhs

def strStartsWith (str pre : List Char) : Bool := pre.isPrefixOf str

theorem strStartsWith_singleton {str : List Char} {c : Char} :
    strStartsWith str [c] ↔ str.head? = some c := by
  cases str with
  | nil => simp [strStartsWith]
  | cons d str =>
    simp only [strStartsWith, List.isPrefixOf_cons_cons, List.isPrefixOf_nil_left, Bool.and_true,
      beq_iff_eq, List.head?_cons, Option.some.injEq]
    exact eq_comm

/-- `str_find_one` from the start of the string; `none` is the source's `-1`. -/
def strFindOne (str : List Char) (needle : Char) : Option ℕ := str.findIdx? (· = needle)

end UltraKernel
