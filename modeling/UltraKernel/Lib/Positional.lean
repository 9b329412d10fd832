import Mathlib.Data.Nat.Digits.Defs
import Mathlib.Tactic.Ring

/-!
# Positional numbers, most significant digit first

`accumulate` reads digits from left to right, as a program does that multiplies by the base and
adds the next digit.  Mathlib's `Nat.digits` lists digits from the least significant one.

* `accumulate_digits`: reading the digits of a number gives it back;
* `accumulate_eq`: what was read before counts for the digits that follow.
-/

namespace UltraKernel.Positional

/-- Read digits after the number `n`. -/
def accumulate (base n : ℕ) (digits : List ℕ) : ℕ := digits.foldl (fun n d => n * base + d) n

variable {base n : ℕ} {digits : List ℕ}

@[simp] theorem accumulate_nil : accumulate base n [] = n := rfl

@[simp] theorem accumulate_cons (d : ℕ) :
    accumulate base n (d :: digits) = accumulate base (n * base + d) digits := rfl

/-- **The digits that follow** move what was read to the left. -/
theorem accumulate_eq (base n : ℕ) (digits : List ℕ) :
    accumulate base n digits = n * base ^ digits.length + accumulate base 0 digits := by
  induction digits generalizing n with
  | nil => simp
  | cons d digits ih =>
    rw [accumulate_cons, accumulate_cons, ih, ih (0 * base + d), List.length_cons]
    ring

theorem le_accumulate (hbase : 0 < base) (n : ℕ) (digits : List ℕ) :
    n ≤ accumulate base n digits := by
  rw [accumulate_eq]
  exact le_add_right (Nat.le_mul_of_pos_right n (Nat.pow_pos hbase))

/-- The value, in terms of Mathlib's digit lists. -/
theorem accumulate_eq_ofDigits (base : ℕ) (digits : List ℕ) :
    accumulate base 0 digits = Nat.ofDigits base digits.reverse := by
  rw [accumulate, Nat.ofDigits_eq_foldr, List.foldr_reverse]
  congr
  funext n d
  rw [Nat.cast_id, Nat.mul_comm, Nat.add_comm]

/-- **Reading the digits of a number** gives it back. -/
theorem accumulate_digits (base n : ℕ) : accumulate base 0 (base.digits n).reverse = n := by
  rw [accumulate_eq_ofDigits, List.reverse_reverse, Nat.ofDigits_digits]

end UltraKernel.Positional
