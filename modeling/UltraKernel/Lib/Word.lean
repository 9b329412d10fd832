import Mathlib.Data.Nat.Bitwise
import Mathlib.Tactic.Ring

/-!
# Unsigned words as natural numbers

A 64-bit unsigned value is a natural number below `2 ^ 64`; the arithmetic of the language reduces
modulo `2 ^ 64`.  The lemmas turn the reductions and the bit masks of a program into plain
arithmetic wherever nothing wraps.
-/

namespace UltraKernel.Word

/-- Addition of 64-bit words. -/
def add64 (a b : ℕ) : ℕ := (a + b) % 2 ^ 64

/-- Subtraction of 64-bit words: a negative difference wraps. -/
def sub64 (a b : ℕ) : ℕ := (a + (2 ^ 64 - b % 2 ^ 64)) % 2 ^ 64

/-- Multiplication of 64-bit words. -/
def mul64 (a b : ℕ) : ℕ := (a * b) % 2 ^ 64

theorem add64_of_lt {a b : ℕ} (h : a + b < 2 ^ 64) : add64 a b = a + b := Nat.mod_eq_of_lt h

theorem add64_lt (a b : ℕ) : add64 a b < 2 ^ 64 := Nat.mod_lt _ (by decide)

theorem sub64_of_le {a b : ℕ} (h : b ≤ a) (ha : a < 2 ^ 64) : sub64 a b = a - b := by
  unfold sub64
  omega

theorem mul64_of_lt {a b : ℕ} (h : a * b < 2 ^ 64) : mul64 a b = a * b := Nat.mod_eq_of_lt h

theorem mul64_lt (a b : ℕ) : mul64 a b < 2 ^ 64 := Nat.mod_lt _ (by decide)

/-- Clearing the low `j` bits of a `k`-bit word. -/
theorem and_high_mask {n j k : ℕ} (h : n < 2 ^ k) (hjk : j ≤ k) :
    n &&& (2 ^ k - 2 ^ j) = n - n % 2 ^ j := by
  have hmask : 2 ^ k - 2 ^ j = 2 ^ j * (2 ^ (k - j) - 1) := by
    rw [Nat.mul_sub, ← pow_add, Nat.add_sub_cancel' hjk, mul_one]
  have hdiv : n - n % 2 ^ j = 2 ^ j * (n / 2 ^ j) := by
    have := Nat.div_add_mod n (2 ^ j)
    omega
  rw [hmask, hdiv]
  apply Nat.eq_of_testBit_eq
  intro i
  rw [Nat.testBit_and, Nat.testBit_two_pow_mul, Nat.testBit_two_pow_mul, Nat.testBit_two_pow_sub_one,
    Nat.testBit_div_two_pow]
  by_cases hij : j ≤ i
  · by_cases hik : i - j < k - j
    · simp [hij, hik, show i - j + j = i by omega]
    · have hbit : n.testBit i = false := Nat.testBit_lt_two_pow (h.trans_le
        (Nat.pow_le_pow_right (by decide) (by omega)))
      simp [hij, hik, hbit, show i - j + j = i by omega]
  · simp [hij]

end UltraKernel.Word
