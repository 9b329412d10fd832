import Mathlib.Data.Nat.Bitwise
import Mathlib.Tactic.Ring

/-!
# Long division, one bit of the dividend after the other

The bits of the dividend are taken in from the highest to the lowest.  The quotient of the bits
taken in stands at its final place, above the bits that are left.

* `Divided.shifted_le`: a remainder with the next bit is not above the bits taken in;
* `Divided.subtract`, `Divided.keep`: a round that subtracts the divisor, and one that does not;
* `Divided.exact`: after the last bit, the quotient and the remainder.
-/

namespace UltraKernel.LongDivision

/-- The bits of `a` from `bit` on have been divided by `b`. -/
structure Divided (a b bit quotient remainder : ℕ) : Prop where
  quotient_eq : quotient = a / 2 ^ bit / b * 2 ^ bit
  remainder_eq : remainder = a / 2 ^ bit % b

variable {a b bit quotient remainder : ℕ}

/-- The bits from `bit` on are those above it and one more. -/
theorem next_bit (a bit : ℕ) : a / 2 ^ bit = 2 * (a / 2 ^ (bit + 1)) + a / 2 ^ bit % 2 := by
  rw [pow_succ, ← Nat.div_div_eq_div_mul]
  omega

theorem Divided.start (b : ℕ) (h : a < 2 ^ bit) : Divided a b bit 0 0 := by
  constructor
  · rw [Nat.div_eq_of_lt h, Nat.zero_div, Nat.zero_mul]
  · rw [Nat.div_eq_of_lt h, Nat.zero_mod]

theorem Divided.remainder_lt (h : Divided a b bit quotient remainder) (hb : 0 < b) :
    remainder < b := by
  rw [h.remainder_eq]
  exact Nat.mod_lt _ hb

/-- **The shifted remainder** is not above the bits that are taken in. -/
theorem Divided.shifted_le (h : Divided a b (bit + 1) quotient remainder) :
    2 * remainder + a / 2 ^ bit % 2 ≤ a / 2 ^ bit := by
  have hbit := next_bit a bit
  have hle := Nat.mod_le (a / 2 ^ (bit + 1)) b
  rw [h.remainder_eq]
  omega

theorem Divided.quotient_dvd (h : Divided a b bit quotient remainder) : 2 ^ bit ∣ quotient := by
  rw [h.quotient_eq]
  exact Nat.dvd_mul_left _ _

/-- The bits from `bit` on, in terms of the quotient and the remainder of those above it. -/
theorem Divided.bits (h : Divided a b (bit + 1) quotient remainder) :
    a / 2 ^ bit = b * (2 * (a / 2 ^ (bit + 1) / b)) + (2 * remainder + a / 2 ^ bit % 2) := by
  have hbit := next_bit a bit
  have hdiv := Nat.div_add_mod (a / 2 ^ (bit + 1)) b
  rw [h.remainder_eq]
  calc a / 2 ^ bit = 2 * (a / 2 ^ (bit + 1)) + a / 2 ^ bit % 2 := hbit
    _ = 2 * (b * (a / 2 ^ (bit + 1) / b) + a / 2 ^ (bit + 1) % b) + a / 2 ^ bit % 2 := by rw [hdiv]
    _ = _ := by ring

/-- **The divisor does not fit** into the shifted remainder. -/
theorem Divided.keep (h : Divided a b (bit + 1) quotient remainder)
    (hlt : 2 * remainder + a / 2 ^ bit % 2 < b) :
    Divided a b bit quotient (2 * remainder + a / 2 ^ bit % 2) := by
  have hb : 0 < b := Nat.zero_lt_of_lt hlt
  obtain ⟨hquotient, hremainder⟩ :=
    (Nat.div_mod_unique hb).mpr ⟨(Nat.add_comm _ _).trans h.bits.symm, hlt⟩
  constructor
  · rw [h.quotient_eq, hquotient, pow_succ]
    ring
  · exact hremainder.symm

/-- **The divisor is subtracted** from the shifted remainder. -/
theorem Divided.subtract (h : Divided a b (bit + 1) quotient remainder) (hb : 0 < b)
    (hle : b ≤ 2 * remainder + a / 2 ^ bit % 2) :
    Divided a b bit (quotient + 2 ^ bit) (2 * remainder + a / 2 ^ bit % 2 - b) := by
  have hsmall := h.remainder_lt hb
  have hbits := h.bits
  have hlt : 2 * remainder + a / 2 ^ bit % 2 - b < b := by omega
  have hsum : 2 * remainder + a / 2 ^ bit % 2 - b + b * (2 * (a / 2 ^ (bit + 1) / b) + 1) =
      a / 2 ^ bit := by
    rw [Nat.mul_add, Nat.mul_one]
    omega
  obtain ⟨hquotient, hremainder⟩ := (Nat.div_mod_unique hb).mpr ⟨hsum, hlt⟩
  constructor
  · rw [h.quotient_eq, hquotient, pow_succ]
    ring
  · exact hremainder.symm

/-- **No bit is left**: the quotient and the remainder. -/
theorem Divided.exact (h : Divided a b 0 quotient remainder) :
    quotient = a / b ∧ remainder = a % b := by
  constructor
  · rw [h.quotient_eq, pow_zero, Nat.div_one, Nat.mul_one]
  · rw [h.remainder_eq, pow_zero, Nat.div_one]

end UltraKernel.LongDivision
