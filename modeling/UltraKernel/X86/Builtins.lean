import UltraKernel.Lib.LongDivision
import UltraKernel.Lib.Outcome
import UltraKernel.Lib.Word

/-!
# 64-bit division on 32-bit machines, as `builtins.c` computes it

A pointer `c` is what it points to, or nothing if it is NULL.

* `divisionLoop_divided`: the loop of the long division keeps its partial quotient and remainder;
* `do64bitDivision_exact`: the long division is exact, of all numbers that are not 0;
* `udivmoddi4_exact`: so is the division with its fast paths.
-/

namespace UltraKernel.X86

open Outcome LongDivision

/-- What a division may not come to. -/
inductive DivisionBug where
  | divisor
  | clzOfZero
  deriving DecidableEq, Repr

/-- `QWORD_HI` -/
def qwordHi (x : BitVec 64) : BitVec 32 := ((x &&& 0xFFFFFFFF00000000) >>> 32).setWidth 32

/-- `QWORD_LO` -/
def qwordLo (x : BitVec 64) : BitVec 32 := (x &&& 0x00000000FFFFFFFF).setWidth 32

/-- `if (c) *c = value` -/
def storeAt (c : Option (BitVec 64)) (value : BitVec 64) : Option (BitVec 64) := c.map fun _ => value

/-- `__builtin_clzll`, which is not defined on 0. -/
def builtinClzll (a : BitVec 64) : Outcome DivisionBug ℕ :=
  if a = 0 then .halt .clzOfZero else .done a.clz.toNat

/-- The variables of `do_64bit_division`. -/
structure Division where
  quotient : BitVec 64
  remainder : BitVec 64
  deriving DecidableEq, Repr

/-- One round of the loop of `do_64bit_division`. -/
def divisionRound (a b : BitVec 64) (bit : ℕ) (s : Division) : Division :=
  let remainder := s.remainder <<< 1 ||| ((a >>> bit) &&& 1)
  if b ≤ remainder then ⟨s.quotient ||| (1 : BitVec 64) <<< bit, remainder - b⟩ else ⟨s.quotient, remainder⟩

/-- The loop `while (bit-- > 0)`. -/
def divisionLoop (a b : BitVec 64) : ℕ → Division → Division
  | 0, s => s
  | bit + 1, s => divisionLoop a b bit (divisionRound a b bit s)

/-- The remainders that the loop shifts. -/
def shiftedRemainders (a b : BitVec 64) : ℕ → Division → List (BitVec 64)
  | 0, _ => []
  | bit + 1, s => s.remainder :: shiftedRemainders a b bit (divisionRound a b bit s)

def do64bitDivision (a b : BitVec 64) (c : Option (BitVec 64)) :
    Outcome DivisionBug (BitVec 64 × Option (BitVec 64)) := do
  let zeros ← builtinClzll a
  let s := divisionLoop a b (64 - zeros) ⟨0, 0⟩
  return (s.quotient, storeAt c s.remainder)

/-- `__udivmoddi4` -/
def udivmoddi4 (a b : BitVec 64) (c : Option (BitVec 64)) :
    Outcome DivisionBug (BitVec 64 × Option (BitVec 64)) :=
  if b > a then .done (0, storeAt c a)
  else if b = a then .done (1, storeAt c 0)
  else if qwordHi b = 0 then
    if b = 0 then .halt .divisor
    else if b = 1 then .done (a, storeAt c 0)
    else if qwordHi a = 0 then
      let loA := qwordLo a
      let loB := qwordLo b
      .done ((loA / loB).setWidth 64, storeAt c ((loA % loB).setWidth 64))
    else do64bitDivision a b c
  else do64bitDivision a b c

/-- `__umoddi3`, whose local variable is not initialised. -/
def umoddi3 (uninitialised a b : BitVec 64) : Outcome DivisionBug (BitVec 64) := do
  let (_, c) ← udivmoddi4 a b (some uninitialised)
  return c.getD uninitialised

/-- `__udivdi3` -/
def udivdi3 (a b : BitVec 64) : Outcome DivisionBug (BitVec 64) := do
  let (quotient, _) ← udivmoddi4 a b none
  return quotient

/-! ### The long division -/

/-- The words of the loop, as numbers. -/
def Division.Holds (a b : BitVec 64) (bit : ℕ) (s : Division) : Prop :=
  Divided a.toNat b.toNat bit s.quotient.toNat s.remainder.toNat

section LongDivision

variable {a b : BitVec 64} {bit : ℕ} {s : Division}

/-- **No bit is lost** when the remainder is shifted: it is at most half of the bits taken in. -/
theorem Division.Holds.remainder_lt (h : s.Holds a b (bit + 1)) : s.remainder.toNat < 2 ^ 63 := by
  have hle := h.shifted_le
  have hbits := Nat.div_le_self a.toNat (2 ^ bit)
  have ha := a.isLt
  omega

/-- The shifted remainder with the next bit, as a number. -/
theorem Division.Holds.shifted (h : s.Holds a b (bit + 1)) :
    (s.remainder <<< 1 ||| ((a >>> bit) &&& 1)).toNat =
      2 * s.remainder.toNat + a.toNat / 2 ^ bit % 2 := by
  have hlt := h.remainder_lt
  have hshift : (s.remainder <<< 1).toNat = 2 ^ 1 * s.remainder.toNat := by
    rw [BitVec.toNat_shiftLeft, Nat.shiftLeft_eq]
    omega
  have hdigit : ((a >>> bit) &&& 1).toNat = a.toNat / 2 ^ bit % 2 := by
    rw [BitVec.toNat_and, BitVec.toNat_ushiftRight, Nat.shiftRight_eq_div_pow]
    exact Nat.and_two_pow_sub_one_eq_mod _ 1
  have hsmall : a.toNat / 2 ^ bit % 2 < 2 ^ 1 := Nat.mod_lt _ (by decide)
  rw [BitVec.toNat_or, hshift, hdigit, ← Nat.two_pow_add_eq_or_of_lt hsmall, pow_one]

/-- A bit of the quotient, as a number. -/
theorem Division.Holds.quotient_or (h : s.Holds a b (bit + 1)) (hbit : bit < 64) :
    (s.quotient ||| (1 : BitVec 64) <<< bit).toNat = s.quotient.toNat + 2 ^ bit := by
  obtain ⟨k, hk⟩ := h.quotient_dvd
  have hone : ((1 : BitVec 64) <<< bit).toNat = 2 ^ bit := by
    rw [BitVec.toNat_shiftLeft, Nat.shiftLeft_eq]
    show 1 * 2 ^ bit % 2 ^ 64 = 2 ^ bit
    rw [Nat.one_mul]
    exact Nat.mod_eq_of_lt (Nat.pow_lt_pow_right (by decide) hbit)
  have hlt : 2 ^ bit < 2 ^ (bit + 1) := Nat.pow_lt_pow_right (by decide) (Nat.lt_succ_self bit)
  rw [BitVec.toNat_or, hone, hk, ← Nat.two_pow_add_eq_or_of_lt hlt]

/-- **A round** takes in one bit. -/
theorem divisionRound_holds (h : s.Holds a b (bit + 1)) (hb : b ≠ 0) (hbit : bit < 64) :
    (divisionRound a b bit s).Holds a b bit := by
  have hpos : 0 < b.toNat := Nat.pos_of_ne_zero fun hzero => hb (BitVec.eq_of_toNat_eq hzero)
  have hshifted := h.shifted
  have hquotient := h.quotient_or hbit
  rw [divisionRound]
  generalize s.remainder <<< 1 ||| ((a >>> bit) &&& 1) = remainder at hshifted ⊢
  by_cases hle : b ≤ remainder
  · rw [if_pos hle]
    have hsub : (remainder - b).toNat = remainder.toNat - b.toNat := BitVec.toNat_sub_of_le hle
    rw [BitVec.le_def, hshifted] at hle
    rw [Division.Holds, hquotient, hsub, hshifted]
    exact Divided.subtract h hpos hle
  · rw [if_neg hle]
    rw [BitVec.le_def, hshifted, not_le] at hle
    rw [Division.Holds, hshifted]
    exact Divided.keep h hle

/-- **The loop** takes in all bits that are left. -/
theorem divisionLoop_divided (h : s.Holds a b bit) (hb : b ≠ 0) (hbit : bit ≤ 64) :
    (divisionLoop a b bit s).Holds a b 0 := by
  induction bit generalizing s with
  | zero => exact h
  | succ bit ih => exact ih (divisionRound_holds h hb (by omega)) (by omega)

theorem shiftedRemainders_msb (h : s.Holds a b bit) (hb : b ≠ 0) (hbit : bit ≤ 64) :
    ∀ r ∈ shiftedRemainders a b bit s, r.msb = false := by
  induction bit generalizing s with
  | zero =>
    intro r hr
    exact absurd hr List.not_mem_nil
  | succ bit ih =>
    intro r hr
    rcases List.mem_cons.mp hr with rfl | hr
    · exact BitVec.msb_eq_false_iff_two_mul_lt.mpr (by have := h.remainder_lt; omega)
    · exact ih (divisionRound_holds h hb (by omega)) (by omega) r hr

/-- The state before the first round. -/
theorem division_start (a b : BitVec 64) : Division.Holds a b (64 - a.clz.toNat) ⟨0, 0⟩ :=
  Divided.start b.toNat BitVec.toNat_lt_two_pow_sub_clz

/-- **The long division is exact.** -/
theorem do64bitDivision_exact (ha : a ≠ 0) (hb : b ≠ 0) (c : Option (BitVec 64)) :
    do64bitDivision a b c = .done (a / b, storeAt c (a % b)) := by
  have hholds := divisionLoop_divided (division_start a b) hb (Nat.sub_le _ _)
  obtain ⟨hquotient, hremainder⟩ := hholds.exact
  rw [do64bitDivision, builtinClzll, if_neg ha, done_bind]
  dsimp only
  rw [BitVec.eq_of_toNat_eq (hquotient.trans BitVec.toNat_udiv.symm),
    BitVec.eq_of_toNat_eq (hremainder.trans BitVec.toNat_umod.symm)]
  rfl

end LongDivision

/-! ### The fast paths -/

section Fast

variable {a b : BitVec 64}

theorem qwordHi_toNat (x : BitVec 64) : (qwordHi x).toNat = x.toNat / 2 ^ 32 := by
  have hlt := x.isLt
  have hmask : x.toNat &&& (2 ^ 64 - 2 ^ 32) = x.toNat - x.toNat % 2 ^ 32 :=
    Word.and_high_mask hlt (by decide)
  have hhigh : (x &&& 0xFFFFFFFF00000000).toNat = x.toNat - x.toNat % 2 ^ 32 := hmask
  rw [qwordHi, BitVec.toNat_setWidth, BitVec.toNat_ushiftRight, hhigh, Nat.shiftRight_eq_div_pow]
  omega

theorem qwordLo_toNat (x : BitVec 64) : (qwordLo x).toNat = x.toNat % 2 ^ 32 := by
  have hmask : x.toNat &&& (2 ^ 32 - 1) = x.toNat % 2 ^ 32 := Nat.and_two_pow_sub_one_eq_mod _ 32
  have hlow : (x &&& 0x00000000FFFFFFFF).toNat = x.toNat % 2 ^ 32 := hmask
  rw [qwordLo, BitVec.toNat_setWidth, hlow, Nat.mod_mod]

/-- A word without its upper half is its lower half. -/
theorem qwordLo_of_qwordHi {x : BitVec 64} (h : qwordHi x = 0) : (qwordLo x).toNat = x.toNat := by
  have hzero : (qwordHi x).toNat = 0 := congrArg BitVec.toNat h
  rw [qwordHi_toNat] at hzero
  rw [qwordLo_toNat]
  omega

/-- **The division of the lower halves** is that of the words. -/
theorem halves_exact (ha : qwordHi a = 0) (hb : qwordHi b = 0) :
    (qwordLo a / qwordLo b).setWidth 64 = a / b ∧ (qwordLo a % qwordLo b).setWidth 64 = a % b := by
  have hloA := qwordLo_of_qwordHi ha
  have hloB := qwordLo_of_qwordHi hb
  have hword : ∀ y : BitVec 32, (y.setWidth 64).toNat = y.toNat := by
    intro y
    rw [BitVec.toNat_setWidth]
    exact Nat.mod_eq_of_lt (y.isLt.trans (by decide))
  constructor
  · apply BitVec.eq_of_toNat_eq
    rw [hword, BitVec.toNat_udiv, BitVec.toNat_udiv, hloA, hloB]
  · apply BitVec.eq_of_toNat_eq
    rw [hword, BitVec.toNat_umod, BitVec.toNat_umod, hloA, hloB]

theorem udivmoddi4_eq (hb : b ≠ 0) (c : Option (BitVec 64)) :
    udivmoddi4 a b c = .done (a / b, storeAt c (a % b)) := by
  have hpos : 0 < b.toNat := Nat.pos_of_ne_zero fun hzero => hb (BitVec.eq_of_toNat_eq hzero)
  rw [udivmoddi4]
  by_cases hlt : b > a
  · rw [if_pos hlt]
    have hdiv : a / b = 0 := BitVec.eq_of_toNat_eq (Nat.div_eq_of_lt hlt)
    have hmod : a % b = a := BitVec.eq_of_toNat_eq (Nat.mod_eq_of_lt hlt)
    rw [hdiv, hmod]
  · rw [if_neg hlt]
    by_cases heq : b = a
    · rw [if_pos heq, heq]
      rw [heq] at hpos
      have hdiv : a / a = 1 := BitVec.eq_of_toNat_eq (Nat.div_self hpos)
      have hmod : a % a = 0 := BitVec.eq_of_toNat_eq (Nat.mod_self a.toNat)
      rw [hdiv, hmod]
    · rw [if_neg heq]
      have ha : a ≠ 0 := by
        intro hzero
        rw [hzero] at hlt
        exact hlt hpos
      by_cases hhi : qwordHi b = 0
      · rw [if_pos hhi, if_neg hb]
        by_cases hone : b = 1
        · have hdiv : a / 1 = a := BitVec.eq_of_toNat_eq (Nat.div_one a.toNat)
          have hmod : a % 1 = 0 := BitVec.eq_of_toNat_eq (Nat.mod_one a.toNat)
          rw [if_pos hone, hone, hdiv, hmod]
        · rw [if_neg hone]
          by_cases hhiA : qwordHi a = 0
          · obtain ⟨hdiv, hmod⟩ := halves_exact hhiA hhi
            rw [if_pos hhiA]
            dsimp only
            rw [hdiv, hmod]
          · rw [if_neg hhiA]
            exact do64bitDivision_exact ha hb c
      · rw [if_neg hhi]
        exact do64bitDivision_exact ha hb c

/-- **The division is exact**, by the fast paths as by the long division that they bypass, with a
remainder to store or without; and the long division loses no bit of a remainder that it shifts. -/
theorem udivmoddi4_exact (hb : b ≠ 0) (c : Option (BitVec 64)) (uninitialised : BitVec 64) :
    udivmoddi4 a b c = .done (a / b, storeAt c (a % b)) ∧
      (a ≠ 0 → do64bitDivision a b c = udivmoddi4 a b c) ∧
      (∀ r ∈ shiftedRemainders a b (64 - a.clz.toNat) ⟨0, 0⟩, r.msb = false) ∧
      umoddi3 uninitialised a b = .done (a % b) ∧ udivdi3 a b = .done (a / b) := by
  refine ⟨udivmoddi4_eq hb c, ?_, ?_, ?_, ?_⟩
  · intro ha
    rw [do64bitDivision_exact ha hb, udivmoddi4_eq hb]
  · exact shiftedRemainders_msb (division_start a b) hb (Nat.sub_le _ _)
  · rw [umoddi3, udivmoddi4_eq hb]
    rfl
  · rw [udivdi3, udivmoddi4_eq hb]
    rfl

/-- A divisor above `2 ^ 63`, whose remainders come close to it. -/
theorem udivmoddi4_exact_largest :
    udivmoddi4 0xFFFFFFFFFFFFFFFF 0x8000000000000001 (some 0) =
      .done (1, some 0x7FFFFFFFFFFFFFFE) :=
  (udivmoddi4_exact (a := 0xFFFFFFFFFFFFFFFF) (b := 0x8000000000000001) (by decide) (some 0) 0).1

end Fast

end UltraKernel.X86
