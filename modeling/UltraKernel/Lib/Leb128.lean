import Mathlib.Data.Nat.Digits.Lemmas
import Mathlib.Tactic.Ring

/-!
# LEB128

A number is written in groups of seven bits, the least significant group first, and all bytes but the
last one are marked.  A signed number is written modulo a power of 128, with as many groups as it
takes for its sign to be the highest bit.

* `unsignedGroups_value`, `signedGroups_value`: the number that the groups stand for;
* `unsignedGroups_length_le`, `signedGroups_length_le`: the number of groups;
* `signedGroups_range`: the numbers that a number of groups can stand for.
-/

namespace UltraKernel.Leb128

/-- The bytes of the groups: all but the last are marked. -/
def marked : List ℕ → List ℕ
  | [] => []
  | [g] => [g]
  | g :: h :: groups => (g + 128) :: marked (h :: groups)

/-- The groups of a natural number. -/
def unsignedGroups (v : ℕ) : List ℕ := if v = 0 then [0] else Nat.digits 128 v

/-- The groups of an integer in two's complement. -/
def signedGroups (z : ℤ) : List ℕ :=
  if -64 ≤ z ∧ z < 64 then [(z % 128).toNat] else (z % 128).toNat :: signedGroups (z / 128)
termination_by z.natAbs
decreasing_by omega

/-- The shortest encoding of a natural number. -/
def uleb128 (v : ℕ) : List ℕ := marked (unsignedGroups v)

/-- The shortest encoding of an integer. -/
def sleb128 (z : ℤ) : List ℕ := marked (signedGroups z)

@[simp] theorem marked_length (groups : List ℕ) : (marked groups).length = groups.length := by
  induction groups using marked.induct with
  | case1 => rfl
  | case2 g => rfl
  | case3 g h groups ih =>
    rw [marked, List.length_cons, ih]
    rfl

theorem marked_lt {groups : List ℕ} (h : ∀ g ∈ groups, g < 128) : ∀ b ∈ marked groups, b < 256 := by
  induction groups using marked.induct with
  | case1 => simp [marked]
  | case2 g =>
    intro b hb
    obtain rfl := List.mem_singleton.mp hb
    exact (h b (List.mem_singleton_self b)).trans (by decide)
  | case3 g k groups ih =>
    intro b hb
    rw [marked, List.mem_cons] at hb
    rcases hb with rfl | hb
    · have hg := h g List.mem_cons_self
      omega
    · exact ih (fun d hd => h d (List.mem_cons_of_mem _ hd)) b hb

/-! ### Natural numbers -/

theorem unsignedGroups_ne_nil (v : ℕ) : unsignedGroups v ≠ [] := by
  rw [unsignedGroups]
  split_ifs with hv
  · exact List.cons_ne_nil _ _
  · exact Nat.digits_ne_nil_iff_ne_zero.mpr hv

theorem unsignedGroups_lt (v : ℕ) : ∀ g ∈ unsignedGroups v, g < 128 := by
  rw [unsignedGroups]
  split_ifs
  · simp
  · exact fun g => Nat.digits_lt_base (by decide)

/-- **The value** of the groups. -/
theorem unsignedGroups_value (v : ℕ) : Nat.ofDigits 128 (unsignedGroups v) = v := by
  rw [unsignedGroups]
  split_ifs with hv
  · rw [hv]
    rfl
  · exact Nat.ofDigits_digits 128 v

/-- **The number of groups** is the least that is enough. -/
theorem unsignedGroups_length_le {v n : ℕ} (hn : 0 < n) :
    (unsignedGroups v).length ≤ n ↔ v < 128 ^ n := by
  rw [unsignedGroups]
  split_ifs with hv
  · rw [hv]
    exact iff_of_true hn (Nat.pow_pos (by decide))
  · exact Nat.digits_length_le_iff (by decide) v

/-! ### Integers -/

theorem signedGroups_short {z : ℤ} (h : -64 ≤ z ∧ z < 64) : signedGroups z = [(z % 128).toNat] := by
  rw [signedGroups, if_pos h]

theorem signedGroups_long {z : ℤ} (h : ¬ (-64 ≤ z ∧ z < 64)) :
    signedGroups z = (z % 128).toNat :: signedGroups (z / 128) := by
  rw [signedGroups, if_neg h]

theorem signedGroups_ne_nil (z : ℤ) : signedGroups z ≠ [] := by
  rw [signedGroups]
  split_ifs
  · exact List.cons_ne_nil _ _
  · exact List.cons_ne_nil _ _

theorem signedGroups_lt (z : ℤ) : ∀ g ∈ signedGroups z, g < 128 := by
  have hgroup : ∀ z : ℤ, (z % 128).toNat < 128 := by omega
  induction z using signedGroups.induct with
  | case1 z hshort =>
    intro g hg
    rw [signedGroups_short hshort, List.mem_singleton] at hg
    exact hg ▸ hgroup z
  | case2 z hlong ih =>
    intro g hg
    rw [signedGroups_long hlong, List.mem_cons] at hg
    rcases hg with rfl | hg
    · exact hgroup z
    · exact ih g hg

/-- **The value** of the groups, modulo the power that they have room for. -/
theorem signedGroups_value (z : ℤ) :
    ((Nat.ofDigits 128 (signedGroups z) : ℕ) : ℤ) = z % 128 ^ (signedGroups z).length := by
  induction z using signedGroups.induct with
  | case1 z hshort =>
    rw [signedGroups_short hshort, Nat.ofDigits_singleton, List.length_singleton, pow_one]
    omega
  | case2 z hlong ih =>
    rw [signedGroups_long hlong, Nat.ofDigits_cons, List.length_cons, pow_succ']
    rw [Nat.cast_add, Nat.cast_mul, ih, Int.emod_def (z / 128), Int.emod_def z (128 * _),
      ← Int.ediv_ediv_of_nonneg (by decide), mul_assoc]
    omega

/-- **The range** of the integers with a number of groups. -/
theorem signedGroups_range (z : ℤ) :
    -128 ^ (signedGroups z).length ≤ 2 * z ∧ 2 * z < 128 ^ (signedGroups z).length := by
  induction z using signedGroups.induct with
  | case1 z hshort =>
    rw [signedGroups_short hshort, List.length_singleton, pow_one]
    omega
  | case2 z hlong ih =>
    -- the bound of the groups that follow is even
    have heven : (128 : ℤ) ^ (signedGroups (z / 128)).length % 2 = 0 := by
      have hpos := List.length_pos_iff.mpr (signedGroups_ne_nil (z / 128))
      exact Int.emod_eq_zero_of_dvd (dvd_pow (by decide) (Nat.pos_iff_ne_zero.mp hpos))
    rw [signedGroups_long hlong, List.length_cons, pow_succ]
    omega

/-- **The number of groups** is the least whose range has the integer. -/
theorem signedGroups_length_le {z : ℤ} {n : ℕ} (hn : 0 < n) (hlow : -128 ^ n ≤ 2 * z)
    (hhigh : 2 * z < 128 ^ n) : (signedGroups z).length ≤ n := by
  induction n generalizing z with
  | zero => exact absurd hn (Nat.lt_irrefl 0)
  | succ n ih =>
    by_cases hshort : -64 ≤ z ∧ z < 64
    · rw [signedGroups_short hshort]
      exact hn
    · rw [signedGroups_long hshort, List.length_cons]
      rw [pow_succ] at hlow hhigh
      cases n with
      | zero =>
        rw [pow_zero] at hlow hhigh
        omega
      | succ n => exact Nat.succ_le_succ (ih (Nat.succ_pos n) (by omega) (by omega))

end UltraKernel.Leb128
