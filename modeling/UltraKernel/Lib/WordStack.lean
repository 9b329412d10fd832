import Mathlib.Data.List.Basic
import Mathlib.Logic.Function.Basic
import Mathlib.Tactic.Ring

/-!
# A stack of words in memory

Words of 8 bytes are pushed downwards from a base.  Memory gives the word at every address, and
words at addresses of one stack do not overlap.  The words are listed in the order in which they
were pushed, so that a push appends and a pop drops the last.

* `pointer`: the stack pointer while a number of words are on the stack; it tells the numbers apart
  as long as the stack does not reach around the address space (`pointer_inj`);
* `Holds`: memory holds the words of a stack, which `Holds.push`, `Holds.set` and `Holds.take` keep;
* `Untouched`: what is outside of the deepest stack so far is unchanged.
-/

namespace UltraKernel.WordStack

/-- The number of words that fit below a base without reaching it again. -/
def capacity : ℕ := 2 ^ 61

/-- The stack pointer while `n` words are on the stack. -/
def pointer (base : BitVec 64) (n : ℕ) : BitVec 64 := base - BitVec.ofNat 64 (8 * n)

/-- The words at the addresses of the stack. -/
def Holds (mem : BitVec 64 → BitVec 64) (base : BitVec 64) (words : List (BitVec 64)) : Prop :=
  ∀ i w, words[i]? = some w → mem (pointer base (i + 1)) = w

/-- Nothing is written but the first `depth` words of a stack. -/
def Untouched (base : BitVec 64) (depth : ℕ) (mem mem' : BitVec 64 → BitVec 64) : Prop :=
  ∀ a, (∀ i < depth, a ≠ pointer base (i + 1)) → mem' a = mem a

variable {mem mem' mem'' : BitVec 64 → BitVec 64} {base : BitVec 64} {words : List (BitVec 64)}

theorem pointer_zero (base : BitVec 64) : pointer base 0 = base := BitVec.sub_zero base

theorem pointer_sub (base : BitVec 64) (n : ℕ) : pointer base n - 8 = pointer base (n + 1) := by
  have height : (8 : BitVec 64).toNat = 8 := rfl
  apply BitVec.eq_of_toNat_eq
  simp only [pointer, BitVec.toNat_sub, BitVec.toNat_ofNat, height]
  omega

/-- The address of a word above the stack pointer. -/
theorem pointer_add (base : BitVec 64) {n k : ℕ} (h : k ≤ n) :
    pointer base n + BitVec.ofNat 64 (8 * k) = pointer base (n - k) := by
  obtain ⟨m, rfl⟩ : ∃ m, n = m + k := ⟨n - k, by omega⟩
  rw [Nat.add_sub_cancel, pointer, pointer]
  apply BitVec.eq_of_toNat_eq
  simp only [BitVec.toNat_sub, BitVec.toNat_add, BitVec.toNat_ofNat]
  omega

theorem pointer_inj {i j : ℕ} (hi : i < capacity) (hj : j < capacity)
    (h : pointer base i = pointer base j) : i = j := by
  have hnat := congrArg BitVec.toNat h
  simp only [pointer, BitVec.toNat_sub, BitVec.toNat_ofNat] at hnat
  unfold capacity at hi hj
  have := base.isLt
  omega

theorem Holds.take (h : Holds mem base words) (n : ℕ) : Holds mem base (words.take n) := by
  intro i w hw
  rw [List.getElem?_take] at hw
  split_ifs at hw
  exact h i w hw

theorem Holds.left {rest : List (BitVec 64)} (h : Holds mem base (words ++ rest)) :
    Holds mem base words := by
  have hleft := h.take words.length
  rwa [List.take_left] at hleft

/-- The word that a number of words lie above, counted from the stack pointer. -/
theorem Holds.read (h : Holds mem base words) {k : ℕ} {w : BitVec 64}
    (hw : words[words.length - 1 - k]? = some w) (hk : k < words.length) :
    mem (pointer base words.length + BitVec.ofNat 64 (8 * k)) = w := by
  rw [pointer_add base hk.le]
  have hword := h _ w hw
  rwa [show words.length - 1 - k + 1 = words.length - k by omega] at hword

/-- The word at the stack pointer. -/
theorem Holds.top {w : BitVec 64} (h : Holds mem base (words ++ [w])) :
    mem (pointer base (words.length + 1)) = w := by
  refine h words.length w ?_
  rw [List.getElem?_append_right (le_refl _), Nat.sub_self]
  rfl

theorem Holds.push (h : Holds mem base words) (w : BitVec 64) (hlt : words.length + 1 < capacity) :
    Holds (Function.update mem (pointer base (words.length + 1)) w) base (words ++ [w]) := by
  intro i v hv
  rcases Nat.lt_or_ge i words.length with hi | hi
  · rw [List.getElem?_append_left hi] at hv
    rw [Function.update_of_ne]
    · exact h i v hv
    · intro heq
      have := pointer_inj (by omega) hlt heq
      omega
  · rw [List.getElem?_append_right hi, List.getElem?_singleton] at hv
    split_ifs at hv with hzero
    obtain rfl := Option.some.inj hv
    rw [show i = words.length by omega, Function.update_self]

/-- A word of the stack is overwritten. -/
theorem Holds.set (h : Holds mem base words) {i : ℕ} (w : BitVec 64) (hi : i < words.length)
    (hlt : words.length < capacity) :
    Holds (Function.update mem (pointer base (i + 1)) w) base (words.set i w) := by
  intro j v hv
  rcases eq_or_ne i j with rfl | hne
  · rw [List.getElem?_set_self hi] at hv
    rw [Function.update_self]
    exact Option.some.inj hv
  · rw [List.getElem?_set_ne hne] at hv
    have hj : j < words.length := (List.getElem?_eq_some_iff.mp hv).1
    rw [Function.update_of_ne]
    · exact h j v hv
    · intro heq
      have := pointer_inj (by omega) (by omega) heq
      omega

theorem Untouched.refl (base : BitVec 64) (depth : ℕ) (mem : BitVec 64 → BitVec 64) :
    Untouched base depth mem mem := fun _ _ => rfl

theorem Untouched.trans {depth : ℕ} (h : Untouched base depth mem mem')
    (h' : Untouched base depth mem' mem'') : Untouched base depth mem mem'' :=
  fun a ha => (h' a ha).trans (h a ha)

theorem Untouched.update {depth i : ℕ} (h : Untouched base depth mem mem') (hi : i < depth)
    (w : BitVec 64) : Untouched base depth mem (Function.update mem' (pointer base (i + 1)) w) := by
  intro a ha
  rw [Function.update_of_ne (ha i hi)]
  exact h a ha

end UltraKernel.WordStack
