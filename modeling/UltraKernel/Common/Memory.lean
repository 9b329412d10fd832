import UltraKernel.Lib.CellCopy
import Mathlib.Algebra.Group.Nat.Defs
import Mathlib.Tactic.SplitIfs

/-!
# The memory functions, as `common/string.c` computes them

A pointer is a word of 64 bits, and the memory has a byte at each.

* `memcpyLoop_copied`, `memmoveLoop_copied`: the loops copy, if they run away from what is still to
  be read;
* `memmove_moves`: `memmove` copies whatever the overlap;
* `memset_fills`, `memcmp_orders`: what is filled, and how regions compare.
-/

namespace UltraKernel

/-- The bytes of the memory, by their addresses. -/
abbrev Bytes := BitVec 64 → BitVec 8

/-- The loop `*cd++ = *cs++`, as often as `count` says. -/
def memcpyLoop : ℕ → BitVec 64 → BitVec 64 → Bytes → Bytes
  | 0, _, _, mem => mem
  | count + 1, cd, cs, mem =>
    memcpyLoop count (cd + 1) (cs + 1) (Function.update mem cd (mem cs))

/-- The pointer that is returned, and the memory. -/
def memcpy (dest src count : BitVec 64) (mem : Bytes) : BitVec 64 × Bytes :=
  (dest, memcpyLoop count.toNat dest src mem)

/-- The loop `*--cd = *--cs`, as often as `count` says. -/
def memmoveLoop : ℕ → BitVec 64 → BitVec 64 → Bytes → Bytes
  | 0, _, _, mem => mem
  | count + 1, cd, cs, mem =>
    memmoveLoop count (cd - 1) (cs - 1) (Function.update mem (cd - 1) (mem (cs - 1)))

def memmove (dest src count : BitVec 64) (mem : Bytes) : BitVec 64 × Bytes :=
  if src < dest then (dest, memmoveLoop count.toNat (dest + count) (src + count) mem)
  else (dest, (memcpy dest src count mem).2)

/-- The loop `*cdest++ = fill`, as often as `count` says. -/
def memsetLoop (fill : BitVec 8) : ℕ → BitVec 64 → Bytes → Bytes
  | 0, _, mem => mem
  | count + 1, cdest, mem => memsetLoop fill count (cdest + 1) (Function.update mem cdest fill)

/-- Of `ch`, an `int`, one byte is taken. -/
def memset (dest : BitVec 64) (ch : BitVec 32) (count : BitVec 64) (mem : Bytes) : BitVec 64 × Bytes :=
  (dest, memsetLoop (ch.setWidth 8) count.toNat dest mem)

/-- The loop of `memcmp`, over what is left of the regions. -/
def memcmpLoop (mem : Bytes) : ℕ → BitVec 64 → BitVec 64 → ℤ
  | 0, _, _ => 0
  | left + 1, lhs, rhs =>
    if mem lhs ≠ mem rhs then ((mem lhs).toNat : ℤ) - (mem rhs).toNat
    else memcmpLoop mem left (lhs + 1) (rhs + 1)

def memcmp (lhs rhs count : BitVec 64) (mem : Bytes) : ℤ := memcmpLoop mem count.toNat lhs rhs

/-! ### Addresses -/

/-- The address of the byte at an offset. -/
def byteAt (p : BitVec 64) (i : ℕ) : BitVec 64 := p + BitVec.ofNat 64 i

section Addresses

variable {p : BitVec 64} {i j : ℕ}

theorem byteAt_zero (p : BitVec 64) : byteAt p 0 = p := BitVec.add_zero p

theorem byteAt_byteAt (p : BitVec 64) (i j : ℕ) : byteAt (byteAt p i) j = byteAt p (i + j) := by
  rw [byteAt, byteAt, byteAt, BitVec.add_assoc, BitVec.ofNat_add]

theorem byteAt_succ (p : BitVec 64) (i : ℕ) : byteAt p i + 1 = byteAt p (i + 1) :=
  byteAt_byteAt p i 1

theorem byteAt_pred (p : BitVec 64) (i : ℕ) : byteAt p (i + 1) - 1 = byteAt p i := by
  rw [← byteAt_succ, BitVec.add_sub_cancel]

theorem byteAt_toNat (h : p.toNat + i < 2 ^ 64) : (byteAt p i).toNat = p.toNat + i := by
  have hi : i < 2 ^ 64 := by omega
  rw [byteAt, BitVec.toNat_add, BitVec.toNat_ofNat, Nat.mod_eq_of_lt hi, Nat.mod_eq_of_lt h]

theorem byteAt_count (p count : BitVec 64) : p + count = byteAt p count.toNat := by
  rw [byteAt, BitVec.ofNat_toNat, BitVec.setWidth_eq]

end Addresses

/-! ### Copies -/

section Copies

variable {dest src : BitVec 64} {n : ℕ} {before : Bytes}

/-- Bytes of one region do not share an address. -/
theorem byteAt_ne {p : BitVec 64} {i j : ℕ} (hi : p.toNat + i < 2 ^ 64) (hj : p.toNat + j < 2 ^ 64)
    (hij : i ≠ j) : byteAt p i ≠ byteAt p j := by
  intro heq
  have hnat := congrArg BitVec.toNat heq
  rw [byteAt_toNat hi, byteAt_toNat hj] at hnat
  omega

/-- A byte of the source is not one of the destination. -/
theorem byteAt_src_ne {i k : ℕ} (hi : dest.toNat + i < 2 ^ 64) (hk : src.toNat + k < 2 ^ 64)
    (hne : src.toNat + k ≠ dest.toNat + i) : byteAt src k ≠ byteAt dest i := by
  intro heq
  have hnat := congrArg BitVec.toNat heq
  rw [byteAt_toNat hi, byteAt_toNat hk] at hnat
  exact hne hnat

/-- **Forwards**: every byte is read before it is written, if the destination is not above the
source. -/
theorem memcpyLoop_copied (hdest : dest.toNat + n ≤ 2 ^ 64) (hsrc : src.toNat + n ≤ 2 ^ 64)
    (hbelow : dest.toNat ≤ src.toNat ∨ src.toNat + n ≤ dest.toNat) {count k : ℕ} {mem : Bytes}
    (hcount : k + count = n) (h : Copied (byteAt dest) (byteAt src) before mem 0 k) :
    Copied (byteAt dest) (byteAt src) before
      (memcpyLoop count (byteAt dest k) (byteAt src k) mem) 0 n := by
  induction count generalizing k mem with
  | zero =>
    rw [Nat.add_zero] at hcount
    rw [← hcount]
    exact h
  | succ count ih =>
    rw [memcpyLoop, byteAt_succ, byteAt_succ]
    refine ih (by omega) (h.up (Nat.zero_le k) (fun i _ hi => ?_) fun i _ hi => ?_)
    · exact byteAt_src_ne (by omega) (by omega) (by omega)
    · exact byteAt_ne (by omega) (by omega) (by omega)

/-- **Backwards**, if the source is below the destination. -/
theorem memmoveLoop_copied (hdest : dest.toNat + n ≤ 2 ^ 64) (hbelow : src.toNat < dest.toNat)
    {count : ℕ} {mem : Bytes} (hcount : count ≤ n)
    (h : Copied (byteAt dest) (byteAt src) before mem count n) :
    Copied (byteAt dest) (byteAt src) before
      (memmoveLoop count (byteAt dest count) (byteAt src count) mem) 0 n := by
  induction count generalizing mem with
  | zero => exact h
  | succ count ih =>
    rw [memmoveLoop, byteAt_pred, byteAt_pred]
    refine ih (by omega) (h.down (by omega) (fun i hi hn => ?_) fun i hi hn => ?_)
    · exact byteAt_src_ne (by omega) (by omega) (by omega)
    · exact byteAt_ne (by omega) (by omega) (by omega)

theorem memcpy_copied {count : BitVec 64} (hdest : dest.toNat + count.toNat ≤ 2 ^ 64)
    (hsrc : src.toNat + count.toNat ≤ 2 ^ 64)
    (hbelow : dest.toNat ≤ src.toNat ∨ src.toNat + count.toNat ≤ dest.toNat) (mem : Bytes) :
    Copied (byteAt dest) (byteAt src) mem (memcpy dest src count mem).2 0 count.toNat := by
  have hcopied := memcpyLoop_copied hdest hsrc hbelow (Nat.zero_add _)
    (Copied.refl (byteAt dest) (byteAt src) mem 0)
  rwa [byteAt_zero, byteAt_zero] at hcopied

theorem memmove_copied {count : BitVec 64} (hdest : dest.toNat + count.toNat ≤ 2 ^ 64)
    (hsrc : src.toNat + count.toNat ≤ 2 ^ 64) (mem : Bytes) :
    Copied (byteAt dest) (byteAt src) mem (memmove dest src count mem).2 0 count.toNat := by
  rw [memmove]
  by_cases hlt : src < dest
  · rw [if_pos hlt, byteAt_count dest, byteAt_count src]
    exact memmoveLoop_copied hdest hlt (Nat.le_refl _) (Copied.refl _ _ mem _)
  · rw [if_neg hlt]
    exact memcpy_copied hdest hsrc (Or.inl (Nat.not_lt.mp hlt)) mem

/-- **`memmove`** returns `dest`, where each byte is as the source held it at first; every byte
outside of the destination is unchanged. -/
theorem memmove_moves {count : BitVec 64} (hdest : dest.toNat + count.toNat ≤ 2 ^ 64)
    (hsrc : src.toNat + count.toNat ≤ 2 ^ 64) (mem : Bytes) :
    (memmove dest src count mem).1 = dest ∧
      (∀ i < count.toNat, (memmove dest src count mem).2 (dest + BitVec.ofNat 64 i) =
        mem (src + BitVec.ofNat 64 i)) ∧
      ∀ a : BitVec 64, ¬ (dest.toNat ≤ a.toNat ∧ a.toNat < dest.toNat + count.toNat) →
        (memmove dest src count mem).2 a = mem a := by
  have hcopied := memmove_copied hdest hsrc mem
  refine ⟨?_, fun i hi => hcopied.copied i (Nat.zero_le i) hi, fun a ha => ?_⟩
  · rw [memmove]
    split_ifs
    · rfl
    · rfl
  · refine hcopied.frame a fun i _ hi heq => ha ?_
    rw [heq, byteAt_toNat (by omega)]
    omega

/-- Ten bytes, moved up by one over themselves. -/
theorem memmove_moves_overlapping :
    (memmove 0x1001 0x1000 10 fun a => a.setWidth 8).2 0x100A = 9 := by
  have hmoves := @memmove_moves 0x1001 0x1000 10 (by decide) (by decide) fun a => a.setWidth 8
  exact (hmoves.2.1 9 (by decide)).trans (by decide)

end Copies

/-! ### Filling and comparing -/

section Regions

variable {fill : BitVec 8} {dest lhs rhs : BitVec 64} {mem : Bytes}

/-- The loop fills the bytes from the k-th on. -/
theorem memsetLoop_fills (a : BitVec 64) {count k n : ℕ} (hcount : k + count = n) :
    ((∃ i, k ≤ i ∧ i < n ∧ a = byteAt dest i) →
      memsetLoop fill count (byteAt dest k) mem a = fill) ∧
    ((∀ i, k ≤ i → i < n → a ≠ byteAt dest i) →
      memsetLoop fill count (byteAt dest k) mem a = mem a) := by
  induction count generalizing k mem with
  | zero => exact ⟨fun ⟨i, hk, hn, _⟩ => absurd hn (by omega), fun _ => rfl⟩
  | succ count ih =>
    obtain ⟨hinside, houtside⟩ := @ih (Function.update mem (byteAt dest k) fill) (k + 1) (by omega)
    rw [memsetLoop, byteAt_succ]
    refine ⟨?_, fun hnone => ?_⟩
    · rintro ⟨i, hk, hn, rfl⟩
      by_cases hlater : ∃ j, k + 1 ≤ j ∧ j < n ∧ byteAt dest i = byteAt dest j
      · exact hinside hlater
      · rw [houtside fun j hj hjn heq => hlater ⟨j, hj, hjn, heq⟩]
        rcases Nat.eq_or_lt_of_le hk with rfl | hlt
        · exact Function.update_self ..
        · exact absurd ⟨i, hlt, hn, rfl⟩ hlater
    · rw [houtside fun i hi => hnone i (Nat.le_of_succ_le hi)]
      exact Function.update_of_ne (hnone k (Nat.le_refl k) (by omega)) fill mem

/-- **`memset`** fills the region, and nothing else. -/
theorem memset_fills (dest : BitVec 64) (ch : BitVec 32) (count : BitVec 64) (mem : Bytes) :
    (∀ i < count.toNat, (memset dest ch count mem).2 (byteAt dest i) = ch.setWidth 8) ∧
      ∀ a, (∀ i < count.toNat, a ≠ byteAt dest i) → (memset dest ch count mem).2 a = mem a := by
  have hfills := fun a => @memsetLoop_fills (ch.setWidth 8) dest mem a count.toNat 0 _ (Nat.zero_add _)
  rw [byteAt_zero] at hfills
  exact ⟨fun i hi => (hfills _).1 ⟨i, Nat.zero_le i, hi, rfl⟩,
    fun a ha => (hfills a).2 fun i _ hi => ha i hi⟩

/-- The bytes of a region. -/
def bytesAt (mem : Bytes) : ℕ → BitVec 64 → List (BitVec 8)
  | 0, _ => []
  | n + 1, p => mem p :: bytesAt mem n (p + 1)

/-- **`memcmp`** compares as the first bytes that differ do. -/
theorem memcmpLoop_orders (n : ℕ) :
    (memcmpLoop mem n lhs rhs = 0 ↔ bytesAt mem n lhs = bytesAt mem n rhs) ∧
      (memcmpLoop mem n lhs rhs < 0 ↔ bytesAt mem n lhs < bytesAt mem n rhs) := by
  induction n generalizing lhs rhs with
  | zero => exact ⟨iff_of_true rfl rfl, iff_of_false (Int.lt_irrefl 0) (List.not_lt_nil [])⟩
  | succ n ih =>
    obtain ⟨hzero, hneg⟩ := @ih (lhs + 1) (rhs + 1)
    rw [memcmpLoop, bytesAt, bytesAt, List.cons_lt_cons_iff, List.cons.injEq]
    by_cases heq : mem lhs = mem rhs
    · rw [if_neg (not_not.mpr heq), hzero, hneg, heq]
      exact ⟨(and_iff_right rfl).symm,
        ⟨fun hlt => .inr ⟨rfl, hlt⟩, fun h => (h.resolve_left (BitVec.lt_irrefl _)).2⟩⟩
    · have hne : (mem lhs).toNat ≠ (mem rhs).toNat := fun hnat => heq (BitVec.eq_of_toNat_eq hnat)
      rw [if_pos heq]
      refine ⟨iff_of_false (by omega) fun h => heq h.1, ?_⟩
      rw [or_iff_left fun h => heq h.1, BitVec.lt_def]
      omega

theorem memcmp_orders (lhs rhs count : BitVec 64) (mem : Bytes) :
    (memcmp lhs rhs count mem = 0 ↔ bytesAt mem count.toNat lhs = bytesAt mem count.toNat rhs) ∧
      (memcmp lhs rhs count mem < 0 ↔ bytesAt mem count.toNat lhs < bytesAt mem count.toNat rhs) :=
  memcmpLoop_orders count.toNat

end Regions

end UltraKernel
