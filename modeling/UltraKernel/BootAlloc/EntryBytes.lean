import UltraKernel.BootAlloc.Edit
import UltraKernel.Common.Memory

/-!
# The entries of the table as bytes

The allocator shifts its entries with `memmove`, and takes them to a larger array with `memcpy`.
The model of the allocator moves whole entries; here they are the bytes of a memory, and what the
two functions do to the bytes is what the model does to the entries.

* `memmove_moveEntries`: `State.moveEntries` is `memmove` on the bytes of the live array;
* `memcpy_copyEntries`: `State.copyEntries` is `memcpy` to the bytes of another array.
-/

namespace UltraKernel.BootAlloc

/-- The value of the eight bytes at an address, the lowest byte first. -/
def loadPhysAddr (mem : Bytes) (p : BitVec 64) : ℕ :=
  (List.range 8).foldr (fun k rest => (mem (byteAt p k)).toNat + 256 * rest) 0

/-- The `struct memory_range` at an address. -/
def loadRange (mem : Bytes) (p : BitVec 64) : MemoryRange :=
  ⟨loadPhysAddr mem p, loadPhysAddr mem (byteAt p 8)⟩

/-- `&buffer[idx]` -/
def entryAt (buffer : BitVec 64) (idx : ℕ) : BitVec 64 := byteAt buffer (idx * memoryRangeSize)

/-- The memory has these entries in the first `n` places of the array. -/
def Holds (mem : Bytes) (buffer : BitVec 64) (n : ℕ) (entry : ℕ → MemoryRange) : Prop :=
  ∀ i < n, loadRange mem (entryAt buffer i) = entry i

section Holds

variable {mem mem' : Bytes} {p q buffer old : BitVec 64}

theorem loadPhysAddr_congr (h : ∀ k < 8, mem' (byteAt p k) = mem (byteAt q k)) :
    loadPhysAddr mem' p = loadPhysAddr mem q := by
  have hbytes : ∀ k ∈ List.range 8, ∀ rest,
      (mem' (byteAt p k)).toNat + 256 * rest = (mem (byteAt q k)).toNat + 256 * rest := by
    intro k hk rest
    rw [h k (List.mem_range.mp hk)]
  exact List.foldr_ext _ _ 0 hbytes

/-- An entry is read from its own sixteen bytes. -/
theorem loadRange_congr (h : ∀ k < 16, mem' (byteAt p k) = mem (byteAt q k)) :
    loadRange mem' p = loadRange mem q := by
  have hlow : loadPhysAddr mem' p = loadPhysAddr mem q :=
    loadPhysAddr_congr fun k hk => h k (by omega)
  have hhigh : loadPhysAddr mem' (byteAt p 8) = loadPhysAddr mem (byteAt q 8) := by
    refine loadPhysAddr_congr fun k hk => ?_
    rw [byteAt_byteAt, byteAt_byteAt]
    exact h (8 + k) (by omega)
  rw [loadRange, loadRange, hlow, hhigh]

theorem entryAt_zero (buffer : BitVec 64) : entryAt buffer 0 = buffer := byteAt_zero buffer

theorem byteAt_entryAt (buffer : BitVec 64) (idx k : ℕ) :
    byteAt (entryAt buffer idx) k = byteAt buffer (idx * 16 + k) := byteAt_byteAt buffer _ k

theorem entryAt_toNat {n idx : ℕ} (hfit : buffer.toNat + n * 16 < 2 ^ 64) (hidx : idx ≤ n) :
    (entryAt buffer idx).toNat = buffer.toNat + idx * 16 := by
  rw [entryAt, memoryRangeSize, byteAt_toNat (by omega)]

/-- An entry inside of a region that was copied is the one at its place in the source. -/
theorem loadRange_copied {before after : Bytes} {dst src len j : ℕ}
    (h : Copied (byteAt (entryAt buffer dst)) (byteAt (entryAt old src)) before after 0 len)
    (hj : j * 16 + 16 ≤ len) :
    loadRange after (entryAt buffer (dst + j)) = loadRange before (entryAt old (src + j)) := by
  refine loadRange_congr fun k hk => ?_
  have hcopied := h.copied (j * 16 + k) (Nat.zero_le _) (by omega)
  rw [byteAt_entryAt, byteAt_entryAt] at hcopied ⊢
  rwa [show (dst + j) * 16 + k = dst * 16 + (j * 16 + k) by omega,
    show (src + j) * 16 + k = src * 16 + (j * 16 + k) by omega]

/-- An entry outside of the region is unchanged. -/
theorem loadRange_frame {before after : Bytes} {dst src count n i : ℕ}
    (h : Copied (byteAt (entryAt buffer dst)) (byteAt (entryAt old src)) before after 0 (count * 16))
    (hfit : buffer.toNat + n * 16 < 2 ^ 64) (hdst : dst + count ≤ n) (hi : i < n)
    (hout : ¬ (dst ≤ i ∧ i < dst + count)) :
    loadRange after (entryAt buffer i) = loadRange before (entryAt buffer i) := by
  refine loadRange_congr fun k hk => h.frame _ fun j _ hj => ?_
  rw [byteAt_entryAt, byteAt_entryAt]
  exact byteAt_ne (by omega) (by omega) (by omega)

theorem count_toNat {n count : ℕ} (hfit : buffer.toNat + n * 16 < 2 ^ 64) (hcount : count ≤ n) :
    (BitVec.ofNat 64 (count * memoryRangeSize)).toNat = count * 16 := by
  rw [BitVec.toNat_ofNat, memoryRangeSize, Nat.mod_eq_of_lt (by omega)]

/-- **Entries are moved as bytes**, whatever the overlap. -/
theorem memmove_moveEntries {s : State} {n dst src count : ℕ}
    (hfit : buffer.toNat + n * 16 < 2 ^ 64) (hdst : dst + count ≤ n) (hsrc : src + count ≤ n)
    (h : Holds mem buffer n s.entry) :
    Holds (memmove (entryAt buffer dst) (entryAt buffer src)
        (BitVec.ofNat 64 (count * memoryRangeSize)) mem).2 buffer n
      (s.moveEntries dst src count).entry := by
  have hlen := count_toNat hfit (show count ≤ n by omega)
  have hcopied := @memmove_copied (entryAt buffer dst) (entryAt buffer src)
    (BitVec.ofNat 64 (count * memoryRangeSize))
    (by rw [hlen, entryAt_toNat hfit (by omega)]; omega)
    (by rw [hlen, entryAt_toNat hfit (by omega)]; omega) mem
  rw [hlen] at hcopied
  intro i hi
  rw [State.entry_moveEntries]
  split_ifs with hin
  · obtain ⟨j, rfl⟩ := Nat.exists_eq_add_of_le hin.1
    rw [loadRange_copied hcopied (by omega), Nat.add_sub_cancel_left]
    exact h (src + j) (by omega)
  · rw [loadRange_frame hcopied hfit hdst hi hin]
    exact h i hi

/-- **Entries are copied as bytes** to an array that does not begin inside of the live one. -/
theorem memcpy_copyEntries {s : State} {b : Buffer} {count : ℕ}
    (hold : old.toNat + count * 16 < 2 ^ 64) (hfit : buffer.toNat + count * 16 < 2 ^ 64)
    (happart : buffer.toNat ≤ old.toNat ∨ old.toNat + count * 16 ≤ buffer.toNat)
    (h : Holds mem old count s.entry) :
    Holds (memcpy buffer old (BitVec.ofNat 64 (count * memoryRangeSize)) mem).2 buffer count
      ((s.copyEntries b count).memory b) := by
  have hlen := count_toNat hfit (Nat.le_refl count)
  have hcopied := @memcpy_copied buffer old (BitVec.ofNat 64 (count * memoryRangeSize))
    (by rw [hlen]; omega) (by rw [hlen]; omega) (by rwa [hlen]) mem
  rw [hlen, ← entryAt_zero buffer, ← entryAt_zero old] at hcopied
  intro i hi
  have hentry : (s.copyEntries b count).memory b i = s.entry i := by
    simp only [State.copyEntries, Function.update_self, if_pos hi]
  have hloaded := @loadRange_copied buffer old _ _ 0 0 (count * 16) i hcopied (by omega)
  rw [Nat.zero_add, entryAt_zero, entryAt_zero] at hloaded
  rw [hentry, hloaded]
  exact h i hi

end Holds

end UltraKernel.BootAlloc
