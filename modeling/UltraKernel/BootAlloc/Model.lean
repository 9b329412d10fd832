import UltraKernel.Lib.Outcome
import UltraKernel.Lib.Word
import Mathlib.Logic.Function.Basic

/-!
# The boot allocator, as `memory/boot_alloc.c` computes it

The allocator keeps a table of physical ranges in an array, first the static `g_initial_buffer`
and, once that runs short, pages it has taken out of the table itself.  The state holds every
array the program can name, the pointer `g_buffer`, and the counters `g_capacity` and
`g_entry_count`; each function is the source's, with its globals passed explicitly.

Machine words are 64 bits wide.  `maybe_grow_buffer` and `boot_free` call each other, so both take
a fuel argument; a failed `BUG_ON` ends the run with the assertion that failed.
-/

namespace UltraKernel.BootAlloc

open Word

/-! ### Constants and ranges -/

/-- `PAGE_SIZE` -/
def pageSize : ℕ := 4096

/-- `PAGE_SHIFT` -/
def pageShift : ℕ := 12

/-- `PAGE_ROUND_UP`, through `ALIGN_UP_MASK`. -/
def pageRoundUp (size : ℕ) : ℕ := add64 size (pageSize - 1) &&& (2 ^ 64 - pageSize)

/-- `ENOMEM` -/
def enomem : ℕ := 49

/-- `MAX_ERRNO` -/
def maxErrno : ℕ := 4095

/-- `encode_error_phys_addr`: the errno value itself, as an address. -/
def encodeErrorPhysAddr (value : ℕ) : ℕ := value

/-- `error_phys_addr` -/
def errorPhysAddr (ret : ℕ) : Prop := ret ≤ maxErrno

instance (ret : ℕ) : Decidable (errorPhysAddr ret) := inferInstanceAs (Decidable (_ ≤ _))

/-- `RANGE_TYPE_MASK` -/
def rangeTypeMask : ℕ := 1

/-- `MEMORY_FREE` -/
def memoryFree : ℕ := 0

/-- `MEMORY_ALLOCATED` -/
def memoryAllocated : ℕ := 1

/-- `struct memory_range`: the low bit of the second word is the type, the rest the size. -/
structure MemoryRange where
  physicalAddress : ℕ
  sizeAndType : ℕ
  deriving DecidableEq, Repr

/-- `sizeof(struct memory_range)` -/
def memoryRangeSize : ℕ := 16

/-- `MR_ENCODE` -/
def mrEncode (size type : ℕ) : ℕ := size ||| type

namespace MemoryRange

/-- `MR_TYPE` -/
def mrType (range : MemoryRange) : ℕ := range.sizeAndType &&& rangeTypeMask

/-- `MR_SIZE` -/
def mrSize (range : MemoryRange) : ℕ := range.sizeAndType &&& (2 ^ 64 - 1 - rangeTypeMask)

/-- `mr_end` -/
def mrEnd (mr : MemoryRange) : ℕ := add64 mr.physicalAddress mr.mrSize

end MemoryRange

/-! ### State -/

/-- An array of entries: the static one, or the mapping of physical pages, which is what
`phys_to_virt` of their address points to. -/
inductive Buffer where
  | initial
  | mapping (phys : ℕ)
  deriving DecidableEq, Repr

/-- `phys_to_virt` -/
def physToVirt (phys : ℕ) : Buffer := .mapping phys

/-- Two arrays, of so many bytes each, have bytes in common.  The static array is in no physical page
that is handed out. -/
def Buffer.Overlaps : Buffer → ℕ → Buffer → ℕ → Prop
  | .mapping phys, bytes, .mapping phys', bytes' => phys < phys' + bytes' ∧ phys' < phys + bytes
  | _, _, _, _ => False

instance : (b : Buffer) → (bytes : ℕ) → (b' : Buffer) → (bytes' : ℕ) →
    Decidable (b.Overlaps bytes b' bytes')
  | .mapping _, _, .mapping _, _ => inferInstanceAs (Decidable (_ ∧ _))
  | .initial, _, .initial, _ => isFalse id
  | .initial, _, .mapping _, _ => isFalse id
  | .mapping _, _, .initial, _ => isFalse id

/-- `BOOT_ALLOC_INITIAL_CAPACITY` -/
def bootAllocInitialCapacity : ℕ := pageSize / memoryRangeSize

/-- The globals of the allocator, and the contents of the arrays. -/
structure State where
  memory : Buffer → ℕ → MemoryRange
  gBuffer : Buffer
  gCapacity : ℕ
  gEntryCount : ℕ

/-- The assertions of the allocator, and what it does that has no meaning. -/
inductive Bug where
  /-- `BUG_ON(idx > count)` in `range_insert` -/
  | insertIndex
  /-- `BUG_ON(idx > g_entry_count)` in `range_emplace_at` -/
  | emplaceIndex
  /-- `BUG_ON(g_entry_count >= g_capacity)` in `range_emplace_at` -/
  | tableFull
  /-- the new entry is not inside the one it is carved out of -/
  | outsideRange
  /-- the new entry has the type of the one it is carved out of -/
  | sameType
  /-- `invalid allocation size (%zu pages)` -/
  | invalidSize
  /-- `invalid allocation: %zu pages within 0x%016llX -> 0x%016llX` -/
  | invalidAllocation
  /-- `invalid free at 0x%016llX (%zu pages)` -/
  | invalidFree
  /-- `memcpy` between arrays that overlap, which is undefined: the model goes no further -/
  | overlappingCopy
  deriving DecidableEq, Repr

/-- `BUG_ON` -/
def bugOn (expr : Prop) [Decidable expr] (bug : Bug) : Outcome Bug Unit :=
  if expr then .halt bug else .done ()

namespace State

/-- `g_buffer[idx]` -/
def entry (s : State) (idx : ℕ) : MemoryRange := s.memory s.gBuffer idx

/-- `g_buffer[idx] = mr` -/
def setEntry (s : State) (idx : ℕ) (mr : MemoryRange) : State :=
  { s with
    memory := Function.update s.memory s.gBuffer (Function.update (s.memory s.gBuffer) idx mr) }

/-- `memmove(&g_buffer[dst], &g_buffer[src], count * sizeof(*g_buffer))` -/
def moveEntries (s : State) (dst src count : ℕ) : State :=
  { s with
    memory := Function.update s.memory s.gBuffer fun i =>
      if dst ≤ i ∧ i < dst + count then s.entry (src + (i - dst)) else s.entry i }

/-- `memcpy(buffer, g_buffer, count * sizeof(*g_buffer))` -/
def copyEntries (s : State) (buffer : Buffer) (count : ℕ) : State :=
  { s with
    memory := Function.update s.memory buffer fun i =>
      if i < count then s.entry i else s.memory buffer i }

/-- The table: the entries in use of the live array. -/
def table (s : State) : List MemoryRange := (List.range s.gEntryCount).map s.entry

end State

/-! ### Inserting entries -/

def rangeInsert (s : State) (mr : MemoryRange) (idx count : ℕ) : Outcome Bug State := do
  bugOn (idx > count) .insertIndex
  if idx = count then
    return s.setEntry idx mr
  else
    return (s.moveEntries (idx + 1) idx (count - idx)).setEntry idx mr

def rangeEmplaceAt (s : State) (idx : ℕ) (mr : MemoryRange) : Outcome Bug State := do
  bugOn (idx > s.gEntryCount) .emplaceIndex
  bugOn (s.gEntryCount ≥ s.gCapacity) .tableFull
  rangeInsert { s with gEntryCount := s.gEntryCount + 1 } mr idx s.gEntryCount

/-! ### Searching the table -/

inductive AllowOneAbove where
  | no
  | yes
  deriving DecidableEq, Repr

/-- The loop of `find_range`: the middle entry that starts at `value`, or the final bounds. -/
def findRangeLoop (s : State) (value : ℕ) : ℕ → ℤ → ℤ → Outcome Bug (ℤ ⊕ ℤ × ℤ)
  | fuel, left, right =>
    if left ≤ right then
      match fuel with
      | 0 => .outOfFuel
      | fuel + 1 =>
        let middle := left + (right - left) / 2
        if (s.entry middle.toNat).physicalAddress < value then
          findRangeLoop s value fuel (middle + 1) right
        else if value < (s.entry middle.toNat).physicalAddress then
          findRangeLoop s value fuel left (middle - 1)
        else
          .done (.inl middle)
    else
      .done (.inr (left, right))

def findRange (s : State) (value : ℕ) (allowAbove : AllowOneAbove) : Outcome Bug ℤ := do
  match ← findRangeLoop s value s.gEntryCount 0 (s.gEntryCount - 1) with
  | .inl middle => return middle
  | .inr (left, right) =>
    -- left is always the lower bound, right the lower bound - 1
    let mr := s.entry right.toNat
    if right ≥ 0 ∧ mr.physicalAddress < value ∧ value < mr.mrEnd then
      return right
    else
      -- an out of bounds range is not returned, even if it is the lower bound
      let left := if left = s.gEntryCount then -1 else left
      return if allowAbove = .yes then left else -1

/-! ### Splitting and merging entries -/

def canMergeRanges (lhs rhs : MemoryRange) : Prop :=
  lhs.mrType = rhs.mrType ∧ lhs.mrEnd = rhs.physicalAddress

instance (lhs rhs : MemoryRange) : Decidable (canMergeRanges lhs rhs) :=
  inferInstanceAs (Decidable (_ ∧ _))

/-- The new value of `*dst`. -/
def mergeRanges (dst src : MemoryRange) : MemoryRange where
  physicalAddress :=
    if dst.physicalAddress > src.physicalAddress then src.physicalAddress else dst.physicalAddress
  sizeAndType := add64 dst.sizeAndType src.mrSize

/-- The index `range_before` points at. -/
def rangeBefore (mrIdx : ℕ) : Option ℕ := if mrIdx = 0 then none else some (mrIdx - 1)

/-- The index `range_after` points at. -/
def rangeAfter (s : State) (mrIdx : ℕ) : Option ℕ :=
  if mrIdx = s.gEntryCount - 1 then none else some (mrIdx + 1)

/-- Whether the entry `idx` points at, if any, has the property. -/
def entryIs (s : State) (p : MemoryRange → Prop) (idx : Option ℕ) : Prop :=
  ∃ i ∈ idx, p (s.entry i)

instance (s : State) (p : MemoryRange → Prop) [DecidablePred p] (idx : Option ℕ) :
    Decidable (entryIs s p idx) :=
  match idx with
  | none => isFalse (by simp [entryIs])
  | some i => decidable_of_iff (p (s.entry i)) (by simp [entryIs])

/-- Write `mergeRanges` of the entry at `dst` and `src` back to `dst`. -/
def mergeInto (s : State) (dst : Option ℕ) (src : MemoryRange) : State :=
  match dst with
  | some i => s.setEntry i (mergeRanges (s.entry i) src)
  | none => s

/-- `out_case4`: move the entries from `mr_after` on down to `current_mr`. -/
def closeGap (s : State) (mrIdx : ℕ) (mrAfter : Option ℕ) (merged : ℕ) : State :=
  let s := match mrAfter with
    | some after => s.moveEntries mrIdx after (s.gEntryCount - after)
    | none => s
  { s with gEntryCount := s.gEntryCount - merged }

/-- `mr_lhs_piece`: what is left of `current_mr` below `new_mr`. -/
def mrLhsPiece (currentMr newMr : MemoryRange) : MemoryRange :=
  ⟨currentMr.physicalAddress,
    mrEncode (sub64 newMr.physicalAddress currentMr.physicalAddress) currentMr.mrType⟩

/-- `mr_rhs_piece`: what is left of `current_mr` above `new_mr`. -/
def mrRhsPiece (currentMr newMr : MemoryRange) : MemoryRange :=
  ⟨newMr.mrEnd, mrEncode (sub64 currentMr.mrEnd newMr.mrEnd) currentMr.mrType⟩

/-- Case 4 of `allocate_out_of`: the whole entry changes its type. -/
def allocateEntire (s : State) (mrIdx : ℕ) (newMr : MemoryRange) : State :=
  let mrBefore := rangeBefore mrIdx
  let mrAfter := rangeAfter s mrIdx
  let mergeableBefore := entryIs s (fun before => canMergeRanges before newMr) mrBefore
  let mergeableAfter := entryIs s (fun after => canMergeRanges newMr after) mrAfter
  -- Case 4a
  if ¬ mergeableBefore ∧ ¬ mergeableAfter then
    s.setEntry mrIdx { s.entry mrIdx with sizeAndType := newMr.sizeAndType }
  -- Case 4b
  else if mergeableBefore ∧ mergeableAfter then
    let s := mergeInto s mrBefore newMr
    let s := mergeInto s mrBefore (s.entry (mrIdx + 1))
    closeGap s mrIdx (mrAfter.map (· + 1)) 2
  -- Case 4c
  else if mergeableBefore then
    closeGap (mergeInto s mrBefore newMr) mrIdx mrAfter 1
  -- Case 4d
  else
    closeGap (mergeInto s mrAfter newMr) mrIdx mrAfter 1

def allocateOutOf (s : State) (mrIdx : ℕ) (newMr : MemoryRange) : Outcome Bug State := do
  let currentMr := s.entry mrIdx
  let lhsPiece := mrLhsPiece currentMr newMr
  let rhsPiece := mrRhsPiece currentMr newMr
  bugOn (currentMr.physicalAddress > newMr.physicalAddress ∨ currentMr.mrEnd < newMr.mrEnd)
    .outsideRange
  bugOn (currentMr.mrType = newMr.mrType) .sameType
  -- Case 1
  if lhsPiece.mrSize ≠ 0 ∧ rhsPiece.mrSize ≠ 0 then
    let s := s.setEntry mrIdx lhsPiece
    let s ← rangeEmplaceAt s (mrIdx + 1) newMr
    rangeEmplaceAt s (mrIdx + 2) rhsPiece
  else
    let mrBefore := rangeBefore mrIdx
    let mergeableBefore := entryIs s (fun before => canMergeRanges before newMr) mrBefore
    -- Case 2
    if lhsPiece.mrSize = 0 ∧ rhsPiece.mrSize ≠ 0 then
      if mergeableBefore then
        return (mergeInto s mrBefore newMr).setEntry mrIdx rhsPiece
      else
        rangeEmplaceAt (s.setEntry mrIdx newMr) (mrIdx + 1) rhsPiece
    else
      let mrAfter := rangeAfter s mrIdx
      let mergeableAfter := entryIs s (fun after => canMergeRanges newMr after) mrAfter
      -- Case 3
      if lhsPiece.mrSize ≠ 0 ∧ rhsPiece.mrSize = 0 then
        if mergeableAfter then
          return mergeInto (s.setEntry mrIdx lhsPiece) mrAfter newMr
        else
          rangeEmplaceAt (s.setEntry mrIdx lhsPiece) (mrIdx + 1) newMr
      else
        return allocateEntire s mrIdx newMr

/-! ### Allocating -/

/-- The loop of `allocate_top_down`: the index it stops at and `allocated_end`. -/
def topDownLoop (s : State) (bytesToAllocate upperLimit : ℕ) : ℕ → Option (ℕ × ℕ)
  | 0 => none
  | i + 1 =>
    let mr := s.entry i
    let rangeEnd := min mr.mrEnd upperLimit
    if mr.physicalAddress ≥ upperLimit then topDownLoop s bytesToAllocate upperLimit i
    else if mr.mrType ≠ memoryFree then topDownLoop s bytesToAllocate upperLimit i
    -- not enough length after the cutoff
    else if sub64 rangeEnd mr.physicalAddress < bytesToAllocate then
      topDownLoop s bytesToAllocate upperLimit i
    else some (i, rangeEnd)

def allocateTopDown (s : State) (pageCount upperLimit : ℕ) : Outcome Bug (ℕ × State) := do
  let bytesToAllocate := mul64 pageCount pageSize
  bugOn (bytesToAllocate ≤ pageCount) .invalidSize
  match topDownLoop s bytesToAllocate upperLimit s.gEntryCount with
  | none => return (encodeErrorPhysAddr enomem, s)
  | some (i, allocatedEnd) =>
    if allocatedEnd = 0 then
      return (encodeErrorPhysAddr enomem, s)
    else
      let allocatedMr : MemoryRange :=
        ⟨sub64 allocatedEnd bytesToAllocate, mrEncode bytesToAllocate memoryAllocated⟩
      let s ← allocateOutOf s i allocatedMr
      return (allocatedMr.physicalAddress, s)

/-- The loop of `allocate_within` over `remaining` entries from `mrIdx` on: the index it breaks
at, or `none` where the source returns `ENOMEM`. -/
def withinLoop (s : State) (bytesToAllocate lowerLimit upperLimit : ℕ) : ℕ → ℕ → Option ℕ
  | 0, _ => none
  | remaining + 1, mrIdx =>
    let pickedMr := s.entry mrIdx
    if pickedMr.physicalAddress > upperLimit then none
    else if pickedMr.mrType = memoryFree ∧
        sub64 (min pickedMr.mrEnd upperLimit) (max pickedMr.physicalAddress lowerLimit) ≥
          bytesToAllocate then
      some mrIdx
    else if pickedMr.mrEnd ≥ upperLimit then none
    else if sub64 upperLimit pickedMr.mrEnd < bytesToAllocate then none
    else withinLoop s bytesToAllocate lowerLimit upperLimit remaining (mrIdx + 1)

def allocateWithin (s : State) (pageCount lowerLimit upperLimit : ℕ) :
    Outcome Bug (ℕ × State) := do
  let bytesToAllocate := mul64 pageCount pageSize
  bugOn (bytesToAllocate ≤ pageCount) .invalidSize
  -- invalid input, search gap is too small, overflow
  bugOn (lowerLimit ≥ upperLimit) .invalidAllocation
  bugOn (add64 lowerLimit bytesToAllocate > upperLimit) .invalidAllocation
  bugOn (add64 lowerLimit bytesToAllocate < lowerLimit) .invalidAllocation
  let mrIdx ← findRange s lowerLimit .yes
  if mrIdx < 0 then
    return (encodeErrorPhysAddr enomem, s)
  else
    match withinLoop s bytesToAllocate lowerLimit upperLimit (s.gEntryCount - mrIdx.toNat)
        mrIdx.toNat with
    | none => return (encodeErrorPhysAddr enomem, s)
    | some i =>
      let rangeBegin := max lowerLimit (s.entry i).physicalAddress
      let s ← allocateOutOf s i ⟨rangeBegin, mrEncode bytesToAllocate memoryAllocated⟩
      return (rangeBegin, s)

/-- The upper limit is `-1ull`. -/
def bootAllocNogrow (s : State) (numPages : ℕ) : Outcome Bug (ℕ × State) :=
  allocateTopDown s numPages (2 ^ 64 - 1)

/-! ### Growing the table, and freeing -/

/-- `BOOT_ALLOC_WORST_CASE_GROWTH_PER_ALLOCATION` -/
def worstCaseGrowthPerAllocation : ℕ := 2

/-- The watermark `maybe_grow_buffer` compares the number of free slots with: a dynamic table
needs slots for its own `boot_free` as well. -/
def growthWatermark (s : State) : ℕ :=
  worstCaseGrowthPerAllocation * 2 +
    if s.gBuffer ≠ .initial then worstCaseGrowthPerAllocation else 0

/-- The byte size of the live array. -/
def State.arrayBytes (s : State) : ℕ := s.gCapacity * memoryRangeSize

/-- The byte size of the next table. -/
def newCapacity (s : State) : ℕ := pageRoundUp (mul64 (mul64 s.gCapacity 2) memoryRangeSize)

mutual

/-- A dynamic `g_buffer` is the mapping of `phys`, which is its `virt_to_phys`.  New pages do not overlap
the live array, but the errno value of a failed allocation is taken for an address as well, and can. -/
def maybeGrowBuffer : ℕ → State → Outcome Bug (Bool × State)
  | 0, _ => .outOfFuel
  | fuel + 1, s => do
    if sub64 s.gCapacity s.gEntryCount ≥ growthWatermark s then
      return (true, s)
    else
      let (addr, t) ← bootAllocNogrow s (newCapacity s >>> pageShift)
      if addr = 0 then
        return (false, t)
      else
        let newBuffer := physToVirt addr
        bugOn (t.gBuffer.Overlaps t.arrayBytes newBuffer (newCapacity s)) .overlappingCopy
        let t := t.copyEntries newBuffer t.gEntryCount
        let t ← match t.gBuffer with
          | .initial => pure t
          | .mapping phys =>
            bootFree fuel t phys (pageRoundUp (mul64 t.gCapacity memoryRangeSize) >>> pageShift)
        return (true, { t with gBuffer := newBuffer, gCapacity := newCapacity s / memoryRangeSize })

/-- When the table cannot grow, the range is leaked with a warning. -/
def bootFree : ℕ → State → ℕ → ℕ → Outcome Bug State
  | 0, _, _, _ => .outOfFuel
  | fuel + 1, s, address, numPages => do
    let freedRange : MemoryRange := ⟨address, mrEncode (mul64 numPages pageSize) memoryFree⟩
    let (grown, t) ← maybeGrowBuffer fuel s
    if grown = false then
      return t
    else
      let mrIdx ← findRange t address .no
      bugOn (mrIdx < 0) .invalidFree
      allocateOutOf t mrIdx.toNat freedRange

end

def bootAlloc (fuel : ℕ) (s : State) (numPages : ℕ) : Outcome Bug (ℕ × State) := do
  let (grown, t) ← maybeGrowBuffer fuel s
  if grown = false then
    return (encodeErrorPhysAddr enomem, t)
  else
    bootAllocNogrow t numPages

def bootAllocAt (fuel : ℕ) (s : State) (address numPages : ℕ) :
    Outcome Bug (ℕ × State) := do
  let (grown, t) ← maybeGrowBuffer fuel s
  if grown = false then
    return (encodeErrorPhysAddr enomem, t)
  else
    allocateWithin t numPages address (add64 address ((numPages <<< pageShift) % 2 ^ 64))

end UltraKernel.BootAlloc
