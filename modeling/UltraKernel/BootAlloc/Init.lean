import UltraKernel.BootAlloc.Runs
import UltraKernel.BootAlloc.StaticGrowth

/-!
# Filling the table at boot

`boot_alloc_init` appends the entries of the boot memory map one by one.  Before each append the
table may grow, and the pages of the next table are then carved out of the entries that are
already there.

`Filled tracked s` is the invariant: the table of `s` is the list `tracked` of the entries added
so far, except that the pages the table itself has taken are ALLOCATED.  Making room and appending
keep it (`Filled.makesRoom`, `Filled.appends`), so it holds at the end (`bootAllocInit_fills`).
-/

namespace UltraKernel.BootAlloc

open Word

/-! ### The boot memory map -/

/-- `ULTRA_MEMORY_TYPE_FREE` -/
def ultraMemoryTypeFree : ℕ := 0x00000001

/-- `ULTRA_MEMORY_TYPE_RECLAIMABLE` -/
def ultraMemoryTypeReclaimable : ℕ := 0x00000003

/-- `ULTRA_MEMORY_TYPE_LOADER_RECLAIMABLE` -/
def ultraMemoryTypeLoaderReclaimable : ℕ := 0xFFFF0001

/-- `ULTRA_MEMORY_TYPE_KERNEL_BINARY` -/
def ultraMemoryTypeKernelBinary : ℕ := 0xFFFF0004

/-- `struct ultra_memory_map_entry` -/
structure UltraMemoryMapEntry where
  physicalAddress : ℕ
  size : ℕ
  type : ℕ
  deriving DecidableEq, Repr

/-- `sizeof(struct ultra_attribute_header)` -/
def ultraAttributeHeaderSize : ℕ := 8

/-- `sizeof(struct ultra_memory_map_entry)` -/
def ultraMemoryMapEntrySize : ℕ := 24

/-- `struct ultra_memory_map_attribute`: the size in the header covers the header and the
entries. -/
structure UltraMemoryMapAttribute where
  headerSize : ℕ
  entries : ℕ → UltraMemoryMapEntry

/-- `ULTRA_MEMORY_MAP_ENTRY_COUNT` -/
def ultraMemoryMapEntryCount (headerSize : ℕ) : ℕ :=
  sub64 headerSize ultraAttributeHeaderSize / ultraMemoryMapEntrySize

namespace UltraMemoryMapEntry

/-- The addresses of an entry. -/
def Contains (entry : UltraMemoryMapEntry) (x : ℕ) : Prop :=
  entry.physicalAddress ≤ x ∧ x < entry.physicalAddress + entry.size

/-- The `switch` on the type: `none` where the entry is skipped. -/
def rangeType (entry : UltraMemoryMapEntry) : Option ℕ :=
  if entry.type = ultraMemoryTypeReclaimable ∨ entry.type = ultraMemoryTypeKernelBinary ∨
      entry.type = ultraMemoryTypeLoaderReclaimable then some memoryAllocated
  else if entry.type = ultraMemoryTypeFree then some memoryFree
  else none

/-- The range to append, if any. -/
def range (entry : UltraMemoryMapEntry) : Option MemoryRange :=
  entry.rangeType.map fun type => ⟨entry.physicalAddress, mrEncode entry.size type⟩

end UltraMemoryMapEntry

/-- The entries that the loop of `boot_alloc_init` visits. -/
def UltraMemoryMapAttribute.visited (mm : UltraMemoryMapAttribute) : List UltraMemoryMapEntry :=
  (List.range (ultraMemoryMapEntryCount mm.headerSize)).map mm.entries

/-! ### `boot_alloc_init` -/

/-- `EOK` -/
def eok : ℕ := 0

def rangeAppend (fuel : ℕ) (s : State) (mr : MemoryRange) : Outcome Bug (ℕ × State) := do
  let (grown, t) ← maybeGrowBuffer fuel s
  if grown = false then
    return (enomem, t)
  else
    let t ← rangeEmplaceAt t t.gEntryCount mr
    return (eok, t)

/-- The loop of `boot_alloc_init`; an error of `range_append` is only warned about. -/
def bootAllocInitLoop (fuel : ℕ) : List UltraMemoryMapEntry → State → Outcome Bug State
  | [], s => .done s
  | entry :: rest, s =>
    match entry.range with
    | none => bootAllocInitLoop fuel rest s
    | some range => do
      let (_, t) ← rangeAppend fuel s range
      bootAllocInitLoop fuel rest t

/-- The globals before `boot_alloc_init`; the array may hold anything. -/
def initialState (memory : Buffer → ℕ → MemoryRange) : State :=
  ⟨memory, .initial, bootAllocInitialCapacity, 0⟩

def bootAllocInit (fuel : ℕ) (memory : Buffer → ℕ → MemoryRange) (mm : UltraMemoryMapAttribute) :
    Outcome Bug State :=
  bootAllocInitLoop fuel mm.visited (initialState memory)

/-- Wherever the loop makes room, the table does not grow, or grows for the first time and obtains
its pages. -/
def FillsGrowingOnce (fuel : ℕ) : List UltraMemoryMapEntry → State → Prop
  | [], _ => True
  | entry :: rest, s =>
    match entry.range with
    | none => FillsGrowingOnce fuel rest s
    | some range => GrowsOnce s ∧
        ∀ error t, rangeAppend fuel s range = .done (error, t) → FillsGrowingOnce fuel rest t

/-! ### The invariant -/

/-- The table holds the entries added so far, with the pages of the table taken out of the FREE
ones. -/
structure Filled (tracked : List MemoryRange) (s : State) : Prop where
  wellFormed : WellFormedTable s.table
  added : WellFormedTable tracked
  pages : ∀ x, (∃ b ∈ bufferPages s, b.Contains x) →
    typeAt tracked x = some memoryFree ∧ typeAt s.table x = some memoryAllocated
  rest : ∀ x, (¬ ∃ b ∈ bufferPages s, b.Contains x) → typeAt s.table x = typeAt tracked x
  slots : s.gEntryCount + worstCaseGrowthPerAllocation ≤ s.gCapacity
  static : s.gBuffer = .initial → s.gCapacity ≤ bootAllocInitialCapacity
  word : s.gCapacity < 2 ^ 64

section Filled

variable {tracked : List MemoryRange} {s g : State}

theorem filled_initial (memory : Buffer → ℕ → MemoryRange) : Filled [] (initialState memory) := by
  have hempty : WellFormedTable [] := ⟨by simp, by simp, List.Pairwise.nil⟩
  refine ⟨hempty, hempty, ?_, fun _ _ => rfl, ?_, fun _ => le_rfl, ?_⟩
  · intro x hx
    obtain ⟨b, hb, _⟩ := hx
    exact absurd hb List.not_mem_nil
  · show 0 + worstCaseGrowthPerAllocation ≤ bootAllocInitialCapacity
    decide
  · show bootAllocInitialCapacity < 2 ^ 64
    decide

/-- **The first growth completes** when there is an entry to take its pages from. -/
theorem maybeGrowBuffer_completes (h : Filled tracked s) (hobtains : GrowthObtains s)
    (hno : ¬ NoGrowth s) (fuel : ℕ) :
    ∃ grown t, maybeGrowBuffer (fuel + 1) s = .done (grown, t) := by
  have hcap : 0 < s.gCapacity := by
    have hslots := h.slots
    unfold worstCaseGrowthPerAllocation at hslots
    omega
  have hrequest := newCapacity_request (newCapacity_pos hcap (h.static hobtains.static))
  obtain ⟨address, t, ht⟩ := bootAllocNogrow_slots h.wellFormed hrequest h.slots
  rw [maybeGrowBuffer_of_initial hobtains.static hno, ht, Outcome.done_bind]
  by_cases hzero : address = 0
  · exact ⟨_, _, if_pos hzero⟩
  · exact ⟨_, _, if_neg hzero⟩

/-- The table after the first growth has room for what an allocation may add, and for one entry
more. -/
theorem firstGrowth_room {n : ℕ} (hcap : s.gCapacity ≤ bootAllocInitialCapacity)
    (hslots : s.gEntryCount + worstCaseGrowthPerAllocation ≤ s.gCapacity)
    (hn : n ≤ s.gEntryCount + worstCaseGrowthPerAllocation) :
    n + worstCaseGrowthPerAllocation < newCapacity s / memoryRangeSize ∧
      newCapacity s / memoryRangeSize < 2 ^ 64 := by
  have hinitial : bootAllocInitialCapacity = 256 := rfl
  rw [hinitial] at hcap
  unfold worstCaseGrowthPerAllocation at *
  have hsize : newCapacity s = (s.gCapacity * 32 + (pageSize - 1)) / pageSize * pageSize := by
    apply newCapacity_eq
    simp only [pageSize]
    omega
  rw [hsize]
  simp only [pageSize, memoryRangeSize]
  omega

/-- **The first pages of the table** are taken out of the entries added so far. -/
theorem Filled.edited {t : State} {b : Block} (h : Filled tracked s) (hstatic : bufferPages s = [])
    (hb : b.Valid) (hedit : Edited s (b.range memoryAllocated) t) (hpages : bufferPages g = [b])
    (htable : g.table = t.table) :
    (∀ x, (∃ b ∈ bufferPages g, b.Contains x) →
      typeAt tracked x = some memoryFree ∧ typeAt g.table x = some memoryAllocated) ∧
    ∀ x, (¬ ∃ b ∈ bufferPages g, b.Contains x) → typeAt g.table x = typeAt tracked x := by
  have hcontains := hb.range_contains (by decide : memoryAllocated < 2)
  have htype := (hb.range_parts (by decide : memoryAllocated < 2)).2
  have hbefore : ∀ x, typeAt s.table x = typeAt tracked x := by
    intro x
    apply h.rest
    intro hx
    obtain ⟨c, hc, _⟩ := hx
    rw [hstatic] at hc
    exact absurd hc List.not_mem_nil
  have hmem : ∀ x, (∃ c ∈ bufferPages g, c.Contains x) ↔
      (b.range memoryAllocated).Contains x := by
    intro x
    rw [hpages, hcontains x]
    simp
  constructor
  · intro x hx
    have hx := (hmem x).mp hx
    obtain ⟨k, hk, hne⟩ := hedit.wasOther x hx
    rw [htype] at hne
    refine ⟨?_, ?_⟩
    · rw [← hbefore, hk, eq_of_ne_memoryAllocated (typeAt_lt hk) hne]
    · rw [htable, hedit.updates.typeAt, if_pos hx, htype]
  · intro x hx
    rw [hmem x] at hx
    rw [htable, hedit.updates.typeAt, if_neg hx]
    exact hbefore x

/-- **Making room keeps the invariant**, and leaves a slot for the next entry. -/
theorem Filled.makesRoom (h : Filled tracked s) (hgrows : GrowsOnce s) (fuel : ℕ) :
    ∃ g, maybeGrowBuffer (fuel + 1) s = .done (true, g) ∧ Filled tracked g ∧
      g.gEntryCount + worstCaseGrowthPerAllocation < g.gCapacity := by
  have hslots := h.slots
  unfold worstCaseGrowthPerAllocation at hslots
  by_cases hno : NoGrowth s
  · have hroom := noGrowth_slots (by omega) h.word hno
    unfold worstCaseGrowthPerAllocation at hroom
    refine ⟨s, maybeGrowBuffer_of_noGrowth hno fuel, h, ?_⟩
    unfold worstCaseGrowthPerAllocation
    omega
  · have hobtains := hgrows.resolve_left hno
    obtain ⟨grown, g, hrun⟩ := maybeGrowBuffer_completes h hobtains hno fuel
    obtain ⟨rfl, b, t, hb, hedit, rfl, hpages⟩ :=
      maybeGrowBuffer_obtains h.wellFormed hno hobtains hrun
    have hstatic : bufferPages s = [] := by
      rw [bufferPages, hobtains.static]
    have htable := t.table_switch b.address (newCapacity s / memoryRangeSize)
    obtain ⟨hroom, hword⟩ :=
      firstGrowth_room (h.static hobtains.static) h.slots hedit.count_le
    obtain ⟨htaken, hkept⟩ := h.edited hstatic hb hedit hpages htable
    refine ⟨_, hrun, ⟨?_, h.added, htaken, hkept, hroom.le, ?_, hword⟩, hroom⟩
    · rw [htable]
      exact hedit.updates.wellFormed
    · intro hbuffer
      simp [State.switch, physToVirt] at hbuffer

/-- An entry appended to an ordered list decides its own addresses only. -/
theorem typeAt_concat {l : List MemoryRange} {mr : MemoryRange} (x : ℕ) :
    typeAt (l ++ [mr]) x = (typeAt l x).or (typeAt [mr] x) := by
  unfold typeAt
  rw [List.map_append, SegmentMap.denote_append]

theorem wellFormed_concat {l : List MemoryRange} {mr : MemoryRange} (hl : WellFormedTable l)
    (hmr : GoodRange mr) (hbelow : ∀ r ∈ l, r.physicalAddress + r.mrSize ≤ mr.physicalAddress) :
    WellFormedTable (l ++ [mr]) := by
  refine ⟨?_, ?_, List.pairwise_append.mpr ⟨hl.sorted, List.pairwise_singleton _ _, ?_⟩⟩
  · intro r hr
    rcases List.mem_append.mp hr with hr | hr
    · exact hl.valid r hr
    · rw [List.mem_singleton.mp hr]
      exact hmr.1
  · intro r hr
    rcases List.mem_append.mp hr with hr | hr
    · exact hl.aligned r hr
    · rw [List.mem_singleton.mp hr]
      exact hmr.2
  · intro r hr t ht
    rw [List.mem_singleton.mp ht]
    exact hbelow r hr

/-- Every address of the table belongs to an entry that was added. -/
theorem Filled.exists_added (h : Filled tracked s) {r : MemoryRange} {x : ℕ} (hr : r ∈ s.table)
    (hx : r.Contains x) : ∃ k ∈ tracked, k.Contains x := by
  have htype := h.wellFormed.typeAt_of_mem hr hx
  by_cases hpages : ∃ b ∈ bufferPages s, b.Contains x
  · obtain ⟨k, hk, hkx, _⟩ := exists_of_typeAt (h.pages x hpages).1
    exact ⟨k, hk, hkx⟩
  · rw [h.rest x hpages] at htype
    obtain ⟨k, hk, hkx, _⟩ := exists_of_typeAt htype
    exact ⟨k, hk, hkx⟩

/-- **Appending an entry keeps the invariant**, when it lies above those added before. -/
theorem Filled.appends (h : Filled tracked g)
    (hroom : g.gEntryCount + worstCaseGrowthPerAllocation < g.gCapacity) {mr : MemoryRange}
    (hmr : GoodRange mr)
    (hbelow : ∀ r ∈ tracked, r.physicalAddress + r.mrSize ≤ mr.physicalAddress) :
    ∃ t, rangeEmplaceAt g g.gEntryCount mr = .done t ∧ Filled (tracked ++ [mr]) t := by
  have hfree : g.gEntryCount < g.gCapacity := by omega
  obtain ⟨t, ht, htable, hframe⟩ :=
    rangeEmplaceAt_spec mr (List.append_nil g.table).symm hfree
  rw [State.length_table] at ht
  have hpages := bufferPages_of_frame hframe
  have hcount : t.gEntryCount = g.gEntryCount + 1 := by
    rw [← State.length_table, htable, List.length_append, State.length_table]
    rfl
  -- the last address of an entry of the table lies in an entry that was added
  have htop : ∀ r ∈ g.table, r.physicalAddress + r.mrSize ≤ mr.physicalAddress := by
    intro r hr
    have hpos := (h.wellFormed.valid r hr).nonempty
    obtain ⟨k, hk, hkx⟩ := h.exists_added hr
      (⟨by omega, by omega⟩ : r.Contains (r.physicalAddress + r.mrSize - 1))
    have hend := hkx.2
    have := hbelow k hk
    omega
  refine ⟨t, ht, ⟨?_, wellFormed_concat h.added hmr hbelow, ?_, ?_, ?_, ?_, ?_⟩⟩
  · rw [htable]
    exact wellFormed_concat h.wellFormed hmr htop
  · intro x hx
    rw [hpages] at hx
    obtain ⟨hadded, htype⟩ := h.pages x hx
    rw [htable, typeAt_concat, typeAt_concat, hadded, htype]
    exact ⟨rfl, rfl⟩
  · intro x hx
    rw [hpages] at hx
    rw [htable, typeAt_concat, typeAt_concat, h.rest x hx]
  · rw [hcount, hframe.gCapacity]
    omega
  · intro hbuffer
    rw [hframe.gCapacity]
    exact h.static (hframe.gBuffer ▸ hbuffer)
  · rw [hframe.gCapacity]
    exact h.word

/-- What the table says about an address that was added. -/
theorem Filled.types (h : Filled tracked s) (x : ℕ) :
    (typeAt s.table x = some memoryFree ↔
      typeAt tracked x = some memoryFree ∧ ¬ ∃ b ∈ bufferPages s, b.Contains x) ∧
    (typeAt s.table x = some memoryAllocated ↔
      typeAt tracked x = some memoryAllocated ∨ ∃ b ∈ bufferPages s, b.Contains x) := by
  by_cases hpages : ∃ b ∈ bufferPages s, b.Contains x
  · obtain ⟨_, hnow⟩ := h.pages x hpages
    refine ⟨iff_of_false ?_ (fun hfree => hfree.2 hpages), iff_of_true hnow (Or.inr hpages)⟩
    rw [hnow]
    decide
  · rw [h.rest x hpages]
    exact ⟨⟨fun hfree => ⟨hfree, hpages⟩, And.left⟩, ⟨Or.inl, fun h => h.resolve_right hpages⟩⟩

/-! ### The loop -/

/-- Sorted, disjoint, non-empty and page-aligned entries below `2 ^ 64`. -/
structure ValidMap (entries : List UltraMemoryMapEntry) : Prop where
  nonempty : ∀ e ∈ entries, 0 < e.size
  aligned : ∀ e ∈ entries, e.physicalAddress % pageSize = 0 ∧ e.size % pageSize = 0
  bounded : ∀ e ∈ entries, e.physicalAddress + e.size < 2 ^ 64
  sorted : entries.Pairwise fun a b => a.physicalAddress + a.size ≤ b.physicalAddress

theorem rangeType_lt {entry : UltraMemoryMapEntry} {type : ℕ} (h : entry.rangeType = some type) :
    type < 2 := by
  unfold UltraMemoryMapEntry.rangeType at h
  split_ifs at h
  · rw [← Option.some.inj h]
    decide
  · rw [← Option.some.inj h]
    decide

/-- The range that is appended covers its entry. -/
theorem range_parts {entries : List UltraMemoryMapEntry} (hmap : ValidMap entries)
    {entry : UltraMemoryMapEntry} (hentry : entry ∈ entries) {range : MemoryRange}
    (h : entry.range = some range) :
    range.physicalAddress = entry.physicalAddress ∧ range.mrSize = entry.size ∧
      entry.rangeType = some range.mrType ∧ GoodRange range := by
  obtain ⟨type, htype, rfl⟩ := Option.map_eq_some_iff.mp h
  obtain ⟨haddress, hsize⟩ := hmap.aligned entry hentry
  have hbound := hmap.bounded entry hentry
  have hlt := rangeType_lt htype
  obtain ⟨hrsize, hrtype⟩ :=
    requestedRange_parts entry.physicalAddress hsize (by omega) hlt
  have hgood :=
    requestedRange_good hsize (hmap.nonempty entry hentry) hbound haddress hlt
  exact ⟨rfl, hrsize, htype.trans (congrArg some hrtype.symm), hgood⟩

/-- The ranges of the entries that are tracked. -/
def trackedRanges (entries : List UltraMemoryMapEntry) : List MemoryRange :=
  entries.filterMap UltraMemoryMapEntry.range

theorem trackedRanges_append (before : List UltraMemoryMapEntry) (entry : UltraMemoryMapEntry) :
    trackedRanges (before ++ [entry]) = trackedRanges before ++ entry.range.toList := by
  rw [trackedRanges, List.filterMap_append]
  cases hrange : entry.range with
  | none => rw [List.filterMap_cons_none hrange, List.filterMap_nil]; rfl
  | some range => rw [List.filterMap_cons_some hrange, List.filterMap_nil]; rfl

/-- **One entry of the map** is appended to the table. -/
theorem Filled.appendsEntry {before rest : List UltraMemoryMapEntry} {entry : UltraMemoryMapEntry}
    {range : MemoryRange} (fuel : ℕ) (hmap : ValidMap (before ++ entry :: rest))
    (h : Filled (trackedRanges before) s) (hrange : entry.range = some range) (hgrows : GrowsOnce s) :
    ∃ t, rangeAppend (fuel + 1) s range = .done (eok, t) ∧
      Filled (trackedRanges (before ++ [entry])) t := by
  have hmem : entry ∈ before ++ entry :: rest := by simp
  obtain ⟨haddress, _, _, hgood⟩ := range_parts hmap hmem hrange
  have hbelow : ∀ r ∈ trackedRanges before,
      r.physicalAddress + r.mrSize ≤ range.physicalAddress := by
    intro r hr
    obtain ⟨e, he, her⟩ := List.mem_filterMap.mp hr
    obtain ⟨hstart, hsize, _⟩ := range_parts hmap (List.mem_append_left _ he) her
    rw [hstart, hsize, haddress]
    exact (List.pairwise_append.mp hmap.sorted).2.2 e he entry (by simp)
  obtain ⟨g, hg, hfilled, hroom⟩ := h.makesRoom hgrows fuel
  obtain ⟨t, ht, hadded⟩ := hfilled.appends hroom hgood hbelow
  refine ⟨t, ?_, ?_⟩
  · rw [rangeAppend, hg, Outcome.done_bind]
    show (rangeEmplaceAt g g.gEntryCount range >>= fun t => .done (eok, t)) = _
    rw [ht, Outcome.done_bind]
  · rw [trackedRanges_append, hrange]
    exact hadded

/-- **The loop keeps the invariant**: it adds the rest of the map to the entries added before. -/
theorem bootAllocInitLoop_fills {before rest : List UltraMemoryMapEntry} (fuel : ℕ)
    (hmap : ValidMap (before ++ rest)) (h : Filled (trackedRanges before) s)
    (hgrows : FillsGrowingOnce (fuel + 1) rest s) :
    ∃ t, bootAllocInitLoop (fuel + 1) rest s = .done t ∧
      Filled (trackedRanges (before ++ rest)) t := by
  induction rest generalizing before s with
  | nil => exact ⟨s, rfl, by rwa [List.append_nil]⟩
  | cons entry rest ih =>
    have hmap' : ValidMap ((before ++ [entry]) ++ rest) := by
      rwa [List.append_assoc, List.singleton_append]
    cases hrange : entry.range with
    | none =>
      have hsame : trackedRanges (before ++ [entry]) = trackedRanges before := by
        rw [trackedRanges_append, hrange]
        exact List.append_nil _
      rw [FillsGrowingOnce, hrange] at hgrows
      rw [bootAllocInitLoop, hrange]
      obtain ⟨t, ht, hfilled⟩ := ih hmap' (hsame ▸ h) hgrows
      rw [List.append_assoc, List.singleton_append] at hfilled
      exact ⟨t, ht, hfilled⟩
    | some range =>
      rw [FillsGrowingOnce, hrange] at hgrows
      obtain ⟨t, happend, hadded⟩ := h.appendsEntry fuel hmap hrange hgrows.1
      obtain ⟨u, hu, hfilled'⟩ := ih hmap' hadded (hgrows.2 eok t happend)
      rw [List.append_assoc, List.singleton_append] at hfilled'
      refine ⟨u, ?_, hfilled'⟩
      rw [bootAllocInitLoop, hrange]
      show (rangeAppend (fuel + 1) s range >>= fun p => bootAllocInitLoop (fuel + 1) rest p.2) = _
      rw [happend, Outcome.done_bind]
      exact hu

end Filled

/-! ### Main result -/

/-- The type of an address in the tracked ranges is that of its entry. -/
theorem typeAt_trackedRanges {entries : List UltraMemoryMapEntry} (hmap : ValidMap entries)
    (hwf : WellFormedTable (trackedRanges entries)) (x type : ℕ) :
    typeAt (trackedRanges entries) x = some type ↔
      ∃ e ∈ entries, e.rangeType = some type ∧ e.Contains x := by
  constructor
  · intro htype
    obtain ⟨r, hr, hx, rfl⟩ := exists_of_typeAt htype
    obtain ⟨e, he, her⟩ := List.mem_filterMap.mp hr
    obtain ⟨hstart, hsize, hkind, _⟩ := range_parts hmap he her
    refine ⟨e, he, hkind, ?_⟩
    rw [UltraMemoryMapEntry.Contains, ← hstart, ← hsize]
    exact hx
  · intro hentry
    obtain ⟨e, he, hkind, hx⟩ := hentry
    have her : e.range = some ⟨e.physicalAddress, mrEncode e.size type⟩ :=
      Option.map_eq_some_iff.mpr ⟨type, hkind, rfl⟩
    obtain ⟨hstart, hsize, hkind', _⟩ := range_parts hmap he her
    have hmem := List.mem_filterMap.mpr ⟨e, he, her⟩
    rw [hkind] at hkind'
    rw [Option.some.inj hkind']
    apply hwf.typeAt_of_mem hmem
    rw [UltraMemoryMapEntry.Contains, ← hstart, ← hsize] at hx
    exact hx

theorem rangeType_eq_free {entry : UltraMemoryMapEntry} :
    entry.rangeType = some memoryFree ↔ entry.type = ultraMemoryTypeFree := by
  unfold UltraMemoryMapEntry.rangeType
  split_ifs with hallocated hfree
  · refine iff_of_false (by decide) ?_
    intro heq
    rw [heq] at hallocated
    exact absurd hallocated (by decide)
  · exact iff_of_true rfl hfree
  · exact iff_of_false (by simp) hfree

theorem rangeType_eq_allocated {entry : UltraMemoryMapEntry} :
    entry.rangeType = some memoryAllocated ↔ entry.type = ultraMemoryTypeReclaimable ∨
      entry.type = ultraMemoryTypeKernelBinary ∨
      entry.type = ultraMemoryTypeLoaderReclaimable := by
  unfold UltraMemoryMapEntry.rangeType
  split_ifs with hallocated hfree
  · exact iff_of_true rfl hallocated
  · exact iff_of_false (by decide) hallocated
  · exact iff_of_false (by simp) hallocated

/-- **The table at boot.**  For a sorted map of disjoint, non-empty, page-aligned entries, of any
length for which the table grows at most once and obtains its pages, `boot_alloc_init` completes
with a well-formed table: FREE are the addresses of the FREE entries, except for the pages of the
grown table; ALLOCATED are those of the reclaimable, kernel and loader entries, and those pages;
nothing else is tracked. -/
theorem bootAllocInit_fills {memory : Buffer → ℕ → MemoryRange} {mm : UltraMemoryMapAttribute}
    (hmap : ValidMap mm.visited) (fuel : ℕ)
    (hgrows : FillsGrowingOnce (fuel + 1) mm.visited (initialState memory)) :
    ∃ t, bootAllocInit (fuel + 1) memory mm = .done t ∧ WellFormedTable t.table ∧ ∀ x,
      (typeAt t.table x = some memoryFree ↔
        (∃ e ∈ mm.visited, e.type = ultraMemoryTypeFree ∧ e.Contains x) ∧
          ¬ ∃ b ∈ bufferPages t, b.Contains x) ∧
      (typeAt t.table x = some memoryAllocated ↔
        (∃ e ∈ mm.visited, (e.type = ultraMemoryTypeReclaimable ∨
          e.type = ultraMemoryTypeKernelBinary ∨ e.type = ultraMemoryTypeLoaderReclaimable) ∧
            e.Contains x) ∨ ∃ b ∈ bufferPages t, b.Contains x) ∧
      (typeAt t.table x = none ↔
        typeAt t.table x ≠ some memoryFree ∧ typeAt t.table x ≠ some memoryAllocated) := by
  have hmap' : ValidMap ([] ++ mm.visited) := by rwa [List.nil_append]
  obtain ⟨t, ht, hfilled⟩ := bootAllocInitLoop_fills fuel hmap' (filled_initial memory) hgrows
  rw [List.nil_append] at hfilled
  refine ⟨t, ht, hfilled.wellFormed, ?_⟩
  intro x
  have hfree := typeAt_trackedRanges hmap hfilled.added x memoryFree
  have hallocated := typeAt_trackedRanges hmap hfilled.added x memoryAllocated
  simp only [rangeType_eq_free] at hfree
  simp only [rangeType_eq_allocated] at hallocated
  have hkinds : typeAt t.table x = none ↔
      typeAt t.table x ≠ some memoryFree ∧ typeAt t.table x ≠ some memoryAllocated := by
    cases hkind : typeAt t.table x with
    | none => simp
    | some type =>
      have hlt := typeAt_lt hkind
      simp only [memoryFree, memoryAllocated, ne_eq, Option.some.injEq, reduceCtorEq, false_iff]
      omega
  obtain ⟨hnowFree, hnowAllocated⟩ := hfilled.types x
  exact ⟨hnowFree.trans (and_congr_left fun _ => hfree),
    hnowAllocated.trans (or_congr_left hallocated), hkinds⟩

instance decidableFillsGrowingOnce (fuel : ℕ) :
    ∀ entries s, Decidable (FillsGrowingOnce fuel entries s)
  | [], _ => .isTrue trivial
  | entry :: rest, s =>
    match hrange : entry.range with
    | none =>
      have := decidableFillsGrowingOnce fuel rest s
      decidable_of_iff (FillsGrowingOnce fuel rest s) (by rw [FillsGrowingOnce, hrange])
    | some range =>
      match happend : rangeAppend fuel s range with
      | .done (error, t) =>
        have := decidableFillsGrowingOnce fuel rest t
        decidable_of_iff (GrowsOnce s ∧ FillsGrowingOnce fuel rest t)
          (by rw [FillsGrowingOnce, hrange]; simp [happend])
      | .halt bug =>
        decidable_of_iff (GrowsOnce s) (by rw [FillsGrowingOnce, hrange]; simp [happend])
      | .outOfFuel =>
        decidable_of_iff (GrowsOnce s) (by rw [FillsGrowingOnce, hrange]; simp [happend])

/-- Three FREE pages and a gap of one page, for as often as the static table has to grow. -/
def manyEntries : UltraMemoryMapAttribute :=
  ⟨ultraAttributeHeaderSize + 254 * ultraMemoryMapEntrySize, fun i =>
    ⟨(4 * i + 1) * pageSize, 3 * pageSize, ultraMemoryTypeFree⟩⟩

theorem visited_manyEntries : manyEntries.visited = (List.range 254).map manyEntries.entries := rfl

theorem validMap_manyEntries : ValidMap manyEntries.visited := by
  rw [visited_manyEntries]
  refine ⟨?_, ?_, ?_, ?_⟩
  · simp [manyEntries, pageSize]
  · simp [manyEntries, pageSize]
  · simp [manyEntries, pageSize]
    omega
  · rw [List.pairwise_map]
    refine List.pairwise_lt_range.imp fun {i j} hij => ?_
    simp only [manyEntries, pageSize]
    omega

/-- The last entry finds the static table full, which grows into the one before. -/
theorem bootAllocInit_fills_manyEntries : ∃ t,
    bootAllocInit 1 (fun _ _ => ⟨0, 0⟩) manyEntries = .done t ∧ WellFormedTable t.table ∧
      bufferPages t = [⟨0x3F2000, 2⟩] := by
  obtain ⟨t, ht, hwf, _⟩ := @bootAllocInit_fills (fun _ _ => ⟨0, 0⟩) manyEntries validMap_manyEntries 0
    (by decide +kernel)
  have hpages : (bootAllocInit 1 (fun _ _ => ⟨0, 0⟩) manyEntries).value?.map bufferPages =
      some [⟨0x3F2000, 2⟩] := by
    decide +kernel
  rw [Outcome.value?_eq_some.mpr ht] at hpages
  exact ⟨t, ht, hwf, Option.some.inj hpages⟩

end UltraKernel.BootAlloc
