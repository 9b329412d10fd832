import UltraKernel.BootAlloc.ErrorCodes
import Mathlib.Order.Bounds.Defs

/-!
# The functions of the allocator on the map of memory

A well-formed table is a map from addresses to types; each function of the allocator is stated as
what it does to that map.

* `allocateOutOf_updates_map`: carving a range out of an entry moves exactly its interval to the
  other type, whichever way the range meets its neighbours;
* `bootAlloc_takes_greatest`: `boot_alloc` takes the greatest address there is;
* `allocateWithin_takes_least`: `allocate_within` takes the least one between its limits.
-/

namespace UltraKernel.BootAlloc

open Word

/-- **Carving a range out of an entry** of the opposite type: the table stays well-formed, its map
changes exactly on the range, and the number of entries by at most two either way. -/
theorem allocateOutOf_updates_map {s : State} {i : ℕ} {new : MemoryRange}
    (hwf : WellFormedTable s.table)
    (hslots : s.gEntryCount + worstCaseGrowthPerAllocation ≤ s.gCapacity)
    (hi : i < s.gEntryCount) (hin : Inside new (s.entry i)) (hword : new.sizeAndType < 2 ^ 64)
    (hpos : 0 < new.mrSize) (haligned : AlignedRange new)
    (htype : (s.entry i).mrType ≠ new.mrType) :
    ∃ t, allocateOutOf s i new = .done t ∧ WellFormedTable t.table ∧
      (∀ x, typeAt t.table x = if new.Contains x then some new.mrType else typeAt s.table x) ∧
      s.gEntryCount ≤ t.gEntryCount + worstCaseGrowthPerAllocation ∧
      t.gEntryCount ≤ s.gEntryCount + worstCaseGrowthPerAllocation := by
  obtain ⟨l, cur, r, h, rfl⟩ := State.exists_split hi
  rw [State.entry_of_table h] at hin htype
  have hcur := hwf.valid cur (by rw [h]; simp)
  have hnew : GoodRange new := ⟨⟨hword, hpos, hin.le_hi.trans_lt hcur.bounded⟩, haligned⟩
  obtain ⟨m, hm, hupdates, hperforms⟩ := allocateOutOf_updates h hwf hin htype hnew
  obtain ⟨hup, hdown⟩ := hm.length_le
  have hcount := State.gEntryCount_of_table h
  simp only [List.length_append, List.length_cons] at hcount
  obtain ⟨t, hrun, htable, _⟩ := hperforms.of_le (by omega)
  have hcount' : t.gEntryCount = m.length := by rw [← State.length_table, htable]
  exact ⟨t, hrun, htable ▸ hupdates.wellFormed, fun x => htable ▸ hupdates.typeAt x, by omega,
    by omega⟩

/-- The middle one of three FREE pages. -/
theorem allocateOutOf_updates_map_threePages :
    ∃ t, allocateOutOf (threePages 256) 0 ⟨0x2000, 0x1001⟩ = .done t ∧ WellFormedTable t.table ∧
      ∀ x, typeAt t.table x = if (MemoryRange.mk 0x2000 0x1001).Contains x then
        some memoryAllocated else typeAt (threePages 256).table x := by
  have hin : Inside ⟨0x2000, 0x1001⟩ ((threePages 256).entry 0) := ⟨by decide, by decide⟩
  obtain ⟨t, hrun, hwf, htypeAt, _⟩ := allocateOutOf_updates_map (wellFormed_threePages 256)
    (by decide) (by decide) hin (by decide) (by decide) ⟨by decide, by decide⟩ (by decide)
  exact ⟨t, hrun, hwf, htypeAt⟩

/-! ### Retyped intervals -/

/-- Exactly the interval has changed its type, from the old one to the new one, in a table that is
well-formed. -/
structure Retyped (s : State) (address bytes old new : ℕ) (t : State) : Prop where
  wellFormed : WellFormedTable t.table
  inside : ∀ x, address ≤ x → x < address + bytes →
    typeAt s.table x = some old ∧ typeAt t.table x = some new
  outside : ∀ x, ¬ (address ≤ x ∧ x < address + bytes) → typeAt t.table x = typeAt s.table x

/-- An edit retypes the interval of its range. -/
theorem Edited.retyped {s t : State} {new : MemoryRange} {old type bytes : ℕ}
    (h : Edited s new t) (hsize : new.mrSize = bytes) (htype : new.mrType = type)
    (hother : ∀ k < 2, k ≠ type → k = old) :
    Retyped s new.physicalAddress bytes old type t := by
  have hcontains : ∀ x, new.Contains x ↔
      new.physicalAddress ≤ x ∧ x < new.physicalAddress + bytes := by
    intro x
    rw [← hsize]
    rfl
  refine ⟨h.updates.wellFormed, ?_, ?_⟩
  · intro x hlo hhi
    have hx := (hcontains x).mpr ⟨hlo, hhi⟩
    obtain ⟨k, hk, hne⟩ := h.wasOther x hx
    rw [htype] at hne
    refine ⟨by rw [hk, hother k (typeAt_lt hk) hne], ?_⟩
    rw [h.updates.typeAt, if_pos hx, htype]
  · intro x hx
    rw [h.updates.typeAt, if_neg ((hcontains x).not.mpr hx)]

/-- An allocation retypes its interval from FREE to ALLOCATED. -/
theorem Edited.allocates {s t : State} {address bytes : ℕ}
    (h : Edited s (requestedRange address bytes memoryAllocated) t) (hmod : bytes % pageSize = 0)
    (hword : bytes < 2 ^ 64) : Retyped s address bytes memoryFree memoryAllocated t := by
  obtain ⟨hsize, htype⟩ := requestedRange_parts address hmod hword (by decide : memoryAllocated < 2)
  apply h.retyped hsize htype
  intro k hk hne
  exact eq_of_ne_memoryAllocated hk hne

/-- A free retypes its interval from ALLOCATED to FREE. -/
theorem Edited.frees {s t : State} {address bytes : ℕ}
    (h : Edited s (requestedRange address bytes memoryFree) t) (hmod : bytes % pageSize = 0)
    (hword : bytes < 2 ^ 64) : Retyped s address bytes memoryAllocated memoryFree t := by
  obtain ⟨hsize, htype⟩ := requestedRange_parts address hmod hword (by decide : memoryFree < 2)
  apply h.retyped hsize htype
  intro k hk hne
  unfold memoryFree memoryAllocated at *
  omega

/-! ### `boot_alloc` -/

/-- Enough slots are free that a call does not grow the table. -/
structure EnoughSlots (s : State) : Prop where
  room : s.gEntryCount + growthWatermark s ≤ s.gCapacity
  word : s.gCapacity < 2 ^ 64

section BootAlloc

variable {s : State} {n : ℕ}

theorem EnoughSlots.noGrowth (h : EnoughSlots s) : NoGrowth s := by
  have hroom := h.room
  unfold NoGrowth
  rw [sub64_of_le (by omega) h.word]
  omega

theorem EnoughSlots.slots (h : EnoughSlots s) :
    s.gEntryCount + worstCaseGrowthPerAllocation ≤ s.gCapacity := by
  have hroom := h.room
  unfold growthWatermark at hroom
  omega

/-- The bytes of whole pages that fit in a word are a valid request. -/
theorem mul64_pages (hn : 1 ≤ n) (hbytes : n * pageSize < 2 ^ 64) :
    mul64 n pageSize = n * pageSize ∧ n < n * pageSize := by
  refine ⟨mul64_of_lt hbytes, ?_⟩
  simp only [pageSize]
  omega

/-- The end of the highest entry that offers enough bounds every region. -/
theorem FreeRegion.le_top {l r : List MemoryRange} {cur : MemoryRange} {address bytes : ℕ}
    (hwf : WellFormedTable (l ++ cur :: r)) (hno : ∀ x ∈ r, ¬ Offers bytes x)
    (h : FreeRegion address bytes (l ++ cur :: r)) :
    address + bytes ≤ cur.physicalAddress + cur.mrSize := by
  obtain ⟨x, hx, htype, hlo, hhi⟩ := h
  rcases List.mem_append.mp hx with hx | hx
  · have := hwf.before hx
    omega
  · rcases List.mem_cons.mp hx with rfl | hx
    · exact hhi
    · exact absurd ⟨htype, by omega⟩ (hno x hx)

/-- **Top-down allocation.**  Without growth `boot_alloc` fails, and changes nothing, exactly when
no FREE entry is large enough; otherwise it takes the greatest address at which the pages lie in
one FREE entry. -/
theorem bootAlloc_takes_greatest (hwf : WellFormedTable s.table) (hslots : EnoughSlots s)
    (hn : 1 ≤ n) (hbytes : n * pageSize < 2 ^ 64) (fuel : ℕ) :
    (bootAlloc (fuel + 1) s n = .done (encodeErrorPhysAddr enomem, s) ↔
      ∀ r ∈ s.table, r.mrType = memoryFree → r.mrSize < n * pageSize) ∧
    ((∃ r ∈ s.table, r.mrType = memoryFree ∧ n * pageSize ≤ r.mrSize) →
      ∃ address t, bootAlloc (fuel + 1) s n = .done (address, t) ∧
        IsGreatest {a | FreeRegion a (n * pageSize) s.table} address ∧
        Retyped s address (n * pageSize) memoryFree memoryAllocated t) := by
  obtain ⟨hmul, hlt⟩ := mul64_pages hn hbytes
  have hmod : n * pageSize % pageSize = 0 := Nat.mul_mod_left _ _
  have hcall : bootAlloc (fuel + 1) s n = bootAllocNogrow s n := by
    rw [bootAlloc, maybeGrowBuffer_of_noGrowth hslots.noGrowth]
    rfl
  rw [hcall]
  rcases bootAllocNogrow_cases hwf n with ⟨hle, _⟩ | ⟨_, hno, heq⟩ | ⟨_, l, cur, r, h, hcur, hno, heq⟩
  · omega
  · -- no entry offers enough
    rw [hmul] at hno
    rw [heq]
    refine ⟨iff_of_true rfl ?_, ?_⟩
    · intro r hr htype
      by_contra hge
      exact hno r hr ⟨htype, not_lt.mp hge⟩
    · rintro ⟨r, hr, hr'⟩
      exact absurd hr' (hno r hr)
  · rw [hmul] at hcur hno heq
    have hgood := hwf.good cur (by rw [h]; simp)
    obtain ⟨hin, hnew, _, htype⟩ := topRange_spec hgood hcur hmod (by omega)
    obtain ⟨t, ht, hedit⟩ := allocateOutOf_slots h hwf hin (hcur.type_ne htype) hnew hslots.slots
    have hsize := hcur.2
    rw [heq, ht, Outcome.done_bind]
    refine ⟨iff_of_false ?_ ?_, ?_⟩
    · -- the errno value is not page-aligned
      intro hret
      have haligned := hnew.2.address
      have haddr : cur.physicalAddress + cur.mrSize - n * pageSize = enomem :=
        (Prod.mk.inj (Outcome.done.inj hret)).1
      change (cur.physicalAddress + cur.mrSize - n * pageSize) % pageSize = 0 at haligned
      rw [haddr] at haligned
      exact absurd haligned (by decide)
    · intro hsmall
      have := hsmall cur (by rw [h]; simp) hcur.1
      omega
    · intro _
      refine ⟨_, t, rfl, ⟨?_, ?_⟩, hedit.allocates hmod hbytes⟩
      · exact ⟨cur, by rw [h]; simp, hcur.1, by omega, by omega⟩
      · intro a ha
        change FreeRegion a (n * pageSize) s.table at ha
        rw [h] at ha hwf
        have := ha.le_top hwf hno
        omega

/-- One page of three, taken from the top. -/
theorem bootAlloc_takes_greatest_threePages :
    ∃ address t, bootAlloc 1 (threePages 256) 1 = .done (address, t) ∧
      IsGreatest {a | FreeRegion a (1 * pageSize) (threePages 256).table} address ∧
      Retyped (threePages 256) address (1 * pageSize) memoryFree memoryAllocated t :=
  (bootAlloc_takes_greatest (wellFormed_threePages 256) ⟨by decide, by decide⟩ (by decide)
    (by decide) 0).2 ⟨⟨0x1000, 0x3000⟩, List.mem_singleton.mpr rfl, by decide, by decide⟩

end BootAlloc

/-! ### `allocate_within` -/

/-- `withinLoop`, with the operands of `available_gap` each time that it is computed. -/
def withinLoopGaps (s : State) (bytesToAllocate lowerLimit upperLimit : ℕ) :
    ℕ → ℕ → Option ℕ × List (ℕ × ℕ)
  | 0, _ => (none, [])
  | remaining + 1, mrIdx =>
    let pickedMr := s.entry mrIdx
    let nextRange :=
      if pickedMr.mrEnd ≥ upperLimit then (none, [])
      else if sub64 upperLimit pickedMr.mrEnd < bytesToAllocate then (none, [])
      else withinLoopGaps s bytesToAllocate lowerLimit upperLimit remaining (mrIdx + 1)
    if pickedMr.physicalAddress > upperLimit then (none, [])
    else if pickedMr.mrType ≠ memoryFree then nextRange
    else
      let gap := (min pickedMr.mrEnd upperLimit, max pickedMr.physicalAddress lowerLimit)
      if sub64 gap.1 gap.2 ≥ bytesToAllocate then (some mrIdx, [gap])
      else (nextRange.1, gap :: nextRange.2)

/-- The operands of the gaps that `allocate_within` computes. -/
def allocateWithinGaps (s : State) (pageCount lowerLimit upperLimit : ℕ) :
    Outcome Bug (List (ℕ × ℕ)) := do
  let mrIdx ← findRange s lowerLimit .yes
  if mrIdx < 0 then
    return []
  else
    return (withinLoopGaps s (mul64 pageCount pageSize) lowerLimit upperLimit
      (s.gEntryCount - mrIdx.toNat) mrIdx.toNat).2

section AllocateWithin

variable {s : State} {n lower upper : ℕ}

/-- The record does not change the loop. -/
theorem withinLoopGaps_fst (s : State) (bytes lower upper remaining mrIdx : ℕ) :
    (withinLoopGaps s bytes lower upper remaining mrIdx).1 =
      withinLoop s bytes lower upper remaining mrIdx := by
  induction remaining generalizing mrIdx with
  | zero => rfl
  | succ remaining ih =>
    rw [withinLoopGaps, withinLoop, ← ih]
    dsimp only
    split_ifs with habove htype hgap <;> first | rfl | tauto

/-- **No gap underflows**, on entries that end above the lower limit. -/
theorem withinLoopGaps_le {l r : List MemoryRange} {bytes : ℕ} (h : s.table = l ++ r)
    (hvalid : ∀ x ∈ r, ValidRange x) (hlimits : lower < upper)
    (habove : ∀ x ∈ r, lower < x.physicalAddress + x.mrSize) :
    ∀ gap ∈ (withinLoopGaps s bytes lower upper r.length l.length).2, gap.2 ≤ gap.1 := by
  induction r generalizing l with
  | nil =>
    intro gap hgap
    exact absurd hgap List.not_mem_nil
  | cons cur r ih =>
    have hcur := hvalid cur (List.mem_cons_self ..)
    have hpos := hcur.nonempty
    have hend := habove cur (List.mem_cons_self ..)
    have hrest := @ih (l ++ [cur]) (by simpa using h)
      (fun x hx => hvalid x (List.mem_cons_of_mem _ hx))
      (fun x hx => habove x (List.mem_cons_of_mem _ hx))
    rw [List.length_append, List.length_singleton] at hrest
    intro gap hgap
    rw [List.length_cons, withinLoopGaps, State.entry_of_table h] at hgap
    dsimp only at hgap
    by_cases hstart : cur.physicalAddress > upper
    · rw [if_pos hstart] at hgap
      exact absurd hgap List.not_mem_nil
    · have hhere : max cur.physicalAddress lower ≤ min cur.mrEnd upper := by
        rw [hcur.mrEnd_eq]
        omega
      have hnext : ∀ gap ∈ (if cur.mrEnd ≥ upper then (none, [])
          else if sub64 upper cur.mrEnd < bytes then (none, [])
          else withinLoopGaps s bytes lower upper r.length (l.length + 1)).2, gap.2 ≤ gap.1 := by
        intro gap hgap
        split_ifs at hgap
        · exact absurd hgap List.not_mem_nil
        · exact absurd hgap List.not_mem_nil
        · exact hrest gap hgap
      rw [if_neg hstart] at hgap
      generalize (if cur.mrEnd ≥ upper then (none, [])
        else if sub64 upper cur.mrEnd < bytes then (none, [])
        else withinLoopGaps s bytes lower upper r.length (l.length + 1)) = nextRange at hgap hnext
      split_ifs at hgap
      · exact hnext gap hgap
      · rw [List.mem_singleton.mp hgap]
        exact hhere
      · rcases List.mem_cons.mp hgap with rfl | hgap
        · exact hhere
        · exact hnext gap hgap

/-- The addresses between the limits at which the pages lie in one FREE entry. -/
def regionsWithin (l : List MemoryRange) (n lower upper : ℕ) : Set ℕ :=
  {a | lower ≤ a ∧ a + n * pageSize ≤ upper ∧ FreeRegion a (n * pageSize) l}

/-- An entry that fits holds a region, at its own start or at the limit. -/
theorem Fits.region {l : List MemoryRange} {x : MemoryRange} (hx : x ∈ l)
    (h : Fits (n * pageSize) lower upper x) :
    max lower x.physicalAddress ∈ regionsWithin l n lower upper := by
  have hle := h.2
  exact ⟨le_max_left _ _, by omega, x, hx, h.1, le_max_right _ _, by omega⟩

/-- The entry around a region fits. -/
theorem exists_fits {l : List MemoryRange} {a : ℕ} (ha : a ∈ regionsWithin l n lower upper) :
    ∃ x ∈ l, Fits (n * pageSize) lower upper x ∧ max lower x.physicalAddress ≤ a := by
  obtain ⟨hlower, hupper, x, hx, htype, hlo, hhi⟩ := ha
  exact ⟨x, hx, ⟨htype, by omega⟩, max_le hlower hlo⟩

/-- The lowest entry that fits holds the least region. -/
theorem isLeast_region {l r : List MemoryRange} {cur : MemoryRange}
    (hwf : WellFormedTable (l ++ cur :: r)) (hcur : Fits (n * pageSize) lower upper cur)
    (hno : ∀ x ∈ l, ¬ Fits (n * pageSize) lower upper x) :
    IsLeast (regionsWithin (l ++ cur :: r) n lower upper) (max lower cur.physicalAddress) := by
  refine ⟨hcur.region (by simp), ?_⟩
  intro a ha
  obtain ⟨x, hx, hfits, hle⟩ := exists_fits ha
  rcases List.mem_append.mp hx with hx | hx
  · exact absurd hfits (hno x hx)
  · rcases List.mem_cons.mp hx with rfl | hx
    · exact hle
    · -- a later entry starts above the lowest one
      have := hwf.behind hx
      have hend := hcur.2
      omega

/-- The limits that the statement speaks of are the valid ones. -/
theorem validLimits_pages (hn : 1 ≤ n) (hroom : lower + n * pageSize ≤ upper)
    (hupper : upper < 2 ^ 64) : mul64 n pageSize = n * pageSize ∧ ValidLimits n lower upper := by
  obtain ⟨hmul, hlt⟩ := mul64_pages hn (by omega : n * pageSize < 2 ^ 64)
  exact ⟨hmul, by omega, by omega, hupper⟩

/-- **No gap underflows** in a call with valid limits. -/
theorem allocateWithinGaps_le (hwf : WellFormedTable s.table) (hlimits : lower < upper) :
    ∃ gaps, allocateWithinGaps s n lower upper = .done gaps ∧ ∀ gap ∈ gaps, gap.2 ≤ gap.1 := by
  obtain ⟨l, r, h, _, hr, hfind⟩ := findRange_above hwf lower
  have hcount : s.gEntryCount = l.length + r.length := by
    simpa using State.gEntryCount_of_table h
  by_cases hnil : r = []
  · refine ⟨[], ?_, by simp⟩
    rw [allocateWithinGaps, hfind, Outcome.done_bind]
    simp [hnil]
  · rw [if_pos hnil] at hfind
    have hvalid : ∀ x ∈ r, ValidRange x := fun x hx => hwf.valid x (by rw [h]; simp [hx])
    have hgaps : ∀ gap ∈ (withinLoopGaps s (mul64 n pageSize) lower upper r.length l.length).2,
        gap.2 ≤ gap.1 := withinLoopGaps_le h hvalid hlimits hr
    refine ⟨_, ?_, hgaps⟩
    have hnonneg : ¬ ((l.length : ℤ) < 0) := by omega
    rw [allocateWithinGaps, hfind, Outcome.done_bind, if_neg hnonneg, Int.toNat_natCast,
      show s.gEntryCount - l.length = r.length by omega]
    rfl

/-- What `allocate_within` returns between valid limits. -/
theorem allocateWithin_regions (hwf : WellFormedTable s.table)
    (hslots : s.gEntryCount + worstCaseGrowthPerAllocation ≤ s.gCapacity) (hn : 1 ≤ n)
    (haligned : lower % pageSize = 0) (hroom : lower + n * pageSize ≤ upper)
    (hupper : upper < 2 ^ 64) :
    (regionsWithin s.table n lower upper = ∅ ∧
      allocateWithin s n lower upper = .done (encodeErrorPhysAddr enomem, s)) ∨
    ∃ address t, allocateWithin s n lower upper = .done (address, t) ∧
      address % pageSize = 0 ∧ IsLeast (regionsWithin s.table n lower upper) address ∧
      Retyped s address (n * pageSize) memoryFree memoryAllocated t := by
  obtain ⟨hmul, hvalid⟩ := validLimits_pages hn hroom hupper
  have hmod : n * pageSize % pageSize = 0 := Nat.mul_mod_left _ _
  rcases allocateWithin_cases hwf hvalid with ⟨hno, heq⟩ | ⟨l, cur, r, h, hcur, hno, heq⟩
  · rw [hmul] at hno
    refine Or.inl ⟨Set.eq_empty_of_forall_notMem ?_, heq⟩
    intro a ha
    obtain ⟨x, hx, hfits, _⟩ := exists_fits ha
    exact hno x hx hfits
  · have hgood := hwf.good cur (by rw [h]; simp)
    have hnew := hcur.good hvalid hgood haligned
    have htype := (requestedRange_parts (max lower cur.physicalAddress)
      (mul64_pageSize_mod n) (mul64_lt n pageSize) (by decide : memoryAllocated < 2)).2
    obtain ⟨t, ht, hedit⟩ := allocateOutOf_slots h hwf hcur.inside
      (by rw [hcur.1, htype]; decide) hnew hslots
    rw [ht, Outcome.done_bind] at heq
    rw [hmul] at hcur hno hedit
    have hleast := isLeast_region (h ▸ hwf) hcur hno
    rw [← h] at hleast
    exact Or.inr ⟨_, t, heq, hnew.2.address, hleast, hedit.allocates hmod (by omega)⟩

/-- **Bottom-up allocation.**  Between page-aligned limits with room for the pages no gap
underflows, the call fails, and changes nothing, exactly when no FREE entry holds the pages
between the limits, and otherwise it takes the least address at which one does.  `boot_alloc_at`
succeeds exactly when its pages lie in one FREE entry of the table that is left once room has been
made. -/
theorem allocateWithin_takes_least (hwf : WellFormedTable s.table)
    (hslots : s.gEntryCount + worstCaseGrowthPerAllocation ≤ s.gCapacity) (hn : 1 ≤ n)
    (haligned : lower % pageSize = 0) (hroom : lower + n * pageSize ≤ upper)
    (hupper : upper < 2 ^ 64) :
    (∃ gaps, allocateWithinGaps s n lower upper = .done gaps ∧ ∀ gap ∈ gaps, gap.2 ≤ gap.1) ∧
    (allocateWithin s n lower upper = .done (encodeErrorPhysAddr enomem, s) ↔
      ∀ a, a ∉ regionsWithin s.table n lower upper) ∧
    ((∃ a, a ∈ regionsWithin s.table n lower upper) →
      ∃ address t, allocateWithin s n lower upper = .done (address, t) ∧
        IsLeast (regionsWithin s.table n lower upper) address ∧
        Retyped s address (n * pageSize) memoryFree memoryAllocated t) ∧
    ∀ fuel start address, maybeGrowBuffer fuel start = .done (true, s) →
      address % pageSize = 0 → address + n * pageSize < 2 ^ 64 →
      ((∃ t, bootAllocAt fuel start address n = .done (address, t)) ↔
        FreeRegion address (n * pageSize) s.table) := by
  obtain ⟨hmul, _⟩ := validLimits_pages hn hroom hupper
  have hlimits : lower < upper := by
    simp only [pageSize] at hroom
    omega
  refine ⟨allocateWithinGaps_le hwf hlimits, ?_, ?_, ?_⟩
  · rcases allocateWithin_regions hwf hslots hn haligned hroom hupper with
      ⟨hempty, heq⟩ | ⟨address, t, heq, hpage, hleast, _⟩
    · exact iff_of_true heq (Set.eq_empty_iff_forall_notMem.mp hempty)
    · refine iff_of_false ?_ ?_
      · -- the errno value is not page-aligned
        intro hret
        have haddress : address = enomem := (Prod.mk.inj (Outcome.done.inj (heq.symm.trans hret))).1
        rw [haddress] at hpage
        exact absurd hpage (by decide)
      · intro hnone
        exact hnone address hleast.1
  · intro hsome
    rcases allocateWithin_regions hwf hslots hn haligned hroom hupper with
      ⟨hempty, _⟩ | ⟨address, t, heq, _, hleast, hretyped⟩
    · obtain ⟨a, ha⟩ := hsome
      exact absurd ha (Set.eq_empty_iff_forall_notMem.mp hempty a)
    · exact ⟨address, t, heq, hleast, hretyped⟩
  · intro fuel start address hgrow hpage hword
    have hcall : bootAllocAt fuel start address n =
        allocateWithin s n address (address + n * pageSize) := by
      rw [bootAllocAt, hgrow, Outcome.done_bind, shiftLeft_pageShift, hmul, add64_of_lt hword]
      rfl
    rw [hcall]
    rcases allocateWithin_regions hwf hslots hn hpage le_rfl hword with
      ⟨hempty, heq⟩ | ⟨a, t, heq, _, hleast, _⟩
    · refine iff_of_false ?_ ?_
      · intro hdone
        obtain ⟨t, ht⟩ := hdone
        have haddress : enomem = address := (Prod.mk.inj (Outcome.done.inj (heq.symm.trans ht))).1
        rw [← haddress] at hpage
        exact absurd hpage (by decide)
      · intro hfree
        exact Set.eq_empty_iff_forall_notMem.mp hempty address ⟨le_rfl, le_rfl, hfree⟩
    · -- the limits leave one address
      obtain ⟨hlo, hhi, hfree⟩ := hleast.1
      obtain rfl : a = address := by omega
      exact iff_of_true ⟨t, heq⟩ hfree

/-- The lowest of three pages. -/
theorem allocateWithin_takes_least_threePages :
    ∃ address t, allocateWithin (threePages 256) 1 0 0x4000 = .done (address, t) ∧
      IsLeast (regionsWithin (threePages 256).table 1 0 0x4000) address ∧
      Retyped (threePages 256) address (1 * pageSize) memoryFree memoryAllocated t :=
  (allocateWithin_takes_least (wellFormed_threePages 256) (by decide) (by decide) (by decide)
    (by decide) (by decide)).2.2.1 ⟨0x1000, by decide, by decide, ⟨0x1000, 0x3000⟩,
      List.mem_singleton.mpr rfl, by decide, by decide, by decide⟩

end AllocateWithin

/-! ### With two slots `boot_alloc_at` grows the table first -/

/-- The static table with two slots left: ALLOCATED ranges, and two FREE pages above them. -/
def crowded : State :=
  ⟨fun _ i => if i < 253 then ⟨(3 * i + 1) * pageSize, 2 * pageSize + memoryAllocated⟩
    else ⟨0x600000, 0x2000⟩, .initial, bootAllocInitialCapacity, 254⟩

theorem table_crowded : crowded.table =
    (spreadPages .initial bootAllocInitialCapacity 253).table ++ [⟨0x600000, 0x2000⟩] := by
  have hcount : crowded.gEntryCount = 253 + 1 := rfl
  have hlow : (List.range 253).map crowded.entry =
      (spreadPages .initial bootAllocInitialCapacity 253).table := by
    apply List.map_congr_left
    intro i hi
    exact if_pos (List.mem_range.mp hi)
  rw [State.table, hcount, List.range_succ, List.map_append, hlow]
  rfl

theorem wellFormed_crowded : WellFormedTable crowded.table := by
  have hwf := wellFormed_spreadPages .initial bootAllocInitialCapacity (by decide : 253 ≤ 2 ^ 32)
  rw [table_crowded]
  refine ⟨?_, ?_, List.pairwise_append.mpr ⟨hwf.sorted, List.pairwise_singleton _ _, ?_⟩⟩
  · intro r hr
    rcases List.mem_append.mp hr with hr | hr
    · exact hwf.valid r hr
    · obtain rfl := List.mem_singleton.mp hr
      exact ⟨by decide, by decide, by decide⟩
  · intro r hr
    rcases List.mem_append.mp hr with hr | hr
    · exact hwf.aligned r hr
    · obtain rfl := List.mem_singleton.mp hr
      exact ⟨by decide, by decide⟩
  · intro r hr t ht
    obtain ⟨i, hi, haddr, hsize, _, _⟩ := mem_spreadPages hr
    rw [List.mem_singleton.mp ht, haddr, hsize]
    simp only [pageSize]
    omega

/-- Two slots are free and the page is FREE, but the growth takes it before `boot_alloc_at`
looks. -/
theorem bootAllocAt_crowded :
    ¬ ∀ (s : State) (address n : ℕ), WellFormedTable s.table →
      s.gEntryCount + worstCaseGrowthPerAllocation ≤ s.gCapacity → 1 ≤ n →
      address % pageSize = 0 → address + n * pageSize < 2 ^ 64 →
      ((∃ fuel t, bootAllocAt fuel s address n = .done (address, t)) ↔
        FreeRegion address (n * pageSize) s.table) := by
  intro hall
  have hfree : FreeRegion 0x600000 (1 * pageSize) crowded.table :=
    ⟨⟨0x600000, 0x2000⟩, by rw [table_crowded]; simp, by decide, by decide, by decide⟩
  obtain ⟨fuel, t, ht⟩ := (hall crowded 0x600000 1 wellFormed_crowded (by decide) (by decide)
    (by decide) (by decide)).mpr hfree
  have hrun : (bootAllocAt 1 crowded 0x600000 1).value?.map Prod.fst = some enomem := by
    decide +kernel
  cases fuel with
  | zero => cases ht
  | succ fuel =>
    have hfuel : maybeGrowBuffer (fuel + 1) crowded = maybeGrowBuffer 1 crowded := by
      have hshort : ¬ NoGrowth crowded := by decide
      rw [maybeGrowBuffer_of_initial rfl hshort, maybeGrowBuffer_of_initial rfl hshort]
    have hsame : bootAllocAt (fuel + 1) crowded 0x600000 1 = bootAllocAt 1 crowded 0x600000 1 := by
      rw [bootAllocAt, bootAllocAt, hfuel]
    rw [← hsame, ht] at hrun
    have haddress : 0x600000 = enomem := Option.some.inj hrun
    exact absurd haddress (by decide)

end UltraKernel.BootAlloc
