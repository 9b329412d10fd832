import UltraKernel.BootAlloc.Ledger

/-!
# Growing the table

The public calls first make room.  `NoGrowth` is the test `maybe_grow_buffer` makes; when it fails
on the static table, the pages of the next one are allocated, the entries are copied and the
pointer is switched (`State.switch`).

* `allocateOutOf_run`, `bootAllocNogrow_run`: what the parts of a call do on any table, well-formed or not;
* `maybeGrowBuffer_of_noGrowth`, `maybeGrowBuffer_of_initial`: the two simple ways to make room;
* `bootAlloc_run`, `bootAllocAt_run`, `bootFree_run`: the parts of a completed call, room first.
-/

namespace UltraKernel.BootAlloc

open Word

/-! ### On any table -/

section AnyTable

variable {s t : State}

theorem State.exists_split {i : ℕ} (hi : i < s.gEntryCount) :
    ∃ l cur r, s.table = l ++ cur :: r ∧ l.length = i := by
  have hlen : i < s.table.length := by simpa using hi
  refine ⟨s.table.take i, s.table[i], s.table.drop (i + 1), ?_, by simp; omega⟩
  rw [← List.drop_eq_getElem_cons, List.take_append_drop]

/-- The assertions a completed `allocate_out_of` passed. -/
theorem allocateOutOf_checks {l r : List MemoryRange} {cur new : MemoryRange}
    (h : s.table = l ++ cur :: r) (hrun : allocateOutOf s l.length new = .done t) :
    ¬ (cur.physicalAddress > new.physicalAddress ∨ cur.mrEnd < new.mrEnd) ∧
      cur.mrType ≠ new.mrType := by
  unfold allocateOutOf at hrun
  rw [State.entry_of_table h] at hrun
  obtain ⟨_, hbug, hrun⟩ := Outcome.bind_eq_done.mp hrun
  obtain ⟨_, hbug', _⟩ := Outcome.bind_eq_done.mp hrun
  exact ⟨bugOn_eq_done.mp hbug, bugOn_eq_done.mp hbug'⟩

/-- A completed `allocate_out_of` performed one of the edits. -/
theorem allocateOutOf_run {i : ℕ} {new : MemoryRange} (hi : i < s.gEntryCount)
    (hrun : allocateOutOf s i new = .done t) :
    ∃ l cur r, s.table = l ++ cur :: r ∧ l.length = i ∧ Carved cur new l r t.table ∧
      Frame s t := by
  obtain ⟨l, cur, r, h, rfl⟩ := State.exists_split hi
  obtain ⟨hin, htype⟩ := allocateOutOf_checks h hrun
  obtain ⟨m, hm, hperforms⟩ := allocateOutOf_eq h hin htype
  obtain ⟨rfl, hframe⟩ := hperforms.of_run hrun
  exact ⟨l, cur, r, h, rfl, hm, hframe⟩

theorem allocateOutOf_frame {i : ℕ} {new : MemoryRange} (hi : i < s.gEntryCount)
    (hrun : allocateOutOf s i new = .done t) : Frame s t := by
  obtain ⟨_, _, _, _, _, _, hframe⟩ := allocateOutOf_run hi hrun
  exact hframe

theorem topDownLoop_some {bytes upper i j allocatedEnd : ℕ}
    (h : topDownLoop s bytes upper i = some (j, allocatedEnd)) :
    j < i ∧ allocatedEnd = min (s.entry j).mrEnd upper := by
  induction i with
  | zero => simp [topDownLoop] at h
  | succ i ih =>
    simp only [topDownLoop] at h
    split_ifs at h
    · exact (ih h).imp_left fun hj => hj.trans (Nat.lt_succ_self i)
    · exact (ih h).imp_left fun hj => hj.trans (Nat.lt_succ_self i)
    · exact (ih h).imp_left fun hj => hj.trans (Nat.lt_succ_self i)
    · simp only [Option.some.injEq, Prod.mk.injEq] at h
      obtain ⟨rfl, rfl⟩ := h
      exact ⟨Nat.lt_succ_self i, rfl⟩

/-- A completed `boot_alloc_nogrow` returned an error or the address of the range it carved from
the end of an entry. -/
theorem bootAllocNogrow_run {n address : ℕ} (hrun : bootAllocNogrow s n = .done (address, t)) :
    (address = enomem ∧ t = s) ∨
      ∃ i < s.gEntryCount, address =
        sub64 (min (s.entry i).mrEnd (2 ^ 64 - 1)) (mul64 n pageSize) ∧ n < mul64 n pageSize ∧
        allocateOutOf s i (requestedRange address (mul64 n pageSize) memoryAllocated) = .done t := by
  unfold bootAllocNogrow allocateTopDown at hrun
  obtain ⟨_, hsize, hrun⟩ := Outcome.bind_eq_done.mp hrun
  cases hloop : topDownLoop s (mul64 n pageSize) (2 ^ 64 - 1) s.gEntryCount with
  | none =>
    simp only [hloop, Outcome.pure_eq, Outcome.done.injEq, Prod.mk.injEq] at hrun
    exact Or.inl ⟨hrun.1.symm, hrun.2.symm⟩
  | some found =>
    simp only [hloop] at hrun
    split_ifs at hrun
    · simp only [Outcome.pure_eq, Outcome.done.injEq, Prod.mk.injEq] at hrun
      exact Or.inl ⟨hrun.1.symm, hrun.2.symm⟩
    · obtain ⟨u, hu, hret⟩ := Outcome.bind_eq_done.mp hrun
      simp only [Outcome.pure_eq, Outcome.done.injEq, Prod.mk.injEq] at hret
      obtain ⟨rfl, rfl⟩ := hret
      obtain ⟨hlt, hend⟩ := topDownLoop_some hloop
      exact Or.inr ⟨found.1, hlt, by rw [hend], not_le.mp (bugOn_eq_done.mp hsize), hu⟩

theorem bootAllocNogrow_frame {n address : ℕ} (hrun : bootAllocNogrow s n = .done (address, t)) :
    Frame s t := by
  rcases bootAllocNogrow_run hrun with ⟨_, rfl⟩ | ⟨i, hi, _, _, h⟩
  · exact Frame.refl _
  · exact allocateOutOf_frame hi h

end AnyTable

/-! ### Making room -/

/-- The test of `maybe_grow_buffer`: enough slots are free. -/
def NoGrowth (s : State) : Prop := sub64 s.gCapacity s.gEntryCount ≥ growthWatermark s

instance (s : State) : Decidable (NoGrowth s) := inferInstanceAs (Decidable (_ ≥ _))

/-- The state after the entries were copied to new pages and the pointer was switched. -/
def State.switch (t : State) (address capacity : ℕ) : State :=
  { t.copyEntries (physToVirt address) t.gEntryCount with
    gBuffer := physToVirt address, gCapacity := capacity }

theorem State.table_switch (t : State) (address capacity : ℕ) :
    (t.switch address capacity).table = t.table := by
  apply List.map_congr_left
  intro i hi
  have hi' : i < t.gEntryCount := by simpa [State.switch, State.copyEntries] using hi
  simp [State.entry, State.switch, State.copyEntries, hi']

theorem maybeGrowBuffer_of_noGrowth {s : State} (h : NoGrowth s) (fuel : ℕ) :
    maybeGrowBuffer (fuel + 1) s = .done (true, s) := by
  unfold NoGrowth at h
  simp [maybeGrowBuffer, h]

/-- **The static table grows** into the pages it allocates, if their address is not 0. -/
theorem maybeGrowBuffer_of_initial {s : State} (hbuffer : s.gBuffer = .initial)
    (h : ¬ NoGrowth s) (fuel : ℕ) :
    maybeGrowBuffer (fuel + 1) s = bootAllocNogrow s (newCapacity s >>> pageShift) >>= fun p =>
      if p.1 = 0 then .done (false, p.2)
      else .done (true, p.2.switch p.1 (newCapacity s / memoryRangeSize)) := by
  unfold NoGrowth at h
  simp only [maybeGrowBuffer, if_neg h]
  cases hrun : bootAllocNogrow s (newCapacity s >>> pageShift) with
  | done p =>
    obtain ⟨address, t⟩ := p
    have ht : t.gBuffer = .initial := (bootAllocNogrow_frame hrun).gBuffer.trans hbuffer
    simp only [Outcome.done_bind]
    split_ifs
    · rfl
    · have hapart : ¬ t.gBuffer.Overlaps t.arrayBytes (physToVirt address) (newCapacity s) := by
        rw [ht]
        exact id
      rw [bugOn_of_not hapart]
      simp [State.copyEntries, ht, State.switch]
  | halt bug => rfl
  | outOfFuel => rfl

theorem maybeGrowBuffer_done_of_noGrowth {s : State} (h : NoGrowth s) {fuel : ℕ}
    {p : Bool × State} (hrun : maybeGrowBuffer fuel s = .done p) : p = (true, s) := by
  cases fuel with
  | zero => simp [maybeGrowBuffer] at hrun
  | succ fuel =>
    rw [maybeGrowBuffer_of_noGrowth h] at hrun
    simpa using hrun.symm

/-! ### The size of the next table -/

theorem pageRoundUp_eq (size : ℕ) : pageRoundUp size =
    add64 size (pageSize - 1) - add64 size (pageSize - 1) % pageSize := by
  have := and_high_mask (n := add64 size (pageSize - 1)) (j := 12) (k := 64) (add64_lt _ _)
    (by decide)
  exact this

theorem pageRoundUp_mod (size : ℕ) : pageRoundUp size % pageSize = 0 := by
  rw [pageRoundUp_eq]
  simp only [pageSize]
  omega

theorem pageRoundUp_lt (size : ℕ) : pageRoundUp size < 2 ^ 64 := by
  rw [pageRoundUp_eq]
  have := add64_lt size (pageSize - 1)
  omega

/-- Dividing by the page size and multiplying again. -/
theorem mul64_shift_pageSize {bytes : ℕ} (hmod : bytes % pageSize = 0) (hword : bytes < 2 ^ 64) :
    mul64 (bytes >>> pageShift) pageSize = bytes := by
  have hshift : bytes >>> pageShift = bytes / pageSize := Nat.shiftRight_eq_div_pow _ _
  have hmul : bytes / pageSize * pageSize = bytes := Nat.div_mul_cancel (Nat.dvd_of_mod_eq_zero hmod)
  rw [hshift, mul64_of_lt (by rw [hmul]; exact hword), hmul]

/-- Whole pages are not rounded. -/
theorem pageRoundUp_of_mod {size : ℕ} (hmod : size % pageSize = 0) (hword : size < 2 ^ 64) :
    pageRoundUp size = size := by
  rw [pageRoundUp_eq, add64_of_lt (by simp only [pageSize] at *; omega)]
  simp only [pageSize] at *
  omega

theorem newCapacity_mod (s : State) : newCapacity s % pageSize = 0 := pageRoundUp_mod _

theorem newCapacity_lt (s : State) : newCapacity s < 2 ^ 64 := pageRoundUp_lt _

theorem newCapacity_pages (s : State) :
    mul64 (newCapacity s >>> pageShift) pageSize = newCapacity s :=
  mul64_shift_pageSize (pageRoundUp_mod _) (pageRoundUp_lt _)

/-- The size of a positive capacity is a valid request. -/
theorem newCapacity_request {s : State} (hpos : 0 < newCapacity s) :
    newCapacity s >>> pageShift < mul64 (newCapacity s >>> pageShift) pageSize := by
  have hmod := newCapacity_mod s
  have hshift : newCapacity s >>> pageShift = newCapacity s / pageSize :=
    Nat.shiftRight_eq_div_pow _ _
  rw [newCapacity_pages, hshift]
  simp only [pageSize] at *
  omega

theorem newCapacity_eq {s : State} (hcap : s.gCapacity * 32 + pageSize ≤ 2 ^ 64) :
    newCapacity s = (s.gCapacity * 32 + (pageSize - 1)) / pageSize * pageSize := by
  have hdouble : mul64 s.gCapacity 2 = s.gCapacity * 2 :=
    mul64_of_lt (by simp only [pageSize] at hcap; omega)
  have hbytes : mul64 (mul64 s.gCapacity 2) memoryRangeSize = s.gCapacity * 32 := by
    rw [hdouble, memoryRangeSize, mul64_of_lt (by simp only [pageSize] at hcap; omega)]
    omega
  unfold newCapacity
  rw [hbytes, pageRoundUp_eq, add64_of_lt (by simp only [pageSize] at *; omega)]
  simp only [pageSize]
  omega

/-! ### Calls that need no growth -/

section Calls

variable {s t : State} {n address fuel : ℕ}

/-- The size of a request, as `boot_alloc_at` computes it. -/
theorem shiftLeft_pageShift (n : ℕ) : n <<< pageShift % 2 ^ 64 = mul64 n pageSize := by
  rw [Nat.shiftLeft_eq]
  rfl

theorem bootFree_of_noGrowth (h : NoGrowth s) (fuel address n : ℕ) :
    bootFree (fuel + 2) s address n = findRange s address .no >>= fun mrIdx =>
      bugOn (mrIdx < 0) .invalidFree >>= fun _ =>
        allocateOutOf s mrIdx.toNat
          (requestedRange address (mul64 n pageSize) memoryFree) := by
  simp [bootFree, maybeGrowBuffer_of_noGrowth h, requestedRange]

/-- The call made room first, then did its own part. -/
theorem bootAlloc_run {p : ℕ × State} (hrun : bootAlloc fuel s n = .done p) :
    ∃ grown g, maybeGrowBuffer fuel s = .done (grown, g) ∧
      (grown = false ∧ p = (enomem, g) ∨ grown = true ∧ bootAllocNogrow g n = .done p) := by
  obtain ⟨⟨grown, g⟩, hgrow, hrun⟩ := Outcome.bind_eq_done.mp hrun
  refine ⟨grown, g, hgrow, ?_⟩
  cases grown with
  | false => exact Or.inl ⟨rfl, by simpa [encodeErrorPhysAddr] using hrun.symm⟩
  | true => exact Or.inr ⟨rfl, by simpa using hrun⟩

theorem bootAllocAt_run {p : ℕ × State} (hrun : bootAllocAt fuel s address n = .done p) :
    ∃ grown g, maybeGrowBuffer fuel s = .done (grown, g) ∧
      (grown = false ∧ p = (enomem, g) ∨ grown = true ∧
        allocateWithin g n address (add64 address (mul64 n pageSize)) = .done p) := by
  obtain ⟨⟨grown, g⟩, hgrow, hrun⟩ := Outcome.bind_eq_done.mp hrun
  rw [shiftLeft_pageShift] at hrun
  refine ⟨grown, g, hgrow, ?_⟩
  cases grown with
  | false => exact Or.inl ⟨rfl, by simpa [encodeErrorPhysAddr] using hrun.symm⟩
  | true => exact Or.inr ⟨rfl, by simpa using hrun⟩

theorem bootFree_run (hrun : bootFree fuel s address n = .done t) :
    ∃ grown g, maybeGrowBuffer (fuel - 1) s = .done (grown, g) ∧
      (grown = false ∧ t = g ∨ grown = true ∧ ∃ mrIdx, findRange g address .no = .done mrIdx ∧
        0 ≤ mrIdx ∧ allocateOutOf g mrIdx.toNat
          (requestedRange address (mul64 n pageSize) memoryFree) = .done t) := by
  cases fuel with
  | zero => simp [bootFree] at hrun
  | succ fuel =>
    rw [bootFree] at hrun
    obtain ⟨⟨grown, g⟩, hgrow, hrun⟩ := Outcome.bind_eq_done.mp hrun
    refine ⟨grown, g, hgrow, ?_⟩
    cases grown with
    | false => exact Or.inl ⟨rfl, by simpa using hrun.symm⟩
    | true =>
      obtain ⟨mrIdx, hfind, hrun⟩ := Outcome.bind_eq_done.mp (by simpa using hrun)
      obtain ⟨_, hbug, hrun⟩ := Outcome.bind_eq_done.mp hrun
      exact Or.inr ⟨rfl, mrIdx, hfind, by simpa using bugOn_eq_done.mp hbug, hrun⟩

end Calls

/-- **A completed free** on a well-formed table turned exactly the requested range FREE. -/
theorem freeRange_done {s t : State} {address bytes : ℕ} {mrIdx : ℤ}
    (hwf : WellFormedTable s.table) (hnew : GoodRange (requestedRange address bytes memoryFree))
    (hfind : findRange s address .no = .done mrIdx) (hnonneg : 0 ≤ mrIdx)
    (hrun : allocateOutOf s mrIdx.toNat (requestedRange address bytes memoryFree) = .done t) :
    Edited s (requestedRange address bytes memoryFree) t := by
  rcases exists_split address hwf with ⟨l, cur, r, h, hc⟩ | ⟨l, r, h, hl, hr⟩
  · rw [findRange_of_contains hwf h hc] at hfind
    obtain rfl : (l.length : ℤ) = mrIdx := by simpa using hfind
    rw [Int.toNat_natCast] at hrun
    obtain ⟨hin, htype⟩ := allocateOutOf_checks h hrun
    have hcur := hwf.valid cur (by rw [h]; simp)
    rw [hcur.mrEnd_eq, hnew.1.mrEnd_eq] at hin
    exact allocateOutOf_done h hwf ⟨by omega, by omega⟩ htype hnew hrun
  · rw [findRange_of_gap hwf h hl hr] at hfind
    simp only [reduceCtorEq, false_and, if_false, Outcome.done.injEq] at hfind
    omega

/-! ### Two small tables -/

/-- Three pages of FREE memory in a static table with the given number of slots. -/
def threePages (capacity : ℕ) : State := ⟨fun _ _ => ⟨0x1000, 0x3000⟩, .initial, capacity, 1⟩

theorem wellFormed_threePages (capacity : ℕ) : WellFormedTable (threePages capacity).table := by
  have htable : (threePages capacity).table = [⟨0x1000, 0x3000⟩] := rfl
  rw [htable]
  refine ⟨?_, ?_, by simp⟩ <;> intro r hr <;> obtain rfl := List.mem_singleton.mp hr
  · exact ⟨by decide, by decide, by decide⟩
  · exact ⟨by decide, by decide⟩

/-- ALLOCATED ranges of two pages, with a gap of one page between them. -/
def spreadPages (buffer : Buffer) (capacity count : ℕ) : State :=
  ⟨fun _ i => ⟨(3 * i + 1) * pageSize, 2 * pageSize + memoryAllocated⟩, buffer, capacity, count⟩

/-- An ALLOCATED range of whole pages. -/
theorem allocatedPages_parts (address : ℕ) {pages : ℕ} (hpages : pages * pageSize < 2 ^ 64) :
    (MemoryRange.mk address (pages * pageSize + memoryAllocated)).mrSize = pages * pageSize ∧
      (MemoryRange.mk address (pages * pageSize + memoryAllocated)).mrType = memoryAllocated :=
  mrSize_mrType_of_eq rfl (by simp only [pageSize]; omega) (by decide) hpages

theorem mem_spreadPages {buffer : Buffer} {capacity count : ℕ} {r : MemoryRange}
    (hr : r ∈ (spreadPages buffer capacity count).table) :
    ∃ i < count, r.physicalAddress = (3 * i + 1) * pageSize ∧ r.mrSize = 2 * pageSize ∧
      r.mrType = memoryAllocated ∧ r.sizeAndType < 2 ^ 64 := by
  obtain ⟨i, hi, rfl⟩ := List.mem_map.mp hr
  have hparts := allocatedPages_parts ((3 * i + 1) * pageSize) (by decide : 2 * pageSize < 2 ^ 64)
  exact ⟨i, List.mem_range.mp hi, rfl, hparts.1, hparts.2, (by decide : 2 * pageSize + 1 < 2 ^ 64)⟩

theorem wellFormed_spreadPages (buffer : Buffer) (capacity : ℕ) {count : ℕ}
    (hcount : count ≤ 2 ^ 32) : WellFormedTable (spreadPages buffer capacity count).table := by
  refine ⟨fun r hr => ?_, fun r hr => ?_, ?_⟩
  · obtain ⟨i, hi, haddr, hsize, _, hword⟩ := mem_spreadPages hr
    refine ⟨hword, by rw [hsize]; decide, ?_⟩
    rw [haddr, hsize, pageSize]
    omega
  · obtain ⟨i, _, haddr, hsize, _, _⟩ := mem_spreadPages hr
    exact ⟨by rw [haddr]; exact Nat.mul_mod_left _ _, by rw [hsize]; exact Nat.mul_mod_left _ _⟩
  · refine List.pairwise_map.mpr (List.pairwise_lt_range.imp fun {i j} hij => ?_)
    have hparts := allocatedPages_parts ((3 * i + 1) * pageSize) (by decide : 2 * pageSize < 2 ^ 64)
    change (3 * i + 1) * pageSize + (MemoryRange.mk ((3 * i + 1) * pageSize)
      (2 * pageSize + memoryAllocated)).mrSize ≤ (3 * j + 1) * pageSize
    rw [hparts.1]
    simp only [pageSize]
    omega

end UltraKernel.BootAlloc
