import UltraKernel.BootAlloc.Runs

/-!
# Growing a dynamic table

When the table already lives in pages of its own, `maybe_grow_buffer` copies the entries to the new
pages and then frees the old ones through `boot_free`, which still edits the old array.  The copy
keeps what it had: nothing in the nested calls writes to the new array
(`maybeGrowBuffer_keeps`), so in the table that goes live the old pages are never FREE
(`dynamic_growth_loses_free`).

When no FREE range is large enough the errno value is taken for the new pages, and the nested calls
see the same shortage again and again (`maybeGrowBuffer_diverges`), as long as what is copied there
does not overwrite the live array.
-/

namespace UltraKernel.BootAlloc

open Word

/-- A well-formed state whose table lives in ALLOCATED pages of its own. -/
structure DynamicState (s : State) (phys : ℕ) : Prop where
  wellFormed : WellFormedTable s.table
  buffer : s.gBuffer = physToVirt phys
  valid : ∀ b ∈ bufferPages s, b.Valid
  allocated : ∀ b ∈ bufferPages s, ∀ x, b.Contains x → typeAt s.table x = some memoryAllocated

/-- The table `g` after the growth of `s`: well-formed, with the new pages ALLOCATED, the old pages
FREE, and everything else as it was. -/
def GrewTo (s g : State) : Prop :=
  WellFormedTable g.table ∧ ∃ new ∈ bufferPages g, ∀ x, typeAt g.table x =
    if new.Contains x then some memoryAllocated
    else if ∃ old ∈ bufferPages s, old.Contains x then some memoryFree
    else typeAt s.table x

section Dynamic

variable {s t g : State} {phys : ℕ}

theorem bufferPages_of_mapping (h : s.gBuffer = physToVirt phys) : bufferPages s =
    [⟨phys, pageRoundUp (mul64 s.gCapacity memoryRangeSize) >>> pageShift⟩] := by
  rw [bufferPages, h]
  rfl

theorem physToVirt_inj {a b : ℕ} : physToVirt a = physToVirt b ↔ a = b := by
  simp [physToVirt]

/-- The base of the pages is one of their addresses. -/
theorem DynamicState.base (h : DynamicState s phys) :
    typeAt s.table phys = some memoryAllocated ∧ phys % pageSize = 0 := by
  have hmem : (⟨phys, pageRoundUp (mul64 s.gCapacity memoryRangeSize) >>> pageShift⟩ : Block) ∈
      bufferPages s := by rw [bufferPages_of_mapping h.buffer]; simp
  exact ⟨h.allocated _ hmem phys (h.valid _ hmem).contains_address, (h.valid _ hmem).aligned⟩

/-- **One round of growing a dynamic table**: allocate, copy, free the old pages, switch. -/
theorem maybeGrowBuffer_of_mapping (hbuffer : s.gBuffer = physToVirt phys) (h : ¬ NoGrowth s)
    (fuel : ℕ) :
    maybeGrowBuffer (fuel + 1) s = bootAllocNogrow s (newCapacity s >>> pageShift) >>= fun p =>
      if p.1 = 0 then .done (false, p.2)
      else bugOn (s.gBuffer.Overlaps s.arrayBytes (physToVirt p.1) (newCapacity s))
          .overlappingCopy >>= fun _ =>
        bootFree fuel (p.2.copyEntries (physToVirt p.1) p.2.gEntryCount) phys
          (pageRoundUp (mul64 s.gCapacity memoryRangeSize) >>> pageShift) >>= fun u =>
        .done (true, { u with
          gBuffer := physToVirt p.1, gCapacity := newCapacity s / memoryRangeSize }) := by
  unfold NoGrowth at h
  simp only [maybeGrowBuffer, if_neg h]
  cases hrun : bootAllocNogrow s (newCapacity s >>> pageShift) with
  | done p =>
    obtain ⟨address, t⟩ := p
    have hframe := bootAllocNogrow_frame hrun
    have ht : t.gBuffer = .mapping phys := hframe.gBuffer.trans hbuffer
    simp only [Outcome.done_bind]
    split_ifs
    · rfl
    · simp only [State.copyEntries, State.arrayBytes, ht, hbuffer, hframe.gCapacity]
      rfl
  | halt bug => rfl
  | outOfFuel => rfl

/-! ### Copies -/

/-- Copying the entries elsewhere does not change the table. -/
theorem State.table_copyEntries {buffer : Buffer} (hne : buffer ≠ s.gBuffer) (count : ℕ) :
    (s.copyEntries buffer count).table = s.table := by
  apply List.map_congr_left
  intro i _
  simp [State.entry, State.copyEntries, Function.update_of_ne hne.symm]

theorem State.memory_copyEntries {buffer other : Buffer} (hne : other ≠ buffer) (count : ℕ) :
    (s.copyEntries buffer count).memory other = s.memory other := by
  simp [State.copyEntries, hne]

/-! ### Divergence -/

/-- The array that the errno value of a failed allocation is taken for overlaps the live one. -/
def OverlapsErrno (s : State) : Prop :=
  s.gBuffer.Overlaps s.arrayBytes (physToVirt enomem) (newCapacity s)

instance : DecidablePred OverlapsErrno := fun _ => inferInstanceAs (Decidable (Buffer.Overlaps _ _ _ _))

/-- A growth that finds no FREE range takes the errno value for the address of its pages. -/
theorem maybeGrowBuffer_errno (hwf : WellFormedTable s.table) (hbuffer : s.gBuffer = physToVirt phys)
    (hshort : ¬ NoGrowth s) (hpos : 0 < newCapacity s) (hno : ∀ r ∈ s.table, ¬ Offers (newCapacity s) r)
    (fuel : ℕ) :
    maybeGrowBuffer (fuel + 1) s = bugOn (OverlapsErrno s) .overlappingCopy >>= fun _ =>
      bootFree fuel (s.copyEntries (physToVirt enomem) s.gEntryCount) phys
          (pageRoundUp (mul64 s.gCapacity memoryRangeSize) >>> pageShift) >>= fun u =>
        .done (true, { u with
          gBuffer := physToVirt enomem, gCapacity := newCapacity s / memoryRangeSize }) := by
  have hnone := bootAllocNogrow_of_forall_not hwf (newCapacity_request hpos)
    (by rwa [newCapacity_pages])
  rw [maybeGrowBuffer_of_mapping hbuffer hshort, hnone, Outcome.done_bind,
    if_neg (by decide : enomem ≠ 0)]
  rfl

/-- The nested calls of a growth that finds no FREE range see the state it started from. -/
theorem maybeGrowBuffer_diverges (hwf : WellFormedTable s.table)
    (hbuffer : s.gBuffer = physToVirt phys) (haligned : phys % pageSize = 0) (hshort : ¬ NoGrowth s)
    (hpos : 0 < newCapacity s) (hno : ∀ r ∈ s.table, ¬ Offers (newCapacity s) r)
    (hapart : ¬ OverlapsErrno s) (fuel : ℕ) : maybeGrowBuffer fuel s = .outOfFuel := by
  induction fuel using Nat.strong_induction_on generalizing s with
  | _ fuel ih =>
    cases fuel with
    | zero => rfl
    | succ fuel =>
      rw [maybeGrowBuffer_errno hwf hbuffer hshort hpos hno, bugOn_of_not hapart, Outcome.done_bind]
      cases fuel with
      | zero => rfl
      | succ fuel =>
        -- the errno value is no page address, so the copy leaves the live table alone
        have hne : physToVirt enomem ≠ s.gBuffer := by
          rw [hbuffer, ne_eq, physToVirt_inj]
          rintro rfl
          exact absurd haligned (by decide)
        have htable := State.table_copyEntries hne s.gEntryCount
        have hnested := ih fuel (by omega) (s := s.copyEntries (physToVirt enomem) s.gEntryCount)
          (htable ▸ hwf) hbuffer hshort hpos (htable ▸ hno) hapart
        simp only [bootFree, hnested, Outcome.outOfFuel_bind]

/-- Such a growth is never completed, wherever the live array is. -/
theorem maybeGrowBuffer_ne_done (hwf : WellFormedTable s.table)
    (hbuffer : s.gBuffer = physToVirt phys) (haligned : phys % pageSize = 0) (hshort : ¬ NoGrowth s)
    (hpos : 0 < newCapacity s) (hno : ∀ r ∈ s.table, ¬ Offers (newCapacity s) r) (fuel : ℕ)
    (p : Bool × State) : maybeGrowBuffer fuel s ≠ .done p := by
  intro hrun
  by_cases hoverlap : OverlapsErrno s
  · cases fuel with
    | zero => cases hrun
    | succ fuel =>
      rw [maybeGrowBuffer_errno hwf hbuffer hshort hpos hno, bugOn_of hoverlap, Outcome.halt_bind] at hrun
      cases hrun
  · rw [maybeGrowBuffer_diverges hwf hbuffer haligned hshort hpos hno hoverlap] at hrun
    cases hrun

/-! ### What the nested calls leave alone -/

/-- What the nested calls know: the live table is elsewhere, and the pages of `kept` and of the
live table are ALLOCATED. -/
structure Keeps (kept phys : ℕ) (s : State) : Prop where
  wellFormed : WellFormedTable s.table
  buffer : s.gBuffer = physToVirt phys
  ne : kept ≠ phys
  keptAligned : kept % pageSize = 0
  physAligned : phys % pageSize = 0
  keptAllocated : typeAt s.table kept = some memoryAllocated
  physAllocated : typeAt s.table phys = some memoryAllocated

/-- Allocating and copying keeps the knowledge, and the copy goes elsewhere. -/
theorem Keeps.step {kept n address : ℕ} (h : Keeps kept phys s)
    (hrun : bootAllocNogrow s n = .done (address, t)) :
    address ≠ kept ∧ Keeps kept phys (t.copyEntries (physToVirt address) t.gEntryCount) ∧
      (t.copyEntries (physToVirt address) t.gEntryCount).memory (physToVirt kept) =
        s.memory (physToVirt kept) := by
  have hframe := bootAllocNogrow_frame hrun
  have hkeptne : physToVirt kept ≠ s.gBuffer := by
    rw [h.buffer, ne_eq, physToVirt_inj]
    exact h.ne
  -- neither the errno value nor a range that was FREE
  obtain ⟨hfresh, hfresh', hwf, htypes⟩ : address ≠ kept ∧ address ≠ phys ∧
      WellFormedTable t.table ∧ ∀ x, typeAt s.table x = some memoryAllocated →
        typeAt t.table x = some memoryAllocated := by
    rcases bootAllocNogrow_done h.wellFormed hrun with ⟨_, rfl, rfl⟩ | ⟨_, hedit⟩
    · refine ⟨?_, ?_, h.wellFormed, fun _ hx => hx⟩
      · rintro rfl
        exact absurd h.keptAligned (by decide)
      · rintro rfl
        exact absurd h.physAligned (by decide)
    · obtain ⟨_, htype⟩ := requestedRange_parts address (mul64_pageSize_mod n)
        (mul64_lt n pageSize) (by decide : memoryAllocated < 2)
      have hfree : ∀ x, typeAt s.table x = some memoryAllocated →
          ¬ (requestedRange address (mul64 n pageSize) memoryAllocated).Contains x := by
        intro x hx hin
        obtain ⟨type, hbefore, hne⟩ := hedit.wasOther x hin
        rw [hx] at hbefore
        exact hne ((Option.some.inj hbefore).symm.trans htype.symm)
      have hbase : (requestedRange address (mul64 n pageSize) memoryAllocated).Contains address :=
        ⟨le_rfl, by
          have := hedit.good.1.nonempty
          simp only [requestedRange] at this ⊢
          omega⟩
      refine ⟨?_, ?_, hedit.updates.wellFormed, fun x hx => ?_⟩
      · rintro rfl
        exact hfree _ h.keptAllocated hbase
      · rintro rfl
        exact hfree _ h.physAllocated hbase
      · rw [hedit.updates.typeAt, if_neg (hfree x hx)]
        exact hx
  have hne : physToVirt address ≠ t.gBuffer := by
    rw [hframe.gBuffer, h.buffer, ne_eq, physToVirt_inj]
    exact hfresh'
  have htable := State.table_copyEntries hne t.gEntryCount
  refine ⟨hfresh, ⟨htable ▸ hwf, hframe.gBuffer.trans h.buffer, h.ne, h.keptAligned, h.physAligned,
    ?_, ?_⟩, ?_⟩
  · rw [htable]
    exact htypes _ h.keptAllocated
  · rw [htable]
    exact htypes _ h.physAllocated
  · rw [State.memory_copyEntries (by rw [ne_eq, physToVirt_inj]; exact hfresh.symm)]
    exact hframe.memory _ hkeptne

/-- **The nested calls never write to the new array**, at any depth. -/
theorem keeps_memory {kept : ℕ} (fuel : ℕ) :
    (∀ s grown g, Keeps kept phys s → maybeGrowBuffer fuel s = .done (grown, g) →
      g.memory (physToVirt kept) = s.memory (physToVirt kept) ∧ g.gBuffer ≠ physToVirt kept) ∧
    ∀ s address n t, Keeps kept phys s → bootFree fuel s address n = .done t →
      t.memory (physToVirt kept) = s.memory (physToVirt kept) ∧ t.gBuffer ≠ physToVirt kept := by
  induction fuel with
  | zero => exact ⟨fun _ _ _ _ h => by simp [maybeGrowBuffer] at h,
      fun _ _ _ _ _ h => by simp [bootFree] at h⟩
  | succ fuel ih =>
    obtain ⟨ihgrow, ihfree⟩ := ih
    refine ⟨fun s grown g hs hrun => ?_, fun s address n t hs hrun => ?_⟩
    · have hself : s.gBuffer ≠ physToVirt kept := by
        rw [hs.buffer, ne_eq, physToVirt_inj]
        exact hs.ne.symm
      by_cases hno : NoGrowth s
      · obtain ⟨_, rfl⟩ := Prod.mk.inj (maybeGrowBuffer_done_of_noGrowth hno hrun)
        exact ⟨rfl, hself⟩
      · rw [maybeGrowBuffer_of_mapping hs.buffer hno] at hrun
        obtain ⟨⟨address, t⟩, halloc, hrun⟩ := Outcome.bind_eq_done.mp hrun
        obtain ⟨hfresh, hnext, hmemory⟩ := hs.step halloc
        simp only at hrun
        split_ifs at hrun with hzero
        · obtain ⟨_, rfl⟩ := Prod.mk.inj (Outcome.done.inj hrun)
          have hframe := bootAllocNogrow_frame halloc
          exact ⟨hframe.memory _ hself.symm, hframe.gBuffer ▸ hself⟩
        · obtain ⟨_, _, hrun⟩ := Outcome.bind_eq_done.mp hrun
          obtain ⟨u, hu, hret⟩ := Outcome.bind_eq_done.mp hrun
          obtain ⟨_, rfl⟩ := Prod.mk.inj (Outcome.done.inj hret)
          refine ⟨(ihfree _ _ _ _ hnext hu).1.trans hmemory, ?_⟩
          simpa [physToVirt_inj] using hfresh
    · obtain ⟨grown, g, hgrow, hpart⟩ := bootFree_run hrun
      obtain ⟨hmemory, hbuffer⟩ := ihgrow s grown g hs hgrow
      rcases hpart with ⟨_, rfl⟩ | ⟨_, mrIdx, hfind, hnonneg, hedit⟩
      · exact ⟨hmemory, hbuffer⟩
      · have hframe := allocateOutOf_frame (findRange_lt hfind hnonneg) hedit
        exact ⟨(hframe.memory _ hbuffer.symm).trans hmemory, hframe.gBuffer ▸ hbuffer⟩

/-! ### The table that goes live -/

/-- The new array starts with the copied entries, so it still says what they said about an
address, or nothing. -/
theorem typeAt_of_copied {x : ℕ} (hwf : WellFormedTable t.table)
    (hx : typeAt t.table x = some memoryAllocated)
    (hcopied : ∀ i < t.gEntryCount, g.entry i = t.entry i) :
    typeAt g.table x ≠ some memoryFree := by
  obtain ⟨e, he, hex, hetype⟩ := exists_of_typeAt hx
  obtain ⟨l, r, htable⟩ := List.append_of_mem he
  have hcount : t.gEntryCount = l.length + (r.length + 1) := by
    simpa using State.gEntryCount_of_table htable
  have hl : ∀ y ∈ l, ¬ y.Contains x := by
    intro y hy hyx
    rw [htable] at hwf
    have := hwf.before hy
    exact absurd (hyx.2.trans_le (this.trans hex.1)) (lt_irrefl x)
  have hlead : ∀ i < l.length, ¬ (g.entry i).Contains x := fun i hi => by
    rw [hcopied i (by omega)]
    exact hl _ (State.entry_of_append htable hi)
  rcases Nat.lt_or_ge l.length g.gEntryCount with hlt | hge
  · -- the entry that holds the address was copied and is in use
    obtain ⟨l', e', r', htable', hlen⟩ := State.exists_split hlt
    have he' : e' = e := by
      rw [← State.entry_of_table htable', hlen, hcopied _ (by omega), State.entry_of_table htable]
    have hl' : ∀ y ∈ l', ¬ y.Contains x := fun y hy => by
      obtain ⟨i, hi, rfl⟩ := State.exists_entry_of_mem htable' hy
      exact hlead i (hlen ▸ hi)
    rw [htable', he', typeAt_append_cons hl' hex, hetype]
    decide
  · -- the entry count was lowered below it
    have hnone : typeAt g.table x = none := typeAt_eq_none_iff.mpr fun y hy => by
      obtain ⟨i, hi, rfl⟩ := List.mem_map.mp hy
      exact hlead i ((List.mem_range.mp hi).trans_le hge)
    rw [hnone]
    simp

/-- What the first round of a completed growth did: it carved new pages, and the live table starts
with a copy of the table it had then. -/
theorem DynamicState.growth (h : DynamicState s phys) {fuel : ℕ}
    (hrun : maybeGrowBuffer fuel s = .done (true, g)) (hswitch : g.gBuffer ≠ s.gBuffer) :
    ∃ address t, bufferPages g = [⟨address, newCapacity s >>> pageShift⟩] ∧
      Edited s (requestedRange address (newCapacity s) memoryAllocated) t ∧
      ∀ i < t.gEntryCount, g.entry i = t.entry i := by
  obtain ⟨hbase, haligned⟩ := h.base
  have hshort : ¬ NoGrowth s := fun hno => by
    obtain ⟨_, rfl⟩ := Prod.mk.inj (maybeGrowBuffer_done_of_noGrowth hno hrun)
    exact hswitch rfl
  have hrun' := hrun
  cases fuel with
  | zero => simp [maybeGrowBuffer] at hrun
  | succ fuel =>
    rw [maybeGrowBuffer_of_mapping h.buffer hshort] at hrun
    obtain ⟨⟨address, t⟩, halloc, hrun⟩ := Outcome.bind_eq_done.mp hrun
    simp only at hrun
    split_ifs at hrun with hzero
    · cases hrun
    obtain ⟨_, _, hrun⟩ := Outcome.bind_eq_done.mp hrun
    obtain ⟨u, hu, hret⟩ := Outcome.bind_eq_done.mp hrun
    obtain ⟨_, rfl⟩ := Prod.mk.inj (Outcome.done.inj hret)
    have hpos : 0 < newCapacity s := by
      by_contra hzero'
      have hinvalid : mul64 (newCapacity s >>> pageShift) pageSize ≤ newCapacity s >>> pageShift := by
        rw [newCapacity_pages, Nat.eq_zero_of_not_pos hzero']
        exact Nat.zero_le _
      rw [bootAllocNogrow_invalid hinvalid] at halloc
      cases halloc
    rcases bootAllocNogrow_done h.wellFormed halloc with ⟨hnone, _⟩ | ⟨hnew, hedit⟩
    · rw [newCapacity_pages] at hnone
      exact absurd hrun' (maybeGrowBuffer_ne_done h.wellFormed h.buffer haligned hshort hpos hnone _ _)
    rw [newCapacity_pages] at hedit
    refine ⟨address, t, bufferPages_next rfl rfl, hedit, fun i hi => ?_⟩
    -- the pages were FREE, so they are not the ones of the live table
    obtain ⟨hsize, htype⟩ := requestedRange_parts address (newCapacity_mod s)
      (newCapacity_lt s) (by decide : memoryAllocated < 2)
    have hbaseNew : (requestedRange address (newCapacity s) memoryAllocated).Contains address :=
      ⟨le_rfl, by rw [hsize]; exact Nat.lt_add_of_pos_right hpos⟩
    have hbaseOld : ¬ (requestedRange address (newCapacity s) memoryAllocated).Contains phys := by
      intro hin
      obtain ⟨type, hbefore, hne⟩ := hedit.wasOther phys hin
      rw [hbase] at hbefore
      exact hne ((Option.some.inj hbefore).symm.trans htype.symm)
    have hne : address ≠ phys := fun heq => hbaseOld (heq ▸ hbaseNew)
    have hother : physToVirt address ≠ t.gBuffer := by
      rw [hedit.frame.gBuffer, h.buffer, ne_eq, physToVirt_inj]
      exact hne
    have htable := State.table_copyEntries hother t.gEntryCount
    have hkeeps : Keeps address phys (t.copyEntries (physToVirt address) t.gEntryCount) := by
      refine ⟨htable ▸ hedit.updates.wellFormed, hedit.frame.gBuffer.trans h.buffer, hne, hnew,
        haligned, ?_, ?_⟩
      · rw [htable, hedit.updates.typeAt, if_pos hbaseNew, htype]
      · rw [htable, hedit.updates.typeAt, if_neg hbaseOld]
        exact hbase
    have hmemory := ((keeps_memory fuel).2 _ _ _ _ hkeeps hu).1
    change u.memory (physToVirt address) i = t.entry i
    rw [hmemory]
    simp [State.copyEntries, hi]

/-- The base of the old pages is not part of the new ones, and not FREE in the table that goes
live. -/
theorem DynamicState.old_base (h : DynamicState s phys) {fuel : ℕ}
    (hrun : maybeGrowBuffer fuel s = .done (true, g)) (hswitch : g.gBuffer ≠ s.gBuffer) :
    typeAt g.table phys ≠ some memoryFree ∧ (∀ new ∈ bufferPages g, ¬ new.Contains phys) ∧
      ∃ old ∈ bufferPages s, old.Contains phys := by
  obtain ⟨address, t, hpages, hedit, hcopied⟩ := h.growth hrun hswitch
  obtain ⟨hbase, _⟩ := h.base
  obtain ⟨hsize, htype⟩ := requestedRange_parts address (newCapacity_mod s)
    (newCapacity_lt s) (by decide : memoryAllocated < 2)
  have houtside : ¬ (requestedRange address (newCapacity s) memoryAllocated).Contains phys := by
    intro hin
    obtain ⟨type, hbefore, hne⟩ := hedit.wasOther phys hin
    rw [hbase] at hbefore
    exact hne ((Option.some.inj hbefore).symm.trans htype.symm)
  refine ⟨typeAt_of_copied hedit.updates.wellFormed ?_ hcopied, ?_, ?_⟩
  · rw [hedit.updates.typeAt, if_neg houtside]
    exact hbase
  · intro new hnew
    rw [hpages, List.mem_singleton] at hnew
    subst hnew
    unfold MemoryRange.Contains at houtside
    unfold Block.Contains
    rw [newCapacity_block]
    rwa [hsize] at houtside
  · have hmem : (⟨phys, pageRoundUp (mul64 s.gCapacity memoryRangeSize) >>> pageShift⟩ : Block) ∈
        bufferPages s := by rw [bufferPages_of_mapping h.buffer]; simp
    exact ⟨_, hmem, (h.valid _ hmem).contains_address⟩

/-- **The update of the nested free is lost**: whenever a dynamic table grows, the table that goes
live is not the one asked for, since the old pages are not FREE in it. -/
theorem dynamic_growth_loses_free (h : DynamicState s phys) {fuel : ℕ}
    (hrun : maybeGrowBuffer fuel s = .done (true, g)) (hswitch : g.gBuffer ≠ s.gBuffer) :
    ¬ GrewTo s g := by
  rintro ⟨_, new, hnew, htypes⟩
  obtain ⟨hfree, hnotNew, hold⟩ := h.old_base hrun hswitch
  rw [htypes, if_neg (hnotNew new hnew), if_pos hold] at hfree
  exact hfree rfl

/-- A dynamic table of 512 slots with 507 in use: the two pages of the table, four FREE pages and
one ALLOCATED page at the top, and ALLOCATED pages below. -/
def nearlyFull : State where
  memory _ i := if i < 504 then ⟨(3 * i + 1) * pageSize, 2 * pageSize + memoryAllocated⟩
    else if i = 504 then ⟨0x600000, 0x2001⟩
    else if i = 505 then ⟨0x602000, 0x4000⟩
    else ⟨0x606000, 0x1001⟩
  gBuffer := physToVirt 0x600000
  gCapacity := 512
  gEntryCount := 507

/-- The growth of `nearlyFull` takes the four FREE pages; the entries around them merge, which
leaves room for the nested free. -/
theorem nearlyFull_growth :
    (maybeGrowBuffer 3 nearlyFull).value?.map (fun p => (p.1, p.2.gBuffer, p.2.gEntryCount)) =
      some (true, physToVirt 0x602000, 506) := by
  decide +kernel

theorem nearlyFull_entry (i : ℕ) :
    GoodRange (nearlyFull.entry i) ∧ (nearlyFull.entry i).physicalAddress =
      (if i < 504 then (3 * i + 1) * pageSize else if i = 504 then 0x600000
        else if i = 505 then 0x602000 else 0x606000) ∧
    (nearlyFull.entry i).mrSize = (if i < 504 then 2 * pageSize else if i = 504 then 0x2000
      else if i = 505 then 0x4000 else 0x1000) := by
  have hentry : nearlyFull.entry i = if i < 504 then
      ⟨(3 * i + 1) * pageSize, 2 * pageSize + memoryAllocated⟩
    else if i = 504 then ⟨0x600000, 0x2001⟩ else if i = 505 then ⟨0x602000, 0x4000⟩
    else ⟨0x606000, 0x1001⟩ := rfl
  rw [hentry]
  split_ifs with hlow
  · obtain ⟨hsize, _⟩ := allocatedPages_parts ((3 * i + 1) * pageSize) (by decide : 2 * pageSize < 2 ^ 64)
    refine ⟨⟨⟨(by decide : 2 * pageSize + 1 < 2 ^ 64), by rw [hsize]; decide, ?_⟩,
      ⟨Nat.mul_mod_left _ _, ?_⟩⟩, rfl, hsize⟩
    · rw [hsize]
      simp only [pageSize]
      omega
    · rw [hsize]
      exact Nat.mul_mod_left _ _
  all_goals
    exact ⟨⟨⟨by decide, by decide, by decide⟩, ⟨by decide, by decide⟩⟩, rfl, by decide⟩

theorem wellFormed_nearlyFull : WellFormedTable nearlyFull.table := by
  refine ⟨fun r hr => ?_, fun r hr => ?_, ?_⟩
  · obtain ⟨i, _, rfl⟩ := List.mem_map.mp hr
    exact (nearlyFull_entry i).1.1
  · obtain ⟨i, _, rfl⟩ := List.mem_map.mp hr
    exact (nearlyFull_entry i).1.2
  · refine List.pairwise_map.mpr (List.pairwise_lt_range.imp_of_mem fun {i j} _ hj hij => ?_)
    have hj' : j < 507 := List.mem_range.mp hj
    rw [(nearlyFull_entry i).2.1, (nearlyFull_entry i).2.2, (nearlyFull_entry j).2.1]
    simp only [pageSize]
    split_ifs <;> omega

theorem dynamicState_nearlyFull : DynamicState nearlyFull 0x600000 := by
  have hpages : bufferPages nearlyFull = [⟨0x600000, 2⟩] := by decide
  have hentry : nearlyFull.entry 504 = ⟨0x600000, 0x2001⟩ := rfl
  refine ⟨wellFormed_nearlyFull, rfl, ?_, ?_⟩ <;> rw [hpages] <;> intro b hb <;>
    obtain rfl := List.mem_singleton.mp hb
  · exact ⟨by decide, by decide, by decide⟩
  · intro x hx
    exact wellFormed_nearlyFull.typeAt_of_mem (State.entry_mem (i := 504) (by decide)) (hentry ▸ hx)

/-- The old pages of `nearlyFull` are lost. -/
theorem nearlyFull_loses_free : DynamicState nearlyFull 0x600000 ∧
    ∃ g, maybeGrowBuffer 3 nearlyFull = .done (true, g) ∧ g.gBuffer = physToVirt 0x602000 ∧
      typeAt g.table 0x600000 ≠ some memoryFree ∧ ¬ GrewTo nearlyFull g := by
  obtain ⟨⟨grown, g⟩, hvalue, heq⟩ := Option.map_eq_some_iff.mp nearlyFull_growth
  simp only [Prod.mk.injEq] at heq
  obtain ⟨rfl, hbuffer, _⟩ := heq
  have hrun := Outcome.value?_eq_some.mp hvalue
  have hswitch : g.gBuffer ≠ nearlyFull.gBuffer := by
    rw [hbuffer]
    decide
  obtain ⟨hfree, hnotNew, hold⟩ := dynamicState_nearlyFull.old_base hrun hswitch
  refine ⟨dynamicState_nearlyFull, g, hrun, hbuffer, hfree, ?_⟩
  rintro ⟨_, new, hnew, htypes⟩
  rw [htypes, if_neg (hnotNew new hnew), if_pos hold] at hfree
  exact hfree rfl

/-- The growth of `nearlyFull` is one that is not as asked for. -/
theorem dynamic_growth_loses_free_nearlyFull :
    ∃ g, maybeGrowBuffer 3 nearlyFull = .done (true, g) ∧ ¬ GrewTo nearlyFull g := by
  obtain ⟨⟨grown, g⟩, hvalue, heq⟩ := Option.map_eq_some_iff.mp nearlyFull_growth
  simp only [Prod.mk.injEq] at heq
  obtain ⟨rfl, hbuffer, _⟩ := heq
  have hrun := Outcome.value?_eq_some.mp hvalue
  exact ⟨g, hrun, dynamic_growth_loses_free dynamicState_nearlyFull hrun
    (by rw [hbuffer]; decide)⟩

end Dynamic

end UltraKernel.BootAlloc
