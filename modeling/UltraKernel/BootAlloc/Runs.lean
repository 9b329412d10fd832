import UltraKernel.BootAlloc.Grow
import UltraKernel.Lib.Run

/-!
# Runs of the boot allocator

A `System` is the allocator together with the blocks its callers hold.  A step serves one request;
`boot_free` is only asked to free a block that is held.  `Tracks` is the invariant: the table
represents a ledger that has handed out the live blocks and the pages the allocator has reserved
for itself.

* `live_blocks_safe`: in every run that grows the table at most once, the table stays well-formed
  and its ALLOCATED addresses are exactly the old ones, the live blocks and the pages of the table.
-/

namespace UltraKernel.BootAlloc

open Word

/-! ### Requests and steps -/

/-- A call of the allocator. -/
inductive Request where
  | alloc (numPages : ℕ)
  | allocAt (address numPages : ℕ)
  | free (address numPages : ℕ)
  deriving DecidableEq, Repr

/-- The allocator and the blocks that are live. -/
structure System where
  state : State
  live : List Block

/-- The live blocks after an allocation call: an error value adds none. -/
def addBlock (live : List Block) (address numPages : ℕ) : List Block :=
  if address = encodeErrorPhysAddr enomem then live else ⟨address, numPages⟩ :: live

/-- Serve one request. -/
def System.serve (fuel : ℕ) (sys : System) : Request → Outcome Bug System
  | .alloc numPages => do
    let (address, t) ← bootAlloc fuel sys.state numPages
    return ⟨t, addBlock sys.live address numPages⟩
  | .allocAt at_ numPages => do
    let (address, t) ← bootAllocAt fuel sys.state at_ numPages
    return ⟨t, addBlock sys.live address numPages⟩
  | .free address numPages => do
    let t ← bootFree fuel sys.state address numPages
    return ⟨t, sys.live.erase ⟨address, numPages⟩⟩

/-- What callers ask for: whole pages at aligned addresses, and only live blocks are freed. -/
def Request.Permitted (live : List Block) : Request → Prop
  | .alloc numPages => 1 ≤ numPages ∧ numPages * pageSize < 2 ^ 64
  | .allocAt address numPages =>
    1 ≤ numPages ∧ numPages * pageSize < 2 ^ 64 ∧ address % pageSize = 0 ∧ address < 2 ^ 64
  | .free address numPages => ⟨address, numPages⟩ ∈ live

instance (live : List Block) : DecidablePred (Request.Permitted live)
  | .alloc _ => inferInstanceAs (Decidable (_ ∧ _))
  | .allocAt _ _ => inferInstanceAs (Decidable (_ ∧ _))
  | .free _ _ => inferInstanceAs (Decidable (_ ∈ _))

/-- A permitted request is served in a state of the given kind. -/
structure Step (allowed : State → Prop) (sys : System) (request : Request) (sys' : System) :
    Prop where
  allowed : allowed sys.state
  permitted : request.Permitted sys.live
  served : ∃ fuel, sys.serve fuel request = .done sys'

/-- Serve a list of requests, as long as each step is one of `Step`. -/
def System.serveAll (allowed : State → Prop) [DecidablePred allowed] (fuel : ℕ) :
    System → List Request → Option System
  | sys, [] => some sys
  | sys, request :: requests =>
    if allowed sys.state ∧ request.Permitted sys.live then
      match sys.serve fuel request with
      | .done sys' => sys'.serveAll allowed fuel requests
      | _ => none
    else none

theorem System.run_of_serveAll {allowed : State → Prop} [DecidablePred allowed] {fuel : ℕ}
    {sys sys' : System} {requests : List Request}
    (h : sys.serveAll allowed fuel requests = some sys') :
    Run (Step allowed) sys requests sys' := by
  induction requests generalizing sys with
  | nil =>
    obtain rfl : sys = sys' := by simpa [serveAll] using h
    exact .nil _
  | cons request requests ih =>
    unfold serveAll at h
    split_ifs at h with hallowed
    cases hserve : sys.serve fuel request with
    | done next =>
      simp only [hserve] at h
      exact .cons ⟨hallowed.1, hallowed.2, fuel, hserve⟩ (ih h)
    | halt bug => simp [hserve] at h
    | outOfFuel => simp [hserve] at h

/-! ### The invariant -/

/-- The table represents a ledger that has handed out the live blocks and the reserved ones. -/
def Tracks (start : List MemoryRange) (reserved : List Block) (sys : System) : Prop :=
  ∃ L : Ledger, L.start = typeAt start ∧ L.blocks.Perm (sys.live ++ reserved) ∧
    Represents L sys.state.table

section Tracks

variable {start : List MemoryRange} {reserved live : List Block} {s t : State}

theorem Tracks.initial (hwf : WellFormedTable s.table) : Tracks s.table [] ⟨s, []⟩ :=
  ⟨.initial (typeAt s.table), rfl, by simp [Ledger.initial], .initial hwf⟩

theorem Tracks.wellFormed {sys : System} (h : Tracks start reserved sys) :
    WellFormedTable sys.state.table := by
  obtain ⟨L, _, _, hL⟩ := h
  exact hL.wellFormed

/-- A carved range is a valid block. -/
theorem Edited.valid {address n type : ℕ} (hn : n * pageSize < 2 ^ 64)
    (h : Edited s (requestedRange address (mul64 n pageSize) type) t) (htype : type < 2) :
    (⟨address, n⟩ : Block).Valid := by
  have hbytes : mul64 n pageSize = n * pageSize := mul64_of_lt hn
  have hgood := h.good
  obtain ⟨hsize, _⟩ := requestedRange_parts address (mul64_pageSize_mod n)
    (mul64_lt n pageSize) htype
  have hpos := hgood.1.nonempty
  have hbound := hgood.1.bounded
  rw [hsize, hbytes] at hpos hbound
  exact ⟨Nat.pos_of_mul_pos_right hpos, hgood.2.address, hbound⟩

/-- Handing out one more block. -/
theorem Tracks.take {b : Block} (h : Tracks start reserved ⟨s, live⟩) (hb : b.Valid)
    (hedit : Edited s (b.range memoryAllocated) t) :
    Tracks start reserved ⟨t, b :: live⟩ := by
  obtain ⟨L, hstart, hperm, hL⟩ := h
  obtain ⟨hfree, hL'⟩ := hL.take hb hedit
  exact ⟨L.take b hb hfree, hstart, hperm.cons b, hL'⟩

/-- Reserving a block for the table itself. -/
theorem Tracks.reserve {b : Block} (h : Tracks start reserved ⟨s, live⟩) (hb : b.Valid)
    (hedit : Edited s (b.range memoryAllocated) t) :
    Tracks start (b :: reserved) ⟨t, live⟩ := by
  obtain ⟨L, hstart, hperm, hL⟩ := h.take hb hedit
  exact ⟨L, hstart, hperm.trans List.perm_middle.symm, hL⟩

/-- Taking a live block back. -/
theorem Tracks.give {b : Block} (h : Tracks start reserved ⟨s, live⟩) (hb : b ∈ live)
    (hedit : Edited s (b.range memoryFree) t) : Tracks start reserved ⟨t, live.erase b⟩ := by
  obtain ⟨L, hstart, hperm, hL⟩ := h
  have hmem : b ∈ L.blocks := hperm.mem_iff.mpr (List.mem_append_left _ hb)
  refine ⟨L.give b, hstart, ?_, hL.give hmem hedit⟩
  have := hperm.erase b
  rwa [List.erase_append_left _ hb] at this

theorem Tracks.valid {sys : System} (h : Tracks start reserved sys) {b : Block}
    (hb : b ∈ sys.live) : b.Valid := by
  obtain ⟨L, _, hperm, _⟩ := h
  exact L.valid b (hperm.mem_iff.mpr (List.mem_append_left _ hb))

/-- A table has the same content after it was moved. -/
theorem Tracks.congr (h : Tracks start reserved ⟨s, live⟩) (ht : t.table = s.table) :
    Tracks start reserved ⟨t, live⟩ := by
  obtain ⟨L, hstart, hperm, hL⟩ := h
  exact ⟨L, hstart, hperm, ht ▸ hL⟩

end Tracks

/-! ### One step without growth -/

section NoGrowth

variable {start : List MemoryRange} {reserved : List Block} {sys sys' : System} {request : Request}

/-- The part of a call after `maybe_grow_buffer`: the state it runs in, and what it does there. -/
inductive Served (live : List Block) (g : State) : Request → System → Prop
  | alloc {n address : ℕ} {t : State} : bootAllocNogrow g n = .done (address, t) →
      Served live g (.alloc n) ⟨t, addBlock live address n⟩
  | allocAt {a n address : ℕ} {t : State} :
      allocateWithin g n a (add64 a (mul64 n pageSize)) = .done (address, t) →
      Served live g (.allocAt a n) ⟨t, addBlock live address n⟩
  | free {a n : ℕ} {mrIdx : ℤ} {t : State} : findRange g a .no = .done mrIdx → 0 ≤ mrIdx →
      allocateOutOf g mrIdx.toNat (requestedRange a (mul64 n pageSize) memoryFree) = .done t →
      Served live g (.free a n) ⟨t, live.erase ⟨a, n⟩⟩

/-- **A served request** made room, and then either gave up or did its part. -/
theorem System.serve_run {fuel : ℕ} (h : sys.serve fuel request = .done sys') :
    ∃ fuel' grown g, maybeGrowBuffer fuel' sys.state = .done (grown, g) ∧
      (grown = true → Served sys.live g request sys') ∧
      (grown = false → sys'.state = g) := by
  cases request with
  | alloc n =>
    obtain ⟨⟨address, t⟩, hrun, hret⟩ := Outcome.bind_eq_done.mp h
    obtain rfl : _ = sys' := by simpa using hret
    obtain ⟨grown, g, hgrow, ⟨rfl, hp⟩ | ⟨rfl, hp⟩⟩ := bootAlloc_run hrun
    · exact ⟨_, _, g, hgrow, by simp, fun _ => (Prod.mk.inj hp).2⟩
    · exact ⟨_, _, g, hgrow, fun _ => .alloc hp, by simp⟩
  | allocAt a n =>
    obtain ⟨⟨address, t⟩, hrun, hret⟩ := Outcome.bind_eq_done.mp h
    obtain rfl : _ = sys' := by simpa using hret
    obtain ⟨grown, g, hgrow, ⟨rfl, hp⟩ | ⟨rfl, hp⟩⟩ := bootAllocAt_run hrun
    · exact ⟨_, _, g, hgrow, by simp, fun _ => (Prod.mk.inj hp).2⟩
    · exact ⟨_, _, g, hgrow, fun _ => .allocAt hp, by simp⟩
  | free a n =>
    obtain ⟨t, hrun, hret⟩ := Outcome.bind_eq_done.mp h
    obtain rfl : _ = sys' := by simpa using hret
    obtain ⟨grown, g, hgrow, ⟨rfl, hp⟩ | ⟨rfl, mrIdx, hfind, hnonneg, hp⟩⟩ := bootFree_run hrun
    · exact ⟨_, _, g, hgrow, by simp, fun _ => hp⟩
    · exact ⟨_, _, g, hgrow, fun _ => .free hfind hnonneg hp, by simp⟩

/-- What a request does to the ledger: nothing, or one block goes out or comes back. -/
inductive Effect (live : List Block) (g : State) : System → Prop
  | none : Effect live g ⟨g, live⟩
  | take {b : Block} {t : State} : b.Valid → Edited g (b.range memoryAllocated) t →
      Effect live g ⟨t, b :: live⟩
  | give {b : Block} {t : State} : b ∈ live → Edited g (b.range memoryFree) t →
      Effect live g ⟨t, live.erase b⟩

theorem Effect.tracks {live : List Block} {g : State} (h : Effect live g sys')
    (hg : Tracks start reserved ⟨g, live⟩) : Tracks start reserved sys' := by
  cases h with
  | none => exact hg
  | take hb hedit => exact hg.take hb hedit
  | give hb hedit => exact hg.give hb hedit

theorem Effect.edited {live : List Block} {g : State} (h : Effect live g sys') :
    sys'.state = g ∨ ∃ new, Edited g new sys'.state := by
  cases h with
  | none => exact Or.inl rfl
  | take _ hedit => exact Or.inr ⟨_, hedit⟩
  | give _ hedit => exact Or.inr ⟨_, hedit⟩

/-- An allocation that either failed or carved its block. -/
theorem effect_of_allocation {live : List Block} {g t : State} {address n : ℕ}
    (hn : n * pageSize < 2 ^ 64)
    (hcall : (address = enomem ∧ t = g) ∨ address % pageSize = 0 ∧
      Edited g (requestedRange address (mul64 n pageSize) memoryAllocated) t) :
    Effect live g ⟨t, addBlock live address n⟩ := by
  unfold addBlock encodeErrorPhysAddr
  rcases hcall with ⟨rfl, rfl⟩ | ⟨haligned, hedit⟩
  · rw [if_pos rfl]
    exact .none
  · -- the errno value is not page-aligned
    have hne : address ≠ enomem := by
      rintro rfl
      exact absurd haligned (by decide)
    rw [if_neg hne]
    refine .take (hedit.valid hn (by decide)) ?_
    rwa [Block.range, Block.bytes, ← mul64_of_lt hn]

/-- **The effect of a permitted request** on a well-formed table. -/
theorem Served.effect {live : List Block} {g : State} (h : Served live g request sys')
    (hwf : WellFormedTable g.table) (hvalid : ∀ b ∈ live, b.Valid)
    (hpermitted : request.Permitted live) : Effect live g sys' := by
  cases h with
  | alloc hrun =>
    exact effect_of_allocation hpermitted.2 ((bootAllocNogrow_done hwf hrun).imp_left And.right)
  | allocAt hrun =>
    obtain ⟨_, hn, haligned, hword⟩ := hpermitted
    exact effect_of_allocation hn (allocateWithin_done hwf hword (add64_lt _ _) haligned hrun)
  | @free a n mrIdx t hfind hnonneg hrun =>
    have hb : (⟨a, n⟩ : Block).Valid := hvalid _ hpermitted
    have hbytes : mul64 n pageSize = n * pageSize := mul64_of_lt (by
      have := hb.bounded
      simp only [Block.bytes] at this
      omega)
    rw [hbytes] at hrun
    exact .give hpermitted (freeRange_done hwf (hb.good (by decide : memoryFree < 2)) hfind
      hnonneg hrun)

/-- Without growth a step has the effect of its request. -/
theorem Step.effect (h : Step NoGrowth sys request sys') (hwf : WellFormedTable sys.state.table)
    (hvalid : ∀ b ∈ sys.live, b.Valid) : Effect sys.live sys.state sys' := by
  obtain ⟨fuel, hserve⟩ := h.served
  obtain ⟨_, grown, g, hgrow, hserved, _⟩ := System.serve_run hserve
  obtain ⟨rfl, rfl⟩ := Prod.mk.inj (maybeGrowBuffer_done_of_noGrowth h.allowed hgrow)
  exact (hserved rfl).effect hwf hvalid h.permitted

/-- **Step lemma**: without growth a step keeps the ledger. -/
theorem Step.tracks (h : Step NoGrowth sys request sys') (hsys : Tracks start reserved sys) :
    Tracks start reserved sys' :=
  (h.effect hsys.wellFormed fun _ hb => hsys.valid hb).tracks hsys

end NoGrowth

/-! ### One growth out of the static table -/

/-- The pages of a table outside the static array, as `boot_free` would give them back. -/
def bufferPages (s : State) : List Block :=
  match s.gBuffer with
  | .initial => []
  | .mapping phys => [⟨phys, pageRoundUp (mul64 s.gCapacity memoryRangeSize) >>> pageShift⟩]

/-- The pages of the next table are a block of `new_capacity` bytes. -/
theorem newCapacity_block (s : State) (address : ℕ) :
    (⟨address, newCapacity s >>> pageShift⟩ : Block).bytes = newCapacity s := by
  rw [Block.bytes, show newCapacity s >>> pageShift = newCapacity s / pageSize from
    Nat.shiftRight_eq_div_pow _ _]
  exact Nat.div_mul_cancel (Nat.dvd_of_mod_eq_zero (newCapacity_mod s))

theorem bufferPages_next {s t : State} {address : ℕ} (hbuffer : t.gBuffer = physToVirt address)
    (hcap : t.gCapacity = newCapacity s / memoryRangeSize) :
    bufferPages t = [⟨address, newCapacity s >>> pageShift⟩] := by
  have hmod := newCapacity_mod s
  have hlt := newCapacity_lt s
  have hbytes : mul64 (newCapacity s / memoryRangeSize) memoryRangeSize = newCapacity s := by
    have : newCapacity s / memoryRangeSize * memoryRangeSize = newCapacity s := by
      simp only [memoryRangeSize, pageSize] at *
      omega
    rw [mul64_of_lt (by omega), this]
  simp only [bufferPages, hbuffer, physToVirt, hcap, hbytes, pageRoundUp_of_mod hmod hlt]

/-- What the allocation of the next table returns. -/
def growthAddress (s : State) : Option ℕ :=
  match bootAllocNogrow s (newCapacity s >>> pageShift) with
  | .done (address, _) => some address
  | _ => none

/-- The static table would obtain its pages, and not at address 0. -/
structure GrowthObtains (s : State) : Prop where
  static : s.gBuffer = .initial
  offered : ∃ r ∈ s.table, Offers (newCapacity s) r
  address : growthAddress s ≠ some 0

/-- No growth, or the first one. -/
def GrowsOnce (s : State) : Prop := NoGrowth s ∨ GrowthObtains s

instance : DecidablePred GrowthObtains := fun s =>
  decidable_of_iff (s.gBuffer = .initial ∧ (∃ r ∈ s.table, Offers (newCapacity s) r) ∧
    growthAddress s ≠ some 0) ⟨fun h => ⟨h.1, h.2.1, h.2.2⟩, fun h => ⟨h.1, h.2, h.3⟩⟩

instance : DecidablePred GrowsOnce := fun _ => inferInstanceAs (Decidable (_ ∨ _))

section GrowsOnce

variable {s g : State}

/-- **The first growth** carves the pages of the next table and moves the entries there. -/
theorem maybeGrowBuffer_obtains (hwf : WellFormedTable s.table) (hno : ¬ NoGrowth s)
    (h : GrowthObtains s) {fuel : ℕ} {grown : Bool}
    (hrun : maybeGrowBuffer fuel s = .done (grown, g)) :
    grown = true ∧ ∃ b t, b.Valid ∧ Edited s (b.range memoryAllocated) t ∧
      g = t.switch b.address (newCapacity s / memoryRangeSize) ∧ bufferPages g = [b] := by
  cases fuel with
  | zero => simp [maybeGrowBuffer] at hrun
  | succ fuel =>
    rw [maybeGrowBuffer_of_initial h.static hno] at hrun
    obtain ⟨⟨address, t⟩, halloc, hret⟩ := Outcome.bind_eq_done.mp hrun
    have hne : address ≠ 0 := fun heq => h.address (by simp [growthAddress, halloc, heq])
    simp only [if_neg hne, Outcome.done.injEq, Prod.mk.injEq] at hret
    obtain ⟨rfl, rfl⟩ := hret
    rcases bootAllocNogrow_done hwf halloc with ⟨hnone, _⟩ | ⟨haligned, hedit⟩
    · obtain ⟨r, hr, hoffers⟩ := h.offered
      rw [newCapacity_pages] at hnone
      exact absurd hoffers (hnone r hr)
    · have hbytes := newCapacity_block s address
      refine ⟨rfl, ⟨address, newCapacity s >>> pageShift⟩, t,
        hedit.valid (hbytes.trans_lt (newCapacity_lt s)) (by decide), ?_, rfl,
        bufferPages_next rfl rfl⟩
      rw [newCapacity_pages] at hedit
      rwa [Block.range, hbytes]

/-- What holds in every state of a run that grows at most once. -/
structure Healthy (start : List MemoryRange) (sys : System) : Prop where
  tracks : Tracks start (bufferPages sys.state) sys
  slots : sys.state.gEntryCount + worstCaseGrowthPerAllocation ≤ sys.state.gCapacity
  static : sys.state.gBuffer = .initial → sys.state.gCapacity ≤ bootAllocInitialCapacity
  word : sys.state.gCapacity < 2 ^ 64

theorem bufferPages_of_frame {t : State} (h : Frame s t) : bufferPages t = bufferPages s := by
  unfold bufferPages
  rw [h.gBuffer, h.gCapacity]

/-- The effect of a request on a state with slots to spare. -/
theorem Effect.healthy {start : List MemoryRange} {live : List Block} {sys' : System}
    (h : Effect live g sys') (hg : Tracks start (bufferPages g) ⟨g, live⟩)
    (hslots : g.gEntryCount + 2 * worstCaseGrowthPerAllocation ≤ g.gCapacity)
    (hstatic : g.gBuffer = .initial → g.gCapacity ≤ bootAllocInitialCapacity)
    (hword : g.gCapacity < 2 ^ 64) : Healthy start sys' := by
  have htracks := h.tracks hg
  rcases h.edited with heq | ⟨new, hedit⟩
  · rw [← heq] at htracks hslots hstatic hword
    exact ⟨htracks, by omega, hstatic, hword⟩
  · have hcount := hedit.count_le
    have hcap := hedit.frame.gCapacity
    rw [← bufferPages_of_frame hedit.frame] at htracks
    exact ⟨htracks, by omega, fun hb => hcap ▸ hstatic (hedit.frame.gBuffer ▸ hb), by omega⟩

/-- The test of `maybe_grow_buffer` without machine words. -/
theorem noGrowth_slots (hcount : s.gEntryCount ≤ s.gCapacity) (hword : s.gCapacity < 2 ^ 64)
    (hno : NoGrowth s) : s.gEntryCount + 2 * worstCaseGrowthPerAllocation ≤ s.gCapacity := by
  unfold NoGrowth growthWatermark at hno
  rw [sub64_of_le hcount hword] at hno
  omega

/-- **Step lemma**: a step that grows the table at most once keeps the invariant. -/
theorem Step.healthy {start : List MemoryRange} {sys sys' : System} {request : Request}
    (h : Step GrowsOnce sys request sys') (hsys : Healthy start sys) : Healthy start sys' := by
  obtain ⟨htracks, hslots, hstatic, hword⟩ := hsys
  have hwf := htracks.wellFormed
  have hvalid : ∀ b ∈ sys.live, b.Valid := fun b hb => htracks.valid hb
  obtain ⟨fuel, hserve⟩ := h.served
  obtain ⟨_, grown, g, hgrow, hserved, _⟩ := System.serve_run hserve
  unfold worstCaseGrowthPerAllocation at hslots
  by_cases hno : NoGrowth sys.state
  · obtain ⟨rfl, rfl⟩ := Prod.mk.inj (maybeGrowBuffer_done_of_noGrowth hno hgrow)
    exact ((hserved rfl).effect hwf hvalid h.permitted).healthy htracks
      (noGrowth_slots (by omega) hword hno) hstatic hword
  · have hobtains := h.allowed.resolve_left hno
    obtain ⟨rfl, b, t, hb, hedit, rfl, hpages⟩ := maybeGrowBuffer_obtains hwf hno hobtains hgrow
    have htable := State.table_switch t b.address (newCapacity sys.state / memoryRangeSize)
    have hreserved : Tracks start [b] ⟨t, sys.live⟩ := by
      have := htracks.reserve hb hedit
      rwa [bufferPages, hobtains.static] at this
    have hswitched := hreserved.congr htable
    have hcap := hstatic hobtains.static
    have hsize : newCapacity sys.state =
        (sys.state.gCapacity * 32 + (pageSize - 1)) / pageSize * pageSize := newCapacity_eq (by
      simp only [bootAllocInitialCapacity, pageSize, memoryRangeSize] at *
      omega)
    have hcount := hedit.count_le
    unfold worstCaseGrowthPerAllocation at hcount
    refine ((hserved rfl).effect hswitched.wellFormed hvalid h.permitted).healthy
      (hpages ▸ hswitched) ?_ (fun h => by simp [State.switch, physToVirt] at h) ?_
    · simp only [State.switch, State.copyEntries, hsize, worstCaseGrowthPerAllocation]
      simp only [bootAllocInitialCapacity, pageSize, memoryRangeSize] at *
      omega
    · simp only [State.switch, hsize]
      simp only [bootAllocInitialCapacity, pageSize, memoryRangeSize] at *
      omega

end GrowsOnce

/-! ### Main results -/

section Results

variable {start : State} {requests : List Request} {sys : System}

/-- What a represented ledger says about the live and the reserved blocks. -/
theorem Tracks.memory {l : List MemoryRange} {reserved : List Block}
    (h : Tracks l reserved sys) :
    sys.live.Pairwise Block.Disjoint ∧
      (∀ b ∈ sys.live, ∀ x, b.Contains x → typeAt l x = some memoryFree) ∧
      (∀ b ∈ sys.live, ∀ c ∈ reserved, b.Disjoint c) ∧
      ∀ x, typeAt sys.state.table x = some memoryAllocated ↔ typeAt l x = some memoryAllocated ∨
        (∃ b ∈ sys.live, b.Contains x) ∨ ∃ b ∈ reserved, b.Contains x := by
  obtain ⟨L, hstart, hperm, hL⟩ := h
  have hdisjoint := (List.Perm.pairwise_iff Block.Disjoint.symm hperm).mp L.disjoint
  obtain ⟨hlive, _, hcross⟩ := List.pairwise_append.mp hdisjoint
  refine ⟨hlive, fun b hb x hx => ?_, hcross, fun x => ?_⟩
  · rw [← hstart]
    exact L.free b (hperm.mem_iff.mpr (List.mem_append_left _ hb)) x hx
  · have htaken : L.Taken x ↔ (∃ b ∈ sys.live, b.Contains x) ∨ ∃ b ∈ reserved, b.Contains x := by
      simp only [Ledger.Taken, hperm.mem_iff, List.mem_append, or_and_right, exists_or]
    rw [hL.typeAt, Ledger.typeAt, ← htaken, hstart]
    split_ifs with hx <;> simp [hx]

/-- **The live blocks are safe** in every run that grows the table at most once: the table stays
well-formed and inside its array, live blocks are disjoint parts of what was FREE at the start and
do not meet the pages of the table, and what is ALLOCATED is exactly what was ALLOCATED at the
start, the live blocks and the pages of the table. -/
theorem live_blocks_safe (hwf : WellFormedTable start.table) (hbuffer : start.gBuffer = .initial)
    (hcap : start.gCapacity ≤ bootAllocInitialCapacity)
    (hslots : start.gEntryCount + 2 ≤ start.gCapacity)
    (hrun : Run (Step GrowsOnce) ⟨start, []⟩ requests sys) :
    WellFormedTable sys.state.table ∧ sys.state.gEntryCount ≤ sys.state.gCapacity ∧
      sys.live.Pairwise Block.Disjoint ∧
      (∀ b ∈ sys.live, ∀ x, b.Contains x → typeAt start.table x = some memoryFree) ∧
      (∀ b ∈ sys.live, ∀ c ∈ bufferPages sys.state, b.Disjoint c) ∧
      ∀ x, typeAt sys.state.table x = some memoryAllocated ↔
        typeAt start.table x = some memoryAllocated ∨ (∃ b ∈ sys.live, b.Contains x) ∨
          ∃ b ∈ bufferPages sys.state, b.Contains x := by
  have hinitial : Healthy start.table ⟨start, []⟩ := by
    refine ⟨?_, hslots, fun _ => hcap, ?_⟩
    · have := Tracks.initial (s := start) hwf
      rwa [bufferPages, hbuffer]
    · simp only [bootAllocInitialCapacity, pageSize, memoryRangeSize] at hcap
      exact (by omega : start.gCapacity < 2 ^ 64)
  have hsys := hrun.invariant (fun _ _ _ hs hstep => hstep.healthy hs) hinitial
  have := hsys.slots
  exact ⟨hsys.tracks.wellFormed, by omega, hsys.tracks.memory⟩

/-- A run that grows the table, allocates a block, frees it and allocates another. -/
theorem live_blocks_safe_threePages :
    ∃ sys : System, (threePages 3).gBuffer ≠ sys.state.gBuffer ∧ sys.live = [⟨0x2000, 1⟩] ∧
      WellFormedTable sys.state.table ∧ sys.state.gEntryCount ≤ sys.state.gCapacity ∧
      sys.live.Pairwise Block.Disjoint ∧
      (∀ b ∈ sys.live, ∀ x, b.Contains x → typeAt (threePages 3).table x = some memoryFree) ∧
      (∀ b ∈ sys.live, ∀ c ∈ bufferPages sys.state, b.Disjoint c) ∧
      ∀ x, typeAt sys.state.table x = some memoryAllocated ↔
        typeAt (threePages 3).table x = some memoryAllocated ∨ (∃ b ∈ sys.live, b.Contains x) ∨
          ∃ b ∈ bufferPages sys.state, b.Contains x := by
  have hserved : ((System.mk (threePages 3) []).serveAll GrowsOnce 2
      [.alloc 1, .free 0x2000 1, .allocAt 0x2000 1]).map
        (fun sys : System => (sys.state.gBuffer, sys.live)) = some (.mapping 0x3000, [⟨0x2000, 1⟩]) := by
    decide +kernel
  obtain ⟨sys, hsys, heq⟩ := Option.map_eq_some_iff.mp hserved
  obtain ⟨hbuffer, hlive⟩ := Prod.mk.inj heq
  exact ⟨sys, by rw [hbuffer]; decide, hlive,
    live_blocks_safe (wellFormed_threePages 3) rfl (by decide) (by decide)
      (System.run_of_serveAll hsys)⟩

end Results

end UltraKernel.BootAlloc
