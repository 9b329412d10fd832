import UltraKernel.BootAlloc.Arguments
import UltraKernel.BootAlloc.Runs

/-!
# Coalesced tables

No two touching entries of a coalesced table have one type.  An edit keeps the table coalesced when the
range it carves is one of whole pages below the end of memory; `boot_free` does not check that.

* `bootFree_coalesced_iff`: the arguments on which `boot_free` keeps a coalesced table coalesced;
* `coalesced_table_determined`: without growth, a coalesced table is determined by the table the run
  started from and the set of live blocks.
-/

namespace UltraKernel.BootAlloc

open Word

/-! ### A range that wraps -/

section Wrapped

variable {s t : State} {n address : ℕ} {l r m : List MemoryRange} {cur new b : MemoryRange}

/-- A range that ends past the end of memory leaves something of its entry above its wrapped end. -/
theorem mrRhsPiece_wrapped (hcur : GoodRange cur) (hlt : new.mrSize < 2 ^ 64)
    (haligned : new.physicalAddress % pageSize = 0) (hsize : new.mrSize % pageSize = 0)
    (hword : new.physicalAddress < cur.physicalAddress + cur.mrSize)
    (hwraps : 2 ^ 64 ≤ new.physicalAddress + new.mrSize) :
    new.mrEnd = new.physicalAddress + new.mrSize - 2 ^ 64 ∧
      (mrRhsPiece cur new).mrSize = cur.physicalAddress + cur.mrSize - new.mrEnd ∧
      (mrRhsPiece cur new).mrType = cur.mrType ∧ (mrRhsPiece cur new).sizeAndType < 2 ^ 64 := by
  have hbound := hcur.1.bounded
  have hpage := hcur.2.address
  have hpages := hcur.2.size
  have htype := cur.mrType_lt
  have hend : new.mrEnd = new.physicalAddress + new.mrSize - 2 ^ 64 := by
    rw [MemoryRange.mrEnd, add64]
    omega
  have heven : (cur.physicalAddress + cur.mrSize - new.mrEnd) % 2 = 0 := by
    simp only [pageSize] at *
    omega
  have hparts : (mrRhsPiece cur new).sizeAndType =
      cur.physicalAddress + cur.mrSize - new.mrEnd + cur.mrType := by
    rw [mrRhsPiece, hcur.1.mrEnd_eq, sub64_of_le (by omega) hbound, mrEncode_eq heven htype]
  obtain ⟨hrhs, hrhstype⟩ := mrSize_mrType_of_eq hparts heven htype (by omega)
  exact ⟨hend, hrhs, hrhstype, by omega⟩

theorem goodRange_mrRhsPiece (hcur : GoodRange cur) (hlt : new.mrSize < 2 ^ 64)
    (haligned : new.physicalAddress % pageSize = 0) (hsize : new.mrSize % pageSize = 0)
    (hword : new.physicalAddress < cur.physicalAddress + cur.mrSize)
    (hwraps : 2 ^ 64 ≤ new.physicalAddress + new.mrSize) : GoodRange (mrRhsPiece cur new) := by
  obtain ⟨hend, hrhs, _, hrhsword⟩ := mrRhsPiece_wrapped hcur hlt haligned hsize hword hwraps
  have hbound := hcur.1.bounded
  have hpage := hcur.2.address
  have hpages := hcur.2.size
  have hstart : (mrRhsPiece cur new).physicalAddress = new.mrEnd := rfl
  refine ⟨⟨hrhsword, by omega, by omega⟩, ⟨?_, ?_⟩⟩
  · rw [hstart, hend]
    simp only [pageSize] at *
    omega
  · rw [hrhs, hend]
    simp only [pageSize] at *
    omega

/-- **Carving a range that wraps** leaves a well-formed table only by merging it with a larger entry
before, whose size wraps as well. -/
theorem Carved.of_wrapped (hc : Carved cur new l r m) (hwf : WellFormedTable (l ++ cur :: r))
    (hwf' : WellFormedTable m) (hlt : new.mrSize < 2 ^ 64)
    (haligned : new.physicalAddress % pageSize = 0) (hsize : new.mrSize % pageSize = 0)
    (hword : new.physicalAddress < cur.physicalAddress + cur.mrSize)
    (hwraps : 2 ^ 64 ≤ new.physicalAddress + new.mrSize) :
    ∃ b ∈ l, canMergeRanges b new ∧ 2 ^ 64 < b.mrSize + new.mrSize := by
  have hcur := hwf.good cur (by simp)
  obtain ⟨hend, hrhs, _, _⟩ := mrRhsPiece_wrapped hcur hlt haligned hsize hword hwraps
  have hright : (mrRhsPiece cur new).mrSize ≠ 0 := by omega
  have hnotMem : new ∉ m := by
    intro hnew
    have := (hwf'.valid new hnew).bounded
    omega
  cases hc with
  | case1 _ _ => exact absurd (by simp) hnotMem
  | @case2a k b _ _ _ hmerge =>
    refine ⟨b, by simp, hmerge, ?_⟩
    have hb := hwf.valid b (by simp)
    have hmerged := hwf'.valid (mergeRanges b new) (by simp)
    have hstart := hmerge.2
    rw [hb.mrEnd_eq] at hstart
    have haddr : (mergeRanges b new).physicalAddress = b.physicalAddress := if_neg (by omega)
    by_contra hle
    rcases Nat.lt_or_ge (b.mrSize + new.mrSize) (2 ^ 64) with hsum | hsum
    · -- the sizes add up, so the merged entry ends past the end of memory
      have hms := (mergeRanges_parts (b := new) hb.word hsum).1
      have hbound := hmerged.bounded
      omega
    · -- they add up to nothing
      have htype := b.mrType_lt
      have hparts := MemoryRange.sizeAndType_eq hb.word
      have hzero : (mergeRanges b new).sizeAndType = 0 + b.mrType := by
        rw [mergeRanges]
        simp only [add64]
        omega
      have hpos := hmerged.nonempty
      rw [(mrSize_mrType_of_eq hzero rfl htype (by decide)).1] at hpos
      exact absurd hpos (Nat.lt_irrefl 0)
  | case2b _ _ _ => exact absurd (by simp) hnotMem
  | case3a _ hzero _ => exact absurd hzero hright
  | case3b _ hzero _ => exact absurd hzero hright
  | case4a _ hzero _ _ => exact absurd hzero hright
  | case4b _ hzero _ _ => exact absurd hzero hright
  | case4c _ hzero _ _ => exact absurd hzero hright
  | case4d _ hzero _ _ => exact absurd hzero hright

/-- Moving the place where two entries of different types meet keeps a coalesced table coalesced. -/
theorem coalesced_of_moved {k : List MemoryRange} {b' cur' : MemoryRange}
    (hwf : WellFormedTable (k ++ b :: cur :: r)) (hco : CoalescedTable (k ++ b :: cur :: r))
    (hb' : GoodRange b') (hcur' : GoodRange cur') (hstart : b'.physicalAddress = b.physicalAddress)
    (hmeet : b'.physicalAddress + b'.mrSize = cur'.physicalAddress)
    (hend : cur'.physicalAddress + cur'.mrSize = cur.physicalAddress + cur.mrSize)
    (hbtype : b'.mrType = b.mrType) (hcurtype : cur'.mrType = cur.mrType)
    (hne : b.mrType ≠ cur.mrType) :
    WellFormedTable (k ++ b' :: cur' :: r) ∧ CoalescedTable (k ++ b' :: cur' :: r) := by
  have hgood : ∀ x ∈ k ++ b' :: cur' :: r, GoodRange x := by
    intro x hx
    rcases List.mem_append.mp hx with hx | hx
    · exact hwf.good x (List.mem_append_left _ hx)
    · rcases List.mem_cons.mp hx with rfl | hx
      · exact hb'
      · rcases List.mem_cons.mp hx with rfl | hx
        · exact hcur'
        · exact hwf.good x (by simp [hx])
  obtain ⟨hk, hbr, hkbr⟩ := List.pairwise_append.mp hwf.sorted
  obtain ⟨_, hcr⟩ := List.pairwise_cons.mp hbr
  obtain ⟨hcurr, hr⟩ := List.pairwise_cons.mp hcr
  have hpos := hcur'.1.nonempty
  constructor
  · refine ⟨fun x hx => (hgood x hx).1, fun x hx => (hgood x hx).2, ?_⟩
    refine List.pairwise_append.mpr ⟨hk, List.pairwise_cons.mpr ⟨?_, List.pairwise_cons.mpr ⟨?_, hr⟩⟩, ?_⟩
    · intro x hx
      rcases List.mem_cons.mp hx with rfl | hx
      · exact hmeet.le
      · have := hcurr x hx
        omega
    · intro x hx
      rw [hend]
      exact hcurr x hx
    · intro a ha x hx
      have hab := hkbr a ha b (by simp)
      rcases List.mem_cons.mp hx with rfl | hx
      · rw [hstart]
        exact hab
      · rcases List.mem_cons.mp hx with rfl | hx
        · omega
        · exact hkbr a ha x (by simp [hx])
  · simp only [CoalescedTable, List.map_append, List.map_cons] at hco ⊢
    obtain ⟨hcok, hcobr, hlast⟩ := SegmentMap.coalesced_append.mp hco
    obtain ⟨_, hcocr⟩ := List.isChain_cons_cons.mp hcobr
    obtain ⟨hcohead, hcor⟩ := List.isChain_cons.mp hcocr
    refine SegmentMap.coalesced_append.mpr ⟨hcok, List.isChain_cons_cons.mpr ⟨?_,
      List.isChain_cons.mpr ⟨?_, hcor⟩⟩, ?_⟩
    · intro htouch
      exact hne (hbtype.symm.trans (htouch.1.trans hcurtype))
    · intro x hx htouch
      exact hcohead x hx ⟨hcurtype.symm.trans htouch.1, hend.symm.trans htouch.2⟩
    · intro a ha x hx htouch
      obtain rfl : segment b' = x := by simpa using hx
      exact hlast a ha (segment b) (by simp)
        ⟨htouch.1.trans hbtype, htouch.2.trans hstart⟩

/-- The size of a merged entry wraps as well. -/
theorem mergeRanges_wrapped (hb : GoodRange b) (hlt : new.mrSize < 2 ^ 64)
    (hsize : new.mrSize % pageSize = 0) (hstart : b.physicalAddress ≤ new.physicalAddress)
    (hsum : 2 ^ 64 < b.mrSize + new.mrSize) :
    GoodRange (mergeRanges b new) ∧ (mergeRanges b new).physicalAddress = b.physicalAddress ∧
      (mergeRanges b new).mrSize = b.mrSize + new.mrSize - 2 ^ 64 ∧
      (mergeRanges b new).mrType = b.mrType := by
  have hbound := hb.1.bounded
  have hpages := hb.2.size
  have htype := b.mrType_lt
  have hparts := MemoryRange.sizeAndType_eq hb.1.word
  have haddr : (mergeRanges b new).physicalAddress = b.physicalAddress := if_neg (by omega)
  have hword : (mergeRanges b new).sizeAndType = b.mrSize + new.mrSize - 2 ^ 64 + b.mrType := by
    rw [mergeRanges]
    simp only [add64]
    omega
  have hmod : (b.mrSize + new.mrSize - 2 ^ 64) % pageSize = 0 := by
    simp only [pageSize] at *
    omega
  obtain ⟨hms, hmt⟩ := mrSize_mrType_of_eq hword
    (by simp only [pageSize] at hmod; omega) htype (by omega)
  refine ⟨⟨⟨add64_lt _ _, by omega, by omega⟩, ⟨haddr ▸ hb.2.address, hms ▸ hmod⟩⟩, haddr, hms, hmt⟩

/-- **Carving a range that wraps** and merges with a larger entry before it moves the place where that
entry ends. -/
theorem Carved.coalesced_of_wrapped (hc : Carved cur new l r m) (hwf : WellFormedTable (l ++ cur :: r))
    (hco : CoalescedTable (l ++ cur :: r)) (hne : cur.mrType ≠ new.mrType)
    (hlt : new.mrSize < 2 ^ 64) (haligned : new.physicalAddress % pageSize = 0)
    (hsize : new.mrSize % pageSize = 0) (hcontains : cur.Contains new.physicalAddress)
    (hbefore : ∃ b ∈ l, canMergeRanges b new ∧ 2 ^ 64 < b.mrSize + new.mrSize) :
    WellFormedTable m ∧ CoalescedTable m := by
  obtain ⟨b, hbl, hmerge, hsum⟩ := hbefore
  have hbmem : b ∈ l ++ cur :: r := List.mem_append_left _ hbl
  have hb := hwf.good b hbmem
  have hend := hmerge.2
  rw [hb.1.mrEnd_eq] at hend
  have hword := hcontains.2
  have hcur := hwf.good cur (by simp)
  have hcurBound := hcur.1.bounded
  obtain ⟨hnewEnd, hrhs, hrhstype, _⟩ :=
    mrRhsPiece_wrapped hcur hlt haligned hsize hword (by omega)
  have hright : (mrRhsPiece cur new).mrSize ≠ 0 := by omega
  -- the entry ends where the range starts, so that is where `cur` starts
  obtain ⟨hstart, _⟩ := start_of_ends hwf hcontains hbmem hend
  have hleft : (mrLhsPiece cur new).mrSize = 0 := mrLhsPiece_none hstart (by omega)
  cases hc with
  | case1 hl _ => exact absurd hleft hl
  | @case2a k z _ _ _ hmergeLast =>
    obtain rfl := eq_last_of_ends hwf hbl (hend.trans hstart)
    obtain ⟨hgood, hmergedStart, hmerged, hmergedType⟩ :=
      mergeRanges_wrapped hb hlt hsize (by omega) hsum
    have hrhsStart : (mrRhsPiece cur new).physicalAddress = new.mrEnd := rfl
    have hrhsGood := goodRange_mrRhsPiece hcur hlt haligned hsize hword (by omega)
    have hother : b.mrType ≠ cur.mrType := by
      rw [hmerge.1]
      exact hne.symm
    rw [List.append_assoc, List.singleton_append] at hwf hco
    exact coalesced_of_moved hwf hco hgood hrhsGood hmergedStart (by omega) (by omega) hmergedType
      hrhstype hother
  | case2b _ _ hno =>
    obtain ⟨k, z, rfl⟩ := (List.eq_nil_or_concat l).resolve_left (List.ne_nil_of_mem hbl)
    rw [List.concat_eq_append] at hbl hno hwf
    rw [eq_last_of_ends hwf hbl (hend.trans hstart)] at hmerge
    exact absurd hmerge (hno z (by simp))
  | case3a hl _ _ => exact absurd hleft hl
  | case3b hl _ _ => exact absurd hleft hl
  | case4a _ hzero _ _ => exact absurd hzero hright
  | case4b _ hzero _ _ => exact absurd hzero hright
  | case4c _ hzero _ _ => exact absurd hzero hright
  | case4d _ hzero _ _ => exact absurd hzero hright

end Wrapped

/-! ### One call -/

section Calls

variable {s t : State} {n address : ℕ}

/-- The bytes, after wrapping, are whole pages below the end of memory; or they are none, or wrap around
it, right above a FREE entry that is larger than what they lack. -/
def FreesWhole (s : State) (address bytes : ℕ) : Prop :=
  (0 < bytes ∧ address + bytes < 2 ^ 64) ∨
    ∃ b ∈ s.table, b.mrType = memoryFree ∧ b.physicalAddress + b.mrSize = address ∧
      (bytes = 0 ∨ 2 ^ 64 < b.mrSize + bytes)

theorem Edited.coalesced {new : MemoryRange} (h : Edited s new t) (hco : CoalescedTable s.table) :
    WellFormedTable t.table ∧ CoalescedTable t.table :=
  ⟨h.updates.wellFormed, h.updates.coalesced hco⟩

/-- **A carved request keeps the table coalesced** exactly on the arguments that `FreesWhole` allows. -/
theorem FreedOutOf.coalesced_iff {cur : MemoryRange} {l r : List MemoryRange}
    (h : FreedOutOf s address n cur l r t) (hwf : WellFormedTable s.table)
    (hco : CoalescedTable s.table) (haligned : address % pageSize = 0) :
    WellFormedTable t.table ∧ CoalescedTable t.table ↔ FreesWhole s address (mul64 n pageSize) := by
  obtain ⟨hsize, htype, hend⟩ := pagesRange_parts address n (by decide : memoryFree < 2)
  have hmod := mul64_pageSize_mod n
  have hlt := mul64_lt n pageSize
  have hother : cur.mrType ≠ (requestedRange address (mul64 n pageSize) memoryFree).mrType := by
    rw [h.allocated, htype]
    decide
  have htable := hwf
  rw [h.table] at htable
  constructor
  · rintro ⟨hwf', -⟩
    rcases Nat.eq_zero_or_pos (mul64 n pageSize) with hzero | hpos
    · obtain ⟨b, hb, hbtype, hbend⟩ := h.of_empty hwf hwf' hzero
      exact Or.inr ⟨b, hb, hbtype, hbend, Or.inl hzero⟩
    rcases Nat.lt_or_ge (address + mul64 n pageSize) (2 ^ 64) with hword | hwraps
    · exact Or.inl ⟨hpos, hword⟩
    · obtain ⟨b, hbl, hmerge, hsum⟩ := h.carved.of_wrapped htable hwf' (by rwa [hsize]) haligned
        (by rwa [hsize]) h.contains.2 (by rwa [hsize])
      have hb : b ∈ s.table := by
        rw [h.table]
        exact List.mem_append_left _ hbl
      have hbend := hmerge.2
      rw [(hwf.valid b hb).mrEnd_eq] at hbend
      rw [hsize] at hsum
      exact Or.inr ⟨b, hb, hmerge.1.trans htype, hbend, Or.inr hsum⟩
  · rintro (⟨hpos, hword⟩ | ⟨b, hb, hbtype, hbend, hzero | hsum⟩)
    · have hnew : GoodRange (requestedRange address (mul64 n pageSize) memoryFree) :=
        requestedRange_good hmod hpos hword haligned (by decide)
      have hends := h.ends
      rw [add64_of_lt hword] at hends
      have hin : Inside (requestedRange address (mul64 n pageSize) memoryFree) cur :=
        ⟨h.contains.1, by rw [hsize]; exact hends⟩
      exact (allocateOutOf_done h.table hwf hin hother hnew h.run).coalesced hco
    · rw [h.unchanged hwf hzero hb hbtype hbend]
      exact ⟨hwf, hco⟩
    · have hmem := hb
      rw [h.table] at hmem hco
      obtain ⟨_, hbl⟩ := start_of_ends htable h.contains hmem hbend
      have hmerge : canMergeRanges b (requestedRange address (mul64 n pageSize) memoryFree) := by
        refine ⟨hbtype.trans htype.symm, ?_⟩
        rw [(hwf.valid b hb).mrEnd_eq]
        exact hbend
      exact h.carved.coalesced_of_wrapped htable hco hother (by rwa [hsize]) haligned (by rwa [hsize])
        h.contains ⟨b, hbl, hmerge, by rwa [hsize]⟩

/-- **When `boot_free` keeps a coalesced table coalesced**: on every argument that it refuses, and on
those that `FreesWhole` allows. -/
theorem bootFree_coalesced_iff (hwf : WellFormedTable s.table) (hco : CoalescedTable s.table)
    (hslots : EnoughSlots s) (haligned : address % pageSize = 0) :
    (∀ fuel t, bootFree fuel s address n = .done t → WellFormedTable t.table ∧ CoalescedTable t.table) ↔
      (Frees s address (mul64 n pageSize) → FreesWhole s address (mul64 n pageSize)) := by
  have hsame : ∀ fuel t, bootFree fuel s address n = .done t → bootFree 2 s address n = .done t := by
    intro fuel t hrun
    match fuel with
    | 0 => cases hrun
    | 1 => cases hrun
    | fuel + 2 =>
      rw [bootFree_of_noGrowth hslots.noGrowth] at hrun ⊢
      exact hrun
  rcases bootFree_cases hwf hslots 0 address n with ⟨cur, l, r, t, hfreed, hrun⟩ | ⟨hno, bug, hrun⟩
  · have hiff := hfreed.coalesced_iff hwf hco haligned
    constructor
    · intro hkeeps _
      exact hiff.mp (hkeeps 2 t hrun)
    · intro hwhole fuel t' hrun'
      obtain rfl : t = t' := Outcome.done.inj (hrun.symm.trans (hsame fuel t' hrun'))
      exact hiff.mpr (hwhole hfreed.frees)
  · refine iff_of_true ?_ fun hfrees => absurd hfrees hno
    intro fuel t hrun'
    have hdone := hrun.symm.trans (hsame fuel t hrun')
    cases hdone

/-- The two allocating calls keep a coalesced table coalesced on every argument. -/
theorem bootAlloc_coalesced (hwf : WellFormedTable s.table) (hco : CoalescedTable s.table)
    (hno : NoGrowth s) {fuel ret : ℕ} (hrun : bootAlloc fuel s n = .done (ret, t)) :
    WellFormedTable t.table ∧ CoalescedTable t.table := by
  obtain ⟨grown, g, hgrow, hpart⟩ := bootAlloc_run hrun
  obtain ⟨rfl, rfl⟩ := Prod.mk.inj (maybeGrowBuffer_done_of_noGrowth hno hgrow)
  rcases bootAllocNogrow_done hwf (by simpa using hpart) with ⟨_, _, rfl⟩ | ⟨_, hedit⟩
  · exact ⟨hwf, hco⟩
  · exact hedit.coalesced hco

theorem bootAllocAt_coalesced (hwf : WellFormedTable s.table) (hco : CoalescedTable s.table)
    (hno : NoGrowth s) (haligned : address % pageSize = 0) (hword : address < 2 ^ 64) {fuel ret : ℕ}
    (hrun : bootAllocAt fuel s address n = .done (ret, t)) :
    WellFormedTable t.table ∧ CoalescedTable t.table := by
  obtain ⟨grown, g, hgrow, hpart⟩ := bootAllocAt_run hrun
  obtain ⟨rfl, rfl⟩ := Prod.mk.inj (maybeGrowBuffer_done_of_noGrowth hno hgrow)
  rcases allocateWithin_done hwf hword (add64_lt _ _) haligned (by simpa using hpart) with
    ⟨_, rfl⟩ | ⟨_, hedit⟩
  · exact ⟨hwf, hco⟩
  · exact hedit.coalesced hco

end Calls

/-! ### Runs -/

section Runs

variable {start : State} {requests : List Request} {sys : System}

/-- Without growth the invariant of coalesced runs: the ledger, and no touching entries. -/
theorem coalesced_of_run (hwf : WellFormedTable start.table) (hco : CoalescedTable start.table)
    (hrun : Run (Step NoGrowth) ⟨start, []⟩ requests sys) :
    Tracks start.table [] sys ∧ CoalescedTable sys.state.table := by
  refine hrun.invariant (P := fun sys => Tracks start.table [] sys ∧ CoalescedTable sys.state.table)
    (fun s r t hs hstep => ?_) ⟨.initial hwf, hco⟩
  have heffect := hstep.effect hs.1.wellFormed fun _ hb => hs.1.valid hb
  refine ⟨heffect.tracks hs.1, ?_⟩
  rcases heffect.edited with heq | ⟨new, hedit⟩
  · rw [heq]
    exact hs.2
  · exact hedit.updates.coalesced hs.2

/-- The table gives every address the type of the ledger. -/
theorem Tracks.typeAt_eq {l : List MemoryRange} {reserved : List Block} (h : Tracks l reserved sys)
    (x : ℕ) : typeAt sys.state.table x =
      if ∃ b ∈ sys.live ++ reserved, b.Contains x then some memoryAllocated else typeAt l x := by
  obtain ⟨L, hstart, hperm, hL⟩ := h
  have htaken : L.Taken x ↔ ∃ b ∈ sys.live ++ reserved, b.Contains x := by
    simp only [Ledger.Taken, hperm.mem_iff]
  rw [hL.typeAt, Ledger.typeAt, hstart]
  simp only [htaken]

/-- Freeing all live blocks, in any order, leaves none. -/
theorem live_of_frees {allowed : State → Prop} {order : List Block} {sys' : System}
    (hrun : Run (Step allowed) sys (order.map fun b => .free b.address b.numPages) sys')
    (horder : order.Perm sys.live) : sys'.live = [] := by
  induction order generalizing sys with
  | nil =>
    cases hrun
    exact horder.nil_eq.symm
  | cons b order ih =>
    obtain ⟨hmem, hperm⟩ := List.cons_perm_iff_perm_erase.mp horder
    cases hrun with
    | @cons _ next _ _ _ hstep hrest =>
      obtain ⟨fuel, hserve⟩ := hstep.served
      obtain ⟨t, _, hret⟩ := Outcome.bind_eq_done.mp hserve
      obtain rfl : _ = next := by simpa using hret
      exact ih hrest hperm

/-- A run that never needs to grow leaves two slots free. -/
theorem slots_of_run (hwf : WellFormedTable start.table) (hcount : start.gEntryCount ≤ start.gCapacity)
    (hword : start.gCapacity < 2 ^ 64) (hrun : Run (Step NoGrowth) ⟨start, []⟩ requests sys)
    (hno : NoGrowth sys.state) :
    sys.state.gEntryCount + worstCaseGrowthPerAllocation ≤ sys.state.gCapacity := by
  have hroom : sys.state.gEntryCount ≤ sys.state.gCapacity ∧ sys.state.gCapacity < 2 ^ 64 := by
    refine (hrun.invariant (P := fun sys => Tracks start.table [] sys ∧
      sys.state.gEntryCount ≤ sys.state.gCapacity ∧ sys.state.gCapacity < 2 ^ 64)
      (fun s r t hs hstep => ?_) ⟨.initial hwf, hcount, hword⟩).2
    have heffect := hstep.effect hs.1.wellFormed fun _ hb => hs.1.valid hb
    refine ⟨heffect.tracks hs.1, ?_⟩
    rcases heffect.edited with heq | ⟨new, hedit⟩
    · rw [heq]
      exact hs.2
    · have hgrown := hedit.count_le
      have hfree := noGrowth_slots hs.2.1 hs.2.2 hstep.allowed
      rw [hedit.frame.gCapacity]
      unfold worstCaseGrowthPerAllocation at *
      omega
  have hslots := noGrowth_slots hroom.1 hroom.2 hno
  omega

/-- A live block lies inside one ALLOCATED entry, so freeing it completes. -/
theorem bootFree_live {l : List MemoryRange} (h : Tracks l [] sys) (hno : NoGrowth sys.state)
    (hslots : sys.state.gEntryCount + worstCaseGrowthPerAllocation ≤ sys.state.gCapacity)
    {b : Block} (hb : b ∈ sys.live) :
    ∃ t, bootFree 2 sys.state b.address b.numPages = .done t := by
  have hv := h.valid hb
  have hwf := h.wellFormed
  obtain ⟨hsize, htype⟩ := hv.range_parts (by decide : memoryFree < 2)
  have hpos := hv.bytes_pos
  obtain ⟨L, _, hperm, hL⟩ := h
  have hmem : b ∈ L.blocks := hperm.mem_iff.mpr (List.mem_append_left _ hb)
  obtain ⟨cur, hcur, hlo, hhi⟩ := hL.within b hmem
  have hallocated : cur.mrType = memoryAllocated := by
    have hat := hwf.typeAt_of_mem (x := b.address) hcur ⟨hlo, by omega⟩
    rw [hL.typeAt, Ledger.typeAt, if_pos ⟨b, hmem, hv.contains_address⟩] at hat
    exact (Option.some.inj hat).symm
  obtain ⟨before, after, htable⟩ := List.append_of_mem hcur
  have hin : Inside (b.range memoryFree) cur := ⟨hlo, by rw [hsize]; exact hhi⟩
  obtain ⟨t, ht, _⟩ := allocateOutOf_slots htable hwf hin (by rw [hallocated, htype]; decide)
    (hv.good (by decide)) hslots
  refine ⟨t, ?_⟩
  have hbytes : mul64 b.numPages pageSize = b.bytes := mul64_of_lt (by
    have := hv.bounded
    simp only [Block.bytes] at this
    omega)
  rw [bootFree_of_noGrowth hno, findRange_of_contains hwf htable ⟨hlo, by omega⟩,
    Outcome.done_bind, bugOn_of_not (by omega), Outcome.done_bind, Int.toNat_natCast, hbytes]
  exact ht

/-- **Coalesced tables are canonical**: without growth the two allocating calls keep a coalesced table
coalesced on every argument, and `boot_free` exactly on those that it refuses or `FreesWhole` allows; two
runs from one coalesced table that end with the same live blocks leave the same entries, freeing
everything in any order restores the table, and every live block can be freed. -/
theorem coalesced_table_determined (hwf : WellFormedTable start.table)
    (hco : CoalescedTable start.table) :
    (∀ address numPages, EnoughSlots start → address % pageSize = 0 → address < 2 ^ 64 →
      (∀ fuel ret t, bootAlloc fuel start numPages = .done (ret, t) →
        WellFormedTable t.table ∧ CoalescedTable t.table) ∧
      (∀ fuel ret t, bootAllocAt fuel start address numPages = .done (ret, t) →
        WellFormedTable t.table ∧ CoalescedTable t.table) ∧
      ((∀ fuel t, bootFree fuel start address numPages = .done t →
        WellFormedTable t.table ∧ CoalescedTable t.table) ↔
          (Frees start address (mul64 numPages pageSize) →
            FreesWhole start address (mul64 numPages pageSize)))) ∧
    (∀ requests (sys : System) requests' (sys' : System),
      Run (Step NoGrowth) ⟨start, []⟩ requests sys →
      Run (Step NoGrowth) ⟨start, []⟩ requests' sys' → (∀ b, b ∈ sys.live ↔ b ∈ sys'.live) →
      sys.state.table = sys'.state.table) ∧
    (∀ requests (sys : System) (order : List Block) sys', Run (Step NoGrowth) ⟨start, []⟩ requests sys →
      order.Perm sys.live →
      Run (Step NoGrowth) sys (order.map fun b => .free b.address b.numPages) sys' →
      sys'.state.table = start.table) ∧
    (∀ requests (sys : System) b, Run (Step NoGrowth) ⟨start, []⟩ requests sys →
      start.gEntryCount ≤ start.gCapacity → start.gCapacity < 2 ^ 64 → NoGrowth sys.state →
      b ∈ sys.live → ∃ t, bootFree 2 sys.state b.address b.numPages = .done t) := by
  have hdetermined : ∀ requests (sys : System) requests' (sys' : System),
      Run (Step NoGrowth) ⟨start, []⟩ requests sys →
      Run (Step NoGrowth) ⟨start, []⟩ requests' sys' → (∀ b, b ∈ sys.live ↔ b ∈ sys'.live) →
      sys.state.table = sys'.state.table := by
    intro requests sys requests' sys' hrun hrun' hlive
    obtain ⟨htracks, hco'⟩ := coalesced_of_run hwf hco hrun
    obtain ⟨htracks', hco''⟩ := coalesced_of_run hwf hco hrun'
    refine eq_of_typeAt_eq htracks.wellFormed htracks'.wellFormed hco' hco'' (funext fun x => ?_)
    rw [htracks.typeAt_eq, htracks'.typeAt_eq]
    simp only [List.append_nil, hlive]
  refine ⟨?_, hdetermined, fun requests sys order sys' hrun horder hfrees => ?_,
    fun requests sys b hrun hcount hword hno hb => ?_⟩
  · intro address n hslots haligned hword
    exact ⟨fun fuel ret t hrun => bootAlloc_coalesced hwf hco hslots.noGrowth hrun,
      fun fuel ret t hrun => bootAllocAt_coalesced hwf hco hslots.noGrowth haligned hword hrun,
      bootFree_coalesced_iff hwf hco hslots haligned⟩
  · refine hdetermined _ sys' [] ⟨start, []⟩ (hrun.append hfrees) (.nil _) fun b => ?_
    simp [live_of_frees hfrees horder]
  · exact bootFree_live (coalesced_of_run hwf hco hrun).1 hno (slots_of_run hwf hcount hword hrun hno) hb

/-- Two runs that end with the block at `0x2000` live. -/
theorem coalesced_table_determined_threePages :
    ∃ sys sys' : System, sys.live = [⟨0x2000, 1⟩] ∧ sys'.live = [⟨0x2000, 1⟩] ∧
      sys.state.table = sys'.state.table := by
  have hserved : ((System.mk (threePages 256) []).serveAll NoGrowth 2
      [.alloc 1, .alloc 1, .free 0x3000 1]).map System.live = some [⟨0x2000, 1⟩] := by
    decide +kernel
  have hserved' : ((System.mk (threePages 256) []).serveAll NoGrowth 2
      [.allocAt 0x2000 1]).map System.live = some [⟨0x2000, 1⟩] := by
    decide +kernel
  obtain ⟨sys, hsys, hlive⟩ := Option.map_eq_some_iff.mp hserved
  obtain ⟨sys', hsys', hlive'⟩ := Option.map_eq_some_iff.mp hserved'
  refine ⟨sys, sys', hlive, hlive', ?_⟩
  refine (coalesced_table_determined (wellFormed_threePages 256) ?_).2.1
    _ _ _ _ (System.run_of_serveAll hsys) (System.run_of_serveAll hsys') (by simp [hlive, hlive'])
  exact List.isChain_singleton _

/-- Freeing 2^52 - 1 pages inside the entry: the range wraps around the end of memory, and what is left
above it starts where the entry did. -/
theorem bootFree_not_coalesced_threeAllocated :
    WellFormedTable threeAllocated.table ∧ CoalescedTable threeAllocated.table ∧
      EnoughSlots threeAllocated ∧
      ∃ t, bootFree 2 threeAllocated 0x2000 (2 ^ 52 - 1) = .done t ∧
        t.table = [⟨0x1000, 0x1001⟩, ⟨0x2000, 0xFFFFFFFFFFFFF000⟩, ⟨0x1000, 0x3001⟩] ∧
        ¬ (WellFormedTable t.table ∧ CoalescedTable t.table) := by
  have hrun : (bootFree 2 threeAllocated 0x2000 (2 ^ 52 - 1)).value?.map State.table =
      some [⟨0x1000, 0x1001⟩, ⟨0x2000, 0xFFFFFFFFFFFFF000⟩, ⟨0x1000, 0x3001⟩] := by
    decide +kernel
  obtain ⟨t, hvalue, htable⟩ := Option.map_eq_some_iff.mp hrun
  refine ⟨wellFormed_threeAllocated, List.isChain_singleton _, ⟨by decide, by decide⟩, t,
    Outcome.value?_eq_some.mp hvalue, htable, ?_⟩
  rintro ⟨hwf, -⟩
  have hbound := (hwf.valid ⟨0x2000, 0xFFFFFFFFFFFFF000⟩ (by rw [htable]; simp)).bounded
  exact absurd hbound (by decide)

end Runs

end UltraKernel.BootAlloc
