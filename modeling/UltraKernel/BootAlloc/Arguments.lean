import UltraKernel.BootAlloc.Interface

/-!
# Which arguments the allocator serves

The size of a request is a product that may wrap, and the address need not be aligned.  A call is
exact when it panics, fails and leaves the table as it was, or retypes exactly the bytes the
caller asked for, counted without wrapping.  `arguments_exact_iff` says on which arguments each of
the three calls is exact.

A retyped interval of a well-formed table is aligned and lies below the end of memory
(`Retyped.bounds`), so no argument outside these bounds can be served exactly; for the empty
interval the edits are followed by hand (`Carved.of_empty`).
-/

namespace UltraKernel.BootAlloc

open Word

/-! ### Retyped intervals are aligned and bounded -/

section Bounds

variable {s t : State} {address bytes old new : ℕ}

/-- Every address of the table is a word. -/
theorem typeAt_bounded {l : List MemoryRange} (hwf : WellFormedTable l) {x type : ℕ}
    (h : typeAt l x = some type) : x + 1 < 2 ^ 64 := by
  obtain ⟨r, hr, hx, _⟩ := exists_of_typeAt h
  have hbound := (hwf.valid r hr).bounded
  have hend := hx.2
  omega

/-- Below an address that is not a page's first lies one of the same type. -/
theorem typeAt_pred {l : List MemoryRange} (hwf : WellFormedTable l) {x type : ℕ}
    (h : typeAt l x = some type) (hx : x % pageSize ≠ 0) : typeAt l (x - 1) = some type := by
  obtain ⟨r, hr, hcontains, htype⟩ := exists_of_typeAt h
  have hlo := hcontains.1
  have hhi := hcontains.2
  have hne : r.physicalAddress ≠ x := by
    intro heq
    exact hx (heq ▸ (hwf.aligned r hr).address)
  rw [← htype]
  exact hwf.typeAt_of_mem hr ⟨by omega, by omega⟩

/-- **Only an aligned interval of words can change its type** from one well-formed table to
another. -/
theorem Retyped.bounds (h : Retyped s address bytes old new t) (hwf : WellFormedTable s.table)
    (hpos : 0 < bytes) (hne : old ≠ new) :
    address % pageSize = 0 ∧ address + bytes < 2 ^ 64 := by
  constructor
  · by_contra haligned
    have hstart : 0 < address := by
      by_contra hzero
      rw [Nat.eq_zero_of_not_pos hzero] at haligned
      exact haligned rfl
    obtain ⟨hbefore, hafter⟩ := h.inside address le_rfl (by omega)
    have hsame := h.outside (address - 1) (by omega)
    rw [typeAt_pred hwf hbefore haligned, typeAt_pred h.wellFormed hafter haligned] at hsame
    exact hne (Option.some.inj hsame).symm
  · obtain ⟨hlast, _⟩ := h.inside (address + bytes - 1) (by omega) (by omega)
    have := typeAt_bounded hwf hlast
    omega

/-- The request fits into a word without wrapping, when the interval does. -/
theorem mul64_of_bounds {n : ℕ} (h : address + n * pageSize < 2 ^ 64) :
    mul64 n pageSize = n * pageSize :=
  mul64_of_lt (by omega)

/-- A table that has not changed. -/
theorem Retyped.nothing (hwf : WellFormedTable s.table) (h : t.table = s.table) :
    Retyped s address 0 old new t := by
  refine ⟨h ▸ hwf, ?_, ?_⟩
  · intro x hlo hhi
    omega
  · intro x _
    rw [h]

end Bounds

/-! ### Exact calls -/

/-- The call panics, returns an error and leaves the table as it was, or retypes exactly the
requested pages at an address that was asked for. -/
def AllocatesExactly (s : State) (requested : Set ℕ) (numPages : ℕ)
    (run : Outcome Bug (ℕ × State)) : Prop :=
  run.Ends (fun _ => True) fun p =>
    (errorPhysAddr p.1 ∧ p.2.table = s.table) ∨
      (p.1 ∈ requested ∧ Retyped s p.1 (numPages * pageSize) memoryFree memoryAllocated p.2)

/-- The call panics, or retypes exactly the requested pages. -/
def FreesExactly (s : State) (address numPages : ℕ) (run : Outcome Bug State) : Prop :=
  run.Ends (fun _ => True)
    (Retyped s address (numPages * pageSize) memoryAllocated memoryFree)

section Exact

variable {s t : State} {n address : ℕ} {requested : Set ℕ}

/-- The parts of the range that is requested for some pages. -/
theorem pagesRange_parts (address n : ℕ) {type : ℕ} (htype : type < 2) :
    (requestedRange address (mul64 n pageSize) type).mrSize = mul64 n pageSize ∧
      (requestedRange address (mul64 n pageSize) type).mrType = type ∧
      (requestedRange address (mul64 n pageSize) type).mrEnd =
        add64 address (mul64 n pageSize) := by
  obtain ⟨hsize, htype⟩ :=
    requestedRange_parts address (mul64_pageSize_mod n) (mul64_lt n pageSize) htype
  refine ⟨hsize, htype, ?_⟩
  rw [MemoryRange.mrEnd, hsize]
  rfl

theorem allocatesExactly_halt (bug : Bug) : AllocatesExactly s requested n (.halt bug) := trivial

theorem allocatesExactly_enomem :
    AllocatesExactly s requested n (.done (encodeErrorPhysAddr enomem, s)) :=
  Or.inl ⟨(by decide : errorPhysAddr enomem), rfl⟩

/-- A call that has changed the type of an address is exact only by retyping the request. -/
theorem AllocatesExactly.retyped {ret : ℕ} (h : AllocatesExactly s requested n (.done (ret, t)))
    {x : ℕ} (hbefore : typeAt s.table x = some memoryFree)
    (hafter : typeAt t.table x = some memoryAllocated) :
    ret ∈ requested ∧ Retyped s ret (n * pageSize) memoryFree memoryAllocated t := by
  rcases h with ⟨_, hsame⟩ | h
  · rw [show t.table = s.table from hsame, hbefore] at hafter
    exact absurd (Option.some.inj hafter) (by decide)
  · exact h

/-- With two free slots an `allocate_out_of` that passes its checks completes, whatever the new
range is. -/
theorem allocateOutOf_completes {l r : List MemoryRange} {cur new : MemoryRange}
    (h : s.table = l ++ cur :: r)
    (hslots : s.gEntryCount + worstCaseGrowthPerAllocation ≤ s.gCapacity)
    (hin : ¬ (cur.physicalAddress > new.physicalAddress ∨ cur.mrEnd < new.mrEnd))
    (htype : cur.mrType ≠ new.mrType) :
    ∃ m t, Carved cur new l r m ∧ allocateOutOf s l.length new = .done t ∧ t.table = m := by
  obtain ⟨m, hm, hperforms⟩ := allocateOutOf_eq h hin htype
  have hlen := hm.length_le.1
  have hcount := State.gEntryCount_of_table h
  simp only [List.length_append, List.length_cons] at hcount
  obtain ⟨t, ht, htable, _⟩ := hperforms.of_le (by omega)
  exact ⟨m, t, hm, ht, htable⟩

/-- A request that passes the size check is not empty. -/
theorem request_pos (h : n < mul64 n pageSize) : 0 < n * pageSize := by
  by_contra hzero
  rw [mul64, Nat.eq_zero_of_not_pos hzero] at h
  exact Nat.not_lt_zero _ h

/-! ### `boot_alloc` -/

/-- The bytes of the request do not wrap, or nothing is carved. -/
theorem bootAllocNogrow_exact_iff (hwf : WellFormedTable s.table) (hslots : EnoughSlots s) :
    AllocatesExactly s Set.univ n (bootAllocNogrow s n) ↔
      (n < mul64 n pageSize → (∃ r ∈ s.table, Offers (mul64 n pageSize) r) →
        n * pageSize < 2 ^ 64) := by
  rcases bootAllocNogrow_cases hwf n with ⟨hle, heq⟩ | ⟨_, hno, heq⟩ | ⟨hn, l, cur, r, h, hcur, _, heq⟩
  · rw [heq]
    refine iff_of_true (allocatesExactly_halt _) ?_
    intro hn
    omega
  · rw [heq]
    refine iff_of_true allocatesExactly_enomem ?_
    intro _ hsome
    obtain ⟨r, hr, hoffers⟩ := hsome
    exact absurd hoffers (hno r hr)
  · have hmod := mul64_pageSize_mod n
    have hgood := hwf.good cur (by rw [h]; simp)
    have hsize := hcur.2
    obtain ⟨hin, hnew, _, htype⟩ := topRange_spec hgood hcur hmod (by omega)
    obtain ⟨t, ht, hedit⟩ := allocateOutOf_slots h hwf hin (hcur.type_ne htype) hnew hslots.slots
    have hretyped := hedit.allocates hmod (mul64_lt n pageSize)
    rw [heq, ht, Outcome.done_bind]
    constructor
    · intro hexact _ _
      obtain ⟨hbefore, hafter⟩ := hretyped.inside _ le_rfl (by omega)
      have := ((hexact.retyped hbefore hafter).2.bounds hwf
        (request_pos hn) (by decide)).2
      omega
    · intro hword
      have hbytes := hword hn ⟨cur, by rw [h]; simp, hcur⟩
      rw [mul64_of_lt hbytes] at hretyped ⊢
      exact Or.inr ⟨Set.mem_univ _, hretyped⟩

/-! ### `boot_alloc_at` -/

/-- The address is aligned and the bytes do not wrap, or nothing is carved. -/
theorem allocateWithin_exact_iff (hwf : WellFormedTable s.table) (hslots : EnoughSlots s)
    (hword : address < 2 ^ 64) :
    AllocatesExactly s {address} n
        (allocateWithin s n address (add64 address (mul64 n pageSize))) ↔
      (n < mul64 n pageSize → address + mul64 n pageSize < 2 ^ 64 →
        FreeRegion address (mul64 n pageSize) s.table →
        address % pageSize = 0 ∧ n * pageSize < 2 ^ 64) := by
  by_cases hlimits : ValidLimits n address (add64 address (mul64 n pageSize))
  · have hsize := hlimits.size
    have hupper : add64 address (mul64 n pageSize) = address + mul64 n pageSize := by
      have hgap := hlimits.gap
      have hbytes := mul64_lt n pageSize
      unfold add64 at hgap ⊢
      omega
    rcases allocateWithin_cases hwf hlimits with ⟨hno, heq⟩ | ⟨l, cur, r, h, hcur, _, heq⟩
    · rw [heq]
      refine iff_of_true allocatesExactly_enomem ?_
      intro _ _ hfree
      obtain ⟨c, hc, htype, hlo, hhi⟩ := hfree
      exact absurd ⟨htype, by rw [hupper]; omega⟩ (hno c hc)
    · -- the limits leave one address
      have hfits := hcur.2
      rw [hupper] at hfits
      have haddr : max address cur.physicalAddress = address := by omega
      have hgood := hwf.good cur (by rw [h]; simp)
      have hbound := hgood.1.bounded
      have hin := hcur.inside
      obtain ⟨_, htype, hend⟩ :=
        pagesRange_parts address n (by decide : memoryAllocated < 2)
      rw [haddr] at hin heq
      have hchecks : ¬ (cur.physicalAddress > address ∨ cur.mrEnd <
          (requestedRange address (mul64 n pageSize) memoryAllocated).mrEnd) := by
        rw [hend, hupper, hgood.1.mrEnd_eq]
        omega
      have hother : cur.mrType ≠
          (requestedRange address (mul64 n pageSize) memoryAllocated).mrType := by
        rw [hcur.1, htype]
        decide
      obtain ⟨m, t, _, ht, _⟩ := allocateOutOf_completes h hslots.slots hchecks hother
      rw [heq, ht, Outcome.done_bind]
      obtain ⟨hbefore, hafter⟩ :=
        carved_region hwf h hcur.1 (by omega) (by omega) (by omega) ht address le_rfl (by omega)
      constructor
      · intro hexact _ _ _
        obtain ⟨haligned, hend⟩ := (hexact.retyped hbefore hafter).2.bounds hwf
          (request_pos hsize) (by decide)
        exact ⟨haligned, by omega⟩
      · intro hargs
        have hfree : FreeRegion address (mul64 n pageSize) s.table :=
          ⟨cur, by rw [h]; simp, hcur.1, by omega, by omega⟩
        obtain ⟨haligned, hbytes⟩ := hargs hsize (by omega) hfree
        have hnew := hcur.good hlimits hgood haligned
        rw [haddr] at hnew
        have hedit := allocateOutOf_done h hwf hin hother hnew ht
        have hretyped := hedit.allocates (mul64_pageSize_mod n) (mul64_lt n pageSize)
        rw [mul64_of_lt hbytes] at hretyped
        exact Or.inr ⟨rfl, hretyped⟩
  · obtain ⟨bug, hbug⟩ := allocateWithin_invalid (s := s) hword (add64_lt _ _) hlimits
    rw [hbug]
    refine iff_of_true (allocatesExactly_halt _) ?_
    intro hn hbytes _
    refine absurd ⟨hn, ?_, add64_lt _ _⟩ hlimits
    rw [add64_of_lt hbytes]

/-! ### `boot_free` -/

section Empty

variable {l r m : List MemoryRange} {cur new : MemoryRange}

/-- **Carving an empty range** leaves a well-formed table only by merging it with the entry
before. -/
theorem Carved.of_empty (hc : Carved cur new l r m) (hwf : WellFormedTable m)
    (hsize : new.mrSize = 0) (hword : new.physicalAddress < 2 ^ 64)
    (hafter : ∀ a ∈ r, new.physicalAddress < a.physicalAddress) :
    ∃ b ∈ l, canMergeRanges b new := by
  have hend : new.mrEnd = new.physicalAddress := by
    rw [MemoryRange.mrEnd, hsize]
    exact add64_of_lt hword
  have hnotMem : new ∉ m := by
    intro hnew
    have := (hwf.valid new hnew).nonempty
    omega
  have hnotAfter : ∀ a ∈ r, ¬ canMergeRanges new a := by
    intro a ha hmerge
    have := hafter a ha
    have hstart := hmerge.2
    omega
  cases hc with
  | case1 _ _ => exact absurd (by simp) hnotMem
  | @case2a k b _ _ _ hmerge => exact ⟨b, by simp, hmerge⟩
  | case2b _ _ _ => exact absurd (by simp) hnotMem
  | @case3a _ a _ _ _ hmerge => exact absurd hmerge (hnotAfter a (by simp))
  | case3b _ _ _ => exact absurd (by simp) hnotMem
  | case4a _ _ _ _ =>
    have hpos := (hwf.valid { cur with sizeAndType := new.sizeAndType } (by simp)).nonempty
    have hzero : ({ cur with sizeAndType := new.sizeAndType } : MemoryRange).mrSize = 0 := hsize
    omega
  | @case4b k b _ _ _ _ hmerge _ => exact ⟨b, by simp, hmerge⟩
  | @case4c k b _ _ _ hmerge _ => exact ⟨b, by simp, hmerge⟩
  | @case4d _ a _ _ _ _ hmerge => exact absurd hmerge (hnotAfter a (by simp))

theorem empty_mrSize (address : ℕ) : (MemoryRange.mk address 0).mrSize = 0 := Nat.zero_and _

/-- An empty FREE range at the start of an entry leaves nothing below and the entry above. -/
theorem pieces_of_empty (hcur : ValidRange cur) :
    (mrLhsPiece cur ⟨cur.physicalAddress, 0⟩).mrSize = 0 ∧
      mrRhsPiece cur ⟨cur.physicalAddress, 0⟩ = cur := by
  have hbound := hcur.bounded
  have htype := cur.mrType_lt
  have hend : (MemoryRange.mk cur.physicalAddress 0).mrEnd = cur.physicalAddress := by
    rw [MemoryRange.mrEnd, empty_mrSize]
    have hword : cur.physicalAddress + 0 < 2 ^ 64 := by omega
    exact add64_of_lt hword
  constructor
  · exact mrLhsPiece_none rfl (by omega)
  · rw [mrRhsPiece, hend, hcur.mrEnd_eq, sub64_of_le (by omega) hbound, Nat.add_sub_cancel_left,
      mrEncode_eq cur.mrSize_even htype, ← MemoryRange.sizeAndType_eq hcur.word]

/-- An entry below that ends where `cur` starts is the last one below. -/
theorem eq_last_of_ends {k : List MemoryRange} {b z : MemoryRange}
    (hwf : WellFormedTable (k ++ [z] ++ cur :: r)) (hb : b ∈ k ++ [z])
    (hend : b.physicalAddress + b.mrSize = cur.physicalAddress) : b = z := by
  rcases List.mem_append.mp hb with hbk | hbz
  · have hz := (hwf.valid z (by simp)).nonempty
    have hbelow : z.physicalAddress + z.mrSize ≤ cur.physicalAddress := hwf.before (by simp)
    rw [List.append_assoc, List.singleton_append] at hwf
    have := hwf.before hbk
    omega
  · exact List.mem_singleton.mp hbz

/-- **An empty range right above a FREE entry** changes nothing. -/
theorem Carved.empty_unchanged (hc : Carved cur ⟨cur.physicalAddress, 0⟩ l r m)
    (hwf : WellFormedTable (l ++ cur :: r))
    (hbefore : ∃ b ∈ l, canMergeRanges b ⟨cur.physicalAddress, 0⟩) : m = l ++ cur :: r := by
  have hcur := hwf.valid cur (by simp)
  have hpos := hcur.nonempty
  obtain ⟨hlow, hhigh⟩ := pieces_of_empty hcur
  have hright : (mrRhsPiece cur ⟨cur.physicalAddress, 0⟩).mrSize ≠ 0 := by
    rw [hhigh]
    omega
  cases hc with
  | case1 hne _ => exact absurd hlow hne
  | @case2a k b _ _ _ hmerge =>
    have hb := hwf.valid b (by simp)
    have hbelow : b.physicalAddress + b.mrSize ≤ cur.physicalAddress := hwf.before (by simp)
    have hsame : mergeRanges b ⟨cur.physicalAddress, 0⟩ = b := by
      have hstart : ¬ b.physicalAddress > cur.physicalAddress := by omega
      have hword : add64 b.sizeAndType 0 = b.sizeAndType := add64_of_lt hb.word
      rw [mergeRanges, if_neg hstart, empty_mrSize, hword]
    rw [hsame, hhigh, List.append_assoc, List.singleton_append]
  | case2b _ _ hno =>
    obtain ⟨b, hb, hmerge⟩ := hbefore
    obtain ⟨k, z, rfl⟩ := (List.eq_nil_or_concat l).resolve_left (List.ne_nil_of_mem hb)
    rw [List.concat_eq_append] at hb hno hwf
    have hend := hmerge.2
    have hmem : b ∈ k ++ [z] ++ cur :: r := List.mem_append_left _ hb
    rw [(hwf.valid b hmem).mrEnd_eq] at hend
    rw [eq_last_of_ends hwf hb hend] at hmerge
    exact absurd hmerge (hno z (by simp))
  | case3a _ hzero _ => exact absurd hzero hright
  | case3b _ hzero _ => exact absurd hzero hright
  | case4a _ hzero _ _ => exact absurd hzero hright
  | case4b _ hzero _ _ => exact absurd hzero hright
  | case4c _ hzero _ _ => exact absurd hzero hright
  | case4d _ hzero _ _ => exact absurd hzero hright

end Empty

/-- The entry that a request of `boot_free` is carved out of, as its checks compare the ends. -/
def Frees (s : State) (address bytes : ℕ) : Prop :=
  ∃ cur ∈ s.table, cur.Contains address ∧ cur.mrType = memoryAllocated ∧
    add64 address bytes ≤ cur.physicalAddress + cur.mrSize

/-- The arguments that `boot_free` serves exactly. -/
def ExactFree (s : State) (address numPages : ℕ) : Prop :=
  (0 < numPages ∧ address % pageSize = 0 ∧ address + numPages * pageSize < 2 ^ 64) ∨
    (numPages = 0 ∧ ∃ b ∈ s.table, b.mrType = memoryFree ∧
      b.physicalAddress + b.mrSize = address)

/-- An entry that ends inside another one ends at its start. -/
theorem start_of_ends {l r : List MemoryRange} {cur b : MemoryRange}
    (hwf : WellFormedTable (l ++ cur :: r)) (hc : cur.Contains address) (hb : b ∈ l ++ cur :: r)
    (hend : b.physicalAddress + b.mrSize = address) : address = cur.physicalAddress ∧ b ∈ l := by
  have hpos := (hwf.valid b hb).nonempty
  have hlo := hc.1
  have hhi := hc.2
  rcases List.mem_append.mp hb with hb | hb
  · have := hwf.before hb
    exact ⟨by omega, hb⟩
  · rcases List.mem_cons.mp hb with rfl | hb
    · omega
    · have := hwf.behind hb
      omega

/-- Whole pages of an ALLOCATED entry are freed. -/
theorem freePages_retyped {l r : List MemoryRange} {cur : MemoryRange}
    (hwf : WellFormedTable s.table) (h : s.table = l ++ cur :: r) (hcur : cur.mrType = memoryAllocated)
    (hlo : cur.physicalAddress ≤ address) (haligned : address % pageSize = 0) (hn : 0 < n)
    (hword : address + n * pageSize < 2 ^ 64)
    (hend : address + n * pageSize ≤ cur.physicalAddress + cur.mrSize)
    (ht : allocateOutOf s l.length (requestedRange address (n * pageSize) memoryFree) = .done t) :
    Retyped s address (n * pageSize) memoryAllocated memoryFree t := by
  have hpos : 0 < n * pageSize := Nat.mul_pos hn (by decide)
  have hnew : GoodRange (requestedRange address (n * pageSize) memoryFree) :=
    requestedRange_good (Nat.mul_mod_left _ _) hpos hword haligned (by decide)
  obtain ⟨hsize, htype, _⟩ := pagesRange_parts address n (by decide : memoryFree < 2)
  rw [mul64_of_bounds hword] at hsize htype
  have hother : cur.mrType ≠ (requestedRange address (n * pageSize) memoryFree).mrType := by
    rw [hcur, htype]
    decide
  have hin : Inside (requestedRange address (n * pageSize) memoryFree) cur :=
    ⟨hlo, by rw [hsize]; exact hend⟩
  exact (allocateOutOf_done h hwf hin hother hnew ht).frees (Nat.mul_mod_left _ _) (by omega)

/-- A range that does not pass the checks is refused. -/
theorem allocateOutOf_refuses {l r : List MemoryRange} {cur new : MemoryRange}
    (h : s.table = l ++ cur :: r)
    (hno : (cur.physicalAddress > new.physicalAddress ∨ cur.mrEnd < new.mrEnd) ∨
      cur.mrType = new.mrType) : ∃ bug, allocateOutOf s l.length new = .halt bug := by
  have hcur := State.entry_of_table h
  by_cases hin : cur.physicalAddress > new.physicalAddress ∨ cur.mrEnd < new.mrEnd
  · refine ⟨.outsideRange, ?_⟩
    simp only [allocateOutOf, hcur, bugOn_of hin, Outcome.halt_bind]
  · refine ⟨.sameType, ?_⟩
    simp only [allocateOutOf, hcur, bugOn_of_not hin, bugOn_of (hno.resolve_left hin),
      Outcome.done_bind, Outcome.halt_bind]

/-- A request that passes the checks is carved out of the ALLOCATED entry `cur`. -/
structure FreedOutOf (s : State) (address n : ℕ) (cur : MemoryRange) (l r : List MemoryRange)
    (t : State) : Prop where
  table : s.table = l ++ cur :: r
  contains : cur.Contains address
  allocated : cur.mrType = memoryAllocated
  ends : add64 address (mul64 n pageSize) ≤ cur.physicalAddress + cur.mrSize
  carved : Carved cur (requestedRange address (mul64 n pageSize) memoryFree) l r t.table
  run : allocateOutOf s l.length (requestedRange address (mul64 n pageSize) memoryFree) = .done t

theorem FreedOutOf.frees {l r : List MemoryRange} {cur : MemoryRange}
    (h : FreedOutOf s address n cur l r t) : Frees s address (mul64 n pageSize) :=
  ⟨cur, by rw [h.table]; simp, h.contains, h.allocated, h.ends⟩

/-- **What `boot_free` does** on any arguments, without growth: it carves the range out of the
ALLOCATED entry that passes its checks, or panics when there is none. -/
theorem bootFree_cases (hwf : WellFormedTable s.table) (hslots : EnoughSlots s) (fuel address n : ℕ) :
    (∃ cur l r t, FreedOutOf s address n cur l r t ∧ bootFree (fuel + 2) s address n = .done t) ∨
      (¬ Frees s address (mul64 n pageSize) ∧ ∃ bug, bootFree (fuel + 2) s address n = .halt bug) := by
  obtain ⟨_, htype, hnewEnd⟩ := pagesRange_parts address n (by decide : memoryFree < 2)
  rw [bootFree_of_noGrowth hslots.noGrowth]
  rcases exists_split address hwf with ⟨l, cur, r, h, hc⟩ | ⟨l, r, h, hl, hr⟩
  · have hvalid := hwf.valid cur (by rw [h]; simp)
    have hindex : ¬ ((l.length : ℤ) < 0) := by omega
    rw [findRange_of_contains hwf h hc, Outcome.done_bind, bugOn_bind_of_not hindex,
      Int.toNat_natCast]
    by_cases hcarved : cur.mrType = memoryAllocated ∧
        add64 address (mul64 n pageSize) ≤ cur.physicalAddress + cur.mrSize
    · obtain ⟨hallocated, hend⟩ := hcarved
      have hlo := hc.1
      have hother : cur.mrType ≠ (requestedRange address (mul64 n pageSize) memoryFree).mrType := by
        rw [hallocated, htype]
        decide
      have hchecks : ¬ (cur.physicalAddress > address ∨ cur.mrEnd <
          (requestedRange address (mul64 n pageSize) memoryFree).mrEnd) := by
        rw [hnewEnd, hvalid.mrEnd_eq]
        omega
      obtain ⟨m, t, hm, ht, rfl⟩ := allocateOutOf_completes h hslots.slots hchecks hother
      exact Or.inl ⟨cur, l, r, t, ⟨h, hc, hallocated, hend, hm, ht⟩, ht⟩
    · have hno : ¬ Frees s address (mul64 n pageSize) := by
        intro hfrees
        obtain ⟨c, hcmem, hcontains, hctype, hcend⟩ := hfrees
        rw [h] at hwf hcmem
        obtain rfl := hwf.eq_of_contains hc hcontains hcmem
        exact hcarved ⟨hctype, hcend⟩
      let new := requestedRange address (mul64 n pageSize) memoryFree
      have hchecks : (cur.physicalAddress > new.physicalAddress ∨ cur.mrEnd < new.mrEnd) ∨
          cur.mrType = new.mrType := by
        rw [htype, hnewEnd, hvalid.mrEnd_eq]
        by_cases hallocated : cur.mrType = memoryAllocated
        · have hlarge : ¬ add64 address (mul64 n pageSize) ≤ cur.physicalAddress + cur.mrSize :=
            fun hle => hcarved ⟨hallocated, hle⟩
          exact Or.inl (Or.inr (by omega))
        · exact Or.inr (eq_of_ne_memoryAllocated cur.mrType_lt hallocated)
      exact Or.inr ⟨hno, allocateOutOf_refuses h hchecks⟩
  · have hno : ¬ Frees s address (mul64 n pageSize) := by
      intro hfrees
      obtain ⟨c, hcmem, hcontains, _⟩ := hfrees
      have hlo := hcontains.1
      have hhi := hcontains.2
      rw [h] at hcmem
      rcases List.mem_append.mp hcmem with hcmem | hcmem
      · have := hl c hcmem
        omega
      · have := hr c hcmem
        omega
    have hfind := findRange_of_gap hwf h hl hr .no
    simp only [reduceCtorEq, false_and, if_false] at hfind
    rw [hfind, Outcome.done_bind, bugOn_of (by decide), Outcome.halt_bind]
    exact Or.inr ⟨hno, _, rfl⟩

/-- A FREE entry ends where no pages are freed, if the table stays well-formed. -/
theorem FreedOutOf.of_empty {l r : List MemoryRange} {cur : MemoryRange}
    (h : FreedOutOf s address n cur l r t) (hwf : WellFormedTable s.table)
    (hwf' : WellFormedTable t.table) (hbytes : mul64 n pageSize = 0) :
    ∃ b ∈ s.table, b.mrType = memoryFree ∧ b.physicalAddress + b.mrSize = address := by
  obtain ⟨hsize, htype, _⟩ := pagesRange_parts address n (by decide : memoryFree < 2)
  have hbound := (hwf.valid cur (by rw [h.table]; simp)).bounded
  have hhi := h.contains.2
  have hafter : ∀ a ∈ r, address < a.physicalAddress := by
    intro a ha
    have hsorted := hwf
    rw [h.table] at hsorted
    have := hsorted.behind ha
    omega
  have hword : address < 2 ^ 64 := by omega
  obtain ⟨b, hb, hbtype, hbend⟩ := h.carved.of_empty hwf' (hsize.trans hbytes) hword hafter
  have hmem : b ∈ s.table := by
    rw [h.table]
    exact List.mem_append_left _ hb
  rw [(hwf.valid b hmem).mrEnd_eq] at hbend
  exact ⟨b, hmem, hbtype.trans htype, hbend⟩

/-- No pages are freed where a FREE entry ends. -/
theorem FreedOutOf.unchanged {l r : List MemoryRange} {cur b : MemoryRange}
    (h : FreedOutOf s address n cur l r t) (hwf : WellFormedTable s.table)
    (hbytes : mul64 n pageSize = 0) (hb : b ∈ s.table) (hbtype : b.mrType = memoryFree)
    (hbend : b.physicalAddress + b.mrSize = address) : t.table = s.table := by
  -- it ends where `cur` starts
  obtain ⟨rfl, hbl⟩ := start_of_ends (h.table ▸ hwf) h.contains (h.table ▸ hb) hbend
  have htype := (pagesRange_parts cur.physicalAddress n (by decide : memoryFree < 2)).2.1
  have hm := h.carved
  rw [hbytes] at htype hm
  have hmerge : canMergeRanges b ⟨cur.physicalAddress, 0⟩ := by
    refine ⟨hbtype.trans htype.symm, ?_⟩
    rw [(hwf.valid b hb).mrEnd_eq]
    exact hbend
  rw [h.table]
  exact hm.empty_unchanged (h.table ▸ hwf) ⟨b, hbl, hmerge⟩

/-- A request that is carved out is served exactly on the arguments that `ExactFree` allows. -/
theorem FreedOutOf.exact_iff {l r : List MemoryRange} {cur : MemoryRange}
    (h : FreedOutOf s address n cur l r t) (hwf : WellFormedTable s.table) :
    FreesExactly s address n (.done t) ↔ ExactFree s address n := by
  constructor
  · intro hexact
    have hretyped : Retyped s address (n * pageSize) memoryAllocated memoryFree t := hexact
    rcases Nat.eq_zero_or_pos n with rfl | hn
    · -- nothing is freed, so the table is well-formed only if the empty range was merged
      exact Or.inr ⟨rfl, h.of_empty hwf hretyped.wellFormed rfl⟩
    · obtain ⟨haligned, hword⟩ := hretyped.bounds hwf (Nat.mul_pos hn (by decide)) (by decide)
      exact Or.inl ⟨hn, haligned, hword⟩
  · intro hargs
    rcases hargs with ⟨hn, haligned, hword⟩ | ⟨rfl, b, hb, hbtype, hbend⟩
    · have hbytes := mul64_of_bounds hword
      have hend := h.ends
      have hrun := h.run
      rw [hbytes] at hend hrun
      rw [add64_of_lt hword] at hend
      exact freePages_retyped hwf h.table h.allocated h.contains.1 haligned hn hword hend hrun
    · have hretyped : Retyped s address 0 memoryAllocated memoryFree t :=
        Retyped.nothing hwf (h.unchanged hwf rfl hb hbtype hbend)
      rwa [← Nat.zero_mul pageSize] at hretyped

/-- The request is carved out of no ALLOCATED entry, or `ExactFree` allows it. -/
theorem bootFree_exact_iff (hwf : WellFormedTable s.table) (hslots : EnoughSlots s) (fuel : ℕ) :
    FreesExactly s address n (bootFree (fuel + 2) s address n) ↔
      (Frees s address (mul64 n pageSize) → ExactFree s address n) := by
  rcases bootFree_cases hwf hslots fuel address n with ⟨cur, l, r, t, hfreed, hrun⟩ | ⟨hno, bug, hrun⟩
  · rw [hrun, hfreed.exact_iff hwf]
    exact ⟨fun hargs _ => hargs, fun hargs => hargs hfreed.frees⟩
  · rw [hrun]
    exact iff_of_true trivial fun hfrees => absurd hfrees hno

/-! ### The three calls -/

/-- **Which arguments are served exactly.**  Without growth, on any page count and any address:
`boot_alloc` unless the bytes wrap to a size that passes its check and is on offer;
`boot_alloc_at` unless a FREE region is carved for a size that wrapped or at an unaligned address;
`boot_free` unless an ALLOCATED entry is carved for such a request, or for no pages anywhere but
right above a FREE entry. -/
theorem arguments_exact_iff (hwf : WellFormedTable s.table) (hslots : EnoughSlots s)
    (hword : address < 2 ^ 64) (fuel : ℕ) :
    (AllocatesExactly s Set.univ n (bootAlloc (fuel + 1) s n) ↔
      (n < mul64 n pageSize → (∃ r ∈ s.table, Offers (mul64 n pageSize) r) →
        n * pageSize < 2 ^ 64)) ∧
    (AllocatesExactly s {address} n (bootAllocAt (fuel + 1) s address n) ↔
      (n < mul64 n pageSize → address + mul64 n pageSize < 2 ^ 64 →
        FreeRegion address (mul64 n pageSize) s.table →
        address % pageSize = 0 ∧ n * pageSize < 2 ^ 64)) ∧
    (FreesExactly s address n (bootFree (fuel + 2) s address n) ↔
      (Frees s address (mul64 n pageSize) → ExactFree s address n)) := by
  have hgrow := maybeGrowBuffer_of_noGrowth hslots.noGrowth fuel
  have halloc : bootAlloc (fuel + 1) s n = bootAllocNogrow s n := by
    rw [bootAlloc, hgrow]
    rfl
  have hallocAt : bootAllocAt (fuel + 1) s address n =
      allocateWithin s n address (add64 address (mul64 n pageSize)) := by
    rw [bootAllocAt, hgrow, shiftLeft_pageShift]
    rfl
  rw [halloc, hallocAt]
  exact ⟨bootAllocNogrow_exact_iff hwf hslots, allocateWithin_exact_iff hwf hslots hword,
    bootFree_exact_iff hwf hslots fuel⟩

/-- Three ALLOCATED pages, and the whole static table. -/
def threeAllocated : State :=
  ⟨fun _ _ => ⟨0x1000, 0x3001⟩, .initial, bootAllocInitialCapacity, 1⟩

theorem wellFormed_threeAllocated : WellFormedTable threeAllocated.table := by
  have htable : threeAllocated.table = [⟨0x1000, 0x3001⟩] := by decide
  rw [htable]
  refine ⟨?_, ?_, by simp⟩ <;> intro r hr <;> obtain rfl := List.mem_singleton.mp hr
  · exact ⟨by decide, by decide, by decide⟩
  · exact ⟨by decide, by decide⟩

/-- Freeing no pages inside the entry cuts it in two around an empty entry. -/
theorem bootFree_not_exact_threeAllocated :
    WellFormedTable threeAllocated.table ∧ EnoughSlots threeAllocated ∧
      (bootFree 2 threeAllocated 0x2000 0).value?.map State.table =
        some [⟨0x1000, 0x1001⟩, ⟨0x2000, 0⟩, ⟨0x2000, 0x2001⟩] ∧
      ¬ FreesExactly threeAllocated 0x2000 0 (bootFree 2 threeAllocated 0x2000 0) := by
  have hrun : (bootFree 2 threeAllocated 0x2000 0).value?.map State.table =
      some [⟨0x1000, 0x1001⟩, ⟨0x2000, 0⟩, ⟨0x2000, 0x2001⟩] := by decide
  refine ⟨wellFormed_threeAllocated, ⟨by decide, by decide⟩, hrun, ?_⟩
  intro hexact
  obtain ⟨t, hvalue, htable⟩ := Option.map_eq_some_iff.mp hrun
  have hretyped := hexact.of_done (Outcome.value?_eq_some.mp hvalue)
  have hpos := (hretyped.wellFormed.valid ⟨0x2000, 0⟩ (by rw [htable]; simp)).nonempty
  exact absurd hpos (by decide)

/-- The middle one of the three pages is freed exactly. -/
theorem arguments_exact_iff_threeAllocated :
    FreesExactly threeAllocated 0x2000 1 (bootFree 2 threeAllocated 0x2000 1) :=
  (arguments_exact_iff wellFormed_threeAllocated ⟨by decide, by decide⟩ (by decide) 0).2.2.mpr
    fun _ => Or.inl ⟨by decide, by decide, by decide⟩

end Exact

end UltraKernel.BootAlloc
