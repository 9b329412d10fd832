import UltraKernel.BootAlloc.Search

/-!
# Allocating and freeing on a well-formed table

Each operation either leaves the state alone or carves one range out of one entry of the other
type.  `Edited s new t` is the second outcome: `t` has the table of `s` with the interval of `new`
given the type of `new`, and nothing else has changed.

* `bootAllocNogrow_of_offers`, `bootAllocNogrow_of_forall_not`: where `boot_alloc` allocates;
* `allocateWithin_of_fits`, `allocateWithin_of_forall_not`: where `boot_alloc_at` does;
* `bootAllocNogrow_done`, `allocateWithin_done`: what a completed call has done.
-/

namespace UltraKernel.BootAlloc

open Word

/-! ### The range a request asks for -/

/-- `allocated_mr` and `freed_range`: the entry a request carves. -/
def requestedRange (address bytes type : ℕ) : MemoryRange := ⟨address, mrEncode bytes type⟩

theorem mul64_pageSize_mod (n : ℕ) : mul64 n pageSize % pageSize = 0 := by
  simp only [mul64, pageSize]
  omega

theorem mul64_pageSize_lt (n : ℕ) : mul64 n pageSize + pageSize ≤ 2 ^ 64 := by
  have := mul64_pageSize_mod n
  have := mul64_lt n pageSize
  simp only [pageSize] at *
  omega

section RequestedRange

variable {address bytes type : ℕ}

theorem requestedRange_parts (address : ℕ) (hbytes : bytes % pageSize = 0) (hword : bytes < 2 ^ 64)
    (htype : type < 2) :
    (requestedRange address bytes type).mrSize = bytes ∧
      (requestedRange address bytes type).mrType = type := by
  have heven : bytes % 2 = 0 := by
    simp only [pageSize] at hbytes
    omega
  exact mrSize_mrType_of_eq (mrEncode_eq heven htype) heven htype hword

theorem requestedRange_good (hbytes : bytes % pageSize = 0) (hpos : 0 < bytes)
    (hbound : address + bytes < 2 ^ 64) (haligned : address % pageSize = 0) (htype : type < 2) :
    GoodRange (requestedRange address bytes type) := by
  have heven : bytes % 2 = 0 := by
    simp only [pageSize] at hbytes
    omega
  obtain ⟨hsize, _⟩ := requestedRange_parts address hbytes (by omega) htype
  have hword : (requestedRange address bytes type).sizeAndType < 2 ^ 64 := by
    have : (requestedRange address bytes type).sizeAndType = bytes + type := mrEncode_eq heven htype
    omega
  exact ⟨⟨hword, by omega, by rw [hsize]; exact hbound⟩, ⟨haligned, by rw [hsize]; exact hbytes⟩⟩

end RequestedRange

/-! ### Carving with free slots -/

/-- **A carved range**: `t` is `s` with the interval of `new` moved from the other type to the
type of `new`. -/
structure Edited (s : State) (new : MemoryRange) (t : State) : Prop where
  good : GoodRange new
  wasOther : ∀ x, new.Contains x → ∃ type, typeAt s.table x = some type ∧ type ≠ new.mrType
  updates : Updates s.table new t.table
  frame : Frame s t
  count_le : t.gEntryCount ≤ s.gEntryCount + worstCaseGrowthPerAllocation

theorem Performs.of_run {s t : State} {run : Outcome Bug State} {m : List MemoryRange}
    (h : Performs s run m) (hrun : run = .done t) : t.table = m ∧ Frame s t := by
  unfold Performs at h
  split_ifs at h
  · obtain ⟨u, hu, hm, hframe⟩ := h
    obtain rfl : u = t := by simpa using hu.symm.trans hrun
    exact ⟨hm, hframe⟩
  · simp [hrun] at h

theorem Performs.of_le {s : State} {run : Outcome Bug State} {m : List MemoryRange}
    (h : Performs s run m) (hle : m.length ≤ s.gCapacity) :
    ∃ t, run = .done t ∧ t.table = m ∧ Frame s t := by
  unfold Performs at h
  rwa [if_pos (hle.trans (le_max_right _ _))] at h

section AllocateOutOf

variable {s : State} {l r : List MemoryRange} {cur new : MemoryRange}

/-- `allocate_out_of` on a well-formed table. -/
theorem allocateOutOf_updates (h : s.table = l ++ cur :: r) (hwf : WellFormedTable s.table)
    (hin : Inside new cur) (htype : cur.mrType ≠ new.mrType) (hnew : GoodRange new) :
    ∃ m, Carved cur new l r m ∧ Updates s.table new m ∧
      Performs s (allocateOutOf s l.length new) m := by
  have hcur := hwf.valid cur (by rw [h]; simp)
  obtain ⟨m, hm, hrun⟩ := allocateOutOf_eq h (hin.valid_bounds hcur hnew.1) htype
  refine ⟨m, hm, ?_, hrun⟩
  rw [h] at hwf ⊢
  exact hm.updates hwf hin htype hnew

/-- What a completed `allocate_out_of` has done. -/
theorem allocateOutOf_done (h : s.table = l ++ cur :: r) (hwf : WellFormedTable s.table)
    (hin : Inside new cur) (htype : cur.mrType ≠ new.mrType) (hnew : GoodRange new) {t : State}
    (hrun : allocateOutOf s l.length new = .done t) : Edited s new t := by
  obtain ⟨m, hm, hupdates, hperforms⟩ := allocateOutOf_updates h hwf hin htype hnew
  obtain ⟨rfl, hframe⟩ := hperforms.of_run hrun
  refine ⟨hnew, fun x hx => ⟨cur.mrType, ?_, htype⟩, hupdates, hframe, ?_⟩
  · refine hwf.typeAt_of_mem (by rw [h]; simp) ?_
    have := hin.lo_le
    have := hin.le_hi
    obtain ⟨hlo, hhi⟩ := hx
    exact ⟨by omega, by omega⟩
  · have := hm.length_le.1
    have hcount := State.gEntryCount_of_table h
    simp at this hcount
    omega

/-- With two free slots `allocate_out_of` completes. -/
theorem allocateOutOf_slots (h : s.table = l ++ cur :: r) (hwf : WellFormedTable s.table)
    (hin : Inside new cur) (htype : cur.mrType ≠ new.mrType) (hnew : GoodRange new)
    (hslots : s.gEntryCount + worstCaseGrowthPerAllocation ≤ s.gCapacity) :
    ∃ t, allocateOutOf s l.length new = .done t ∧ Edited s new t := by
  obtain ⟨m, hm, _, hperforms⟩ := allocateOutOf_updates h hwf hin htype hnew
  have hlen := hm.length_le.1
  have hcount := State.gEntryCount_of_table h
  simp at hcount
  obtain ⟨t, ht, _, _⟩ := hperforms.of_le (by omega)
  exact ⟨t, ht, allocateOutOf_done h hwf hin htype hnew ht⟩

end AllocateOutOf

/-! ### `boot_alloc_nogrow` -/

section Nogrow

variable {s : State} {n : ℕ}

/-- The range `boot_alloc_nogrow` takes from the top of an entry. -/
def topRange (cur : MemoryRange) (bytes : ℕ) : MemoryRange :=
  requestedRange (cur.physicalAddress + cur.mrSize - bytes) bytes memoryAllocated

theorem Offers.type_ne {bytes : ℕ} {cur new : MemoryRange} (h : Offers bytes cur)
    (hnew : new.mrType = memoryAllocated) : cur.mrType ≠ new.mrType := by
  rw [h.1, hnew]
  decide

theorem topRange_spec {cur : MemoryRange} {bytes : ℕ} (hcur : GoodRange cur)
    (hoffers : Offers bytes cur) (hbytes : bytes % pageSize = 0) (hpos : 0 < bytes) :
    Inside (topRange cur bytes) cur ∧ GoodRange (topRange cur bytes) ∧
      (topRange cur bytes).mrSize = bytes ∧ (topRange cur bytes).mrType = memoryAllocated := by
  have hbound := hcur.1.bounded
  have hle := hoffers.2
  have h1 := hcur.2.address
  have h2 := hcur.2.size
  obtain ⟨hsize, htype⟩ := requestedRange_parts (cur.physicalAddress + cur.mrSize - bytes) hbytes
    (by omega) (by decide : memoryAllocated < 2)
  have hgood := requestedRange_good hbytes hpos
    (by omega : cur.physicalAddress + cur.mrSize - bytes + bytes < 2 ^ 64)
    (by simp only [pageSize] at *; omega) (by decide : memoryAllocated < 2)
  refine ⟨⟨?_, ?_⟩, hgood, hsize, htype⟩
  · simp only [topRange, requestedRange]
    omega
  · rw [topRange, hsize]
    simp only [requestedRange]
    omega

theorem bootAllocNogrow_invalid (hn : mul64 n pageSize ≤ n) :
    bootAllocNogrow s n = .halt .invalidSize := by
  simp only [bootAllocNogrow, allocateTopDown, bugOn_of hn, Outcome.halt_bind]

/-- **No entry is large enough**: an error, and the state as it was. -/
theorem bootAllocNogrow_of_forall_not (hwf : WellFormedTable s.table) (hn : n < mul64 n pageSize)
    (hno : ∀ x ∈ s.table, ¬ Offers (mul64 n pageSize) x) :
    bootAllocNogrow s n = .done (enomem, s) := by
  have hloop := topDownLoop_of_forall_not (s := s) (r := []) (by simp) hwf.valid hno
  rw [State.length_table, noLimit] at hloop
  have hsize : ¬ mul64 n pageSize ≤ n := by omega
  simp only [bootAllocNogrow, allocateTopDown, bugOn_of_not hsize, Outcome.done_bind, hloop]
  rfl

/-- **Some entry is large enough**: the top of the highest one is carved. -/
theorem bootAllocNogrow_of_offers {l r : List MemoryRange} {cur : MemoryRange}
    (hwf : WellFormedTable s.table) (hn : n < mul64 n pageSize) (h : s.table = l ++ cur :: r)
    (hcur : Offers (mul64 n pageSize) cur) (hno : ∀ x ∈ r, ¬ Offers (mul64 n pageSize) x) :
    bootAllocNogrow s n = allocateOutOf s l.length (topRange cur (mul64 n pageSize)) >>=
      fun t => .done (cur.physicalAddress + cur.mrSize - mul64 n pageSize, t) := by
  have hvalid : ∀ x ∈ cur :: r, ValidRange x := fun x hx =>
    hwf.valid x (by rw [h]; exact List.mem_append_right _ hx)
  have hloop := topDownLoop_of_offers (t := []) (by simpa using h) hvalid hcur hno
  have hcount : s.gEntryCount = l.length + 1 + r.length := by
    have := State.gEntryCount_of_table h
    simp at this
    omega
  have hbound := (hvalid cur (by simp)).bounded
  have hpos := (hvalid cur (by simp)).nonempty
  have hle := hcur.2
  have hsize : ¬ mul64 n pageSize ≤ n := by omega
  have hend : cur.physicalAddress + cur.mrSize ≠ 0 := by omega
  rw [noLimit] at hloop
  simp only [bootAllocNogrow, allocateTopDown, bugOn_of_not hsize, Outcome.done_bind, hcount, hloop,
    if_neg hend, sub64_of_le (by omega : mul64 n pageSize ≤ cur.physicalAddress + cur.mrSize)
    hbound]
  rfl

/-- The three ways `boot_alloc_nogrow` can go. -/
theorem bootAllocNogrow_cases (hwf : WellFormedTable s.table) (n : ℕ) :
    (mul64 n pageSize ≤ n ∧ bootAllocNogrow s n = .halt .invalidSize) ∨
    (n < mul64 n pageSize ∧ (∀ x ∈ s.table, ¬ Offers (mul64 n pageSize) x) ∧
      bootAllocNogrow s n = .done (enomem, s)) ∨
    (n < mul64 n pageSize ∧ ∃ l cur r, s.table = l ++ cur :: r ∧ Offers (mul64 n pageSize) cur ∧
      (∀ x ∈ r, ¬ Offers (mul64 n pageSize) x) ∧
      bootAllocNogrow s n = allocateOutOf s l.length (topRange cur (mul64 n pageSize)) >>=
        fun t => .done (cur.physicalAddress + cur.mrSize - mul64 n pageSize, t)) := by
  by_cases hn : n < mul64 n pageSize
  · rcases forall_not_or_exists_last (Offers (mul64 n pageSize)) s.table with
      hno | ⟨l, cur, r, h, hcur, hno⟩
    · exact Or.inr (Or.inl ⟨hn, hno, bootAllocNogrow_of_forall_not hwf hn hno⟩)
    · exact Or.inr (Or.inr ⟨hn, l, cur, r, h, hcur, hno,
        bootAllocNogrow_of_offers hwf hn h hcur hno⟩)
  · exact Or.inl ⟨by omega, bootAllocNogrow_invalid (by omega)⟩

/-- **A completed `boot_alloc_nogrow`** has found no entry and done nothing, or has carved the
block it returns. -/
theorem bootAllocNogrow_done (hwf : WellFormedTable s.table) {address : ℕ} {t : State}
    (hrun : bootAllocNogrow s n = .done (address, t)) :
    ((∀ x ∈ s.table, ¬ Offers (mul64 n pageSize) x) ∧ address = enomem ∧ t = s) ∨
      address % pageSize = 0 ∧
        Edited s (requestedRange address (mul64 n pageSize) memoryAllocated) t := by
  rcases bootAllocNogrow_cases hwf n with ⟨_, heq⟩ | ⟨_, hno, heq⟩ | ⟨hn, l, cur, r, h, hcur, _, heq⟩
  · rw [heq] at hrun
    cases hrun
  · rw [heq] at hrun
    simp only [Outcome.done.injEq, Prod.mk.injEq] at hrun
    exact Or.inl ⟨hno, hrun.1.symm, hrun.2.symm⟩
  · rw [heq] at hrun
    obtain ⟨u, hu, hret⟩ := Outcome.bind_eq_done.mp hrun
    simp only [Outcome.done.injEq, Prod.mk.injEq] at hret
    obtain ⟨rfl, rfl⟩ := hret
    have hgood := hwf.good cur (by rw [h]; simp)
    obtain ⟨hin, hnew, _, htype⟩ := topRange_spec hgood hcur (mul64_pageSize_mod n) (by omega)
    exact Or.inr ⟨hnew.2.address, allocateOutOf_done h hwf hin (hcur.type_ne htype) hnew hu⟩

/-- With two free slots a valid request completes. -/
theorem bootAllocNogrow_slots (hwf : WellFormedTable s.table) (hn : n < mul64 n pageSize)
    (hslots : s.gEntryCount + worstCaseGrowthPerAllocation ≤ s.gCapacity) :
    ∃ address t, bootAllocNogrow s n = .done (address, t) := by
  rcases bootAllocNogrow_cases hwf n with ⟨hle, _⟩ | ⟨_, _, heq⟩ | ⟨_, l, cur, r, h, hcur, _, heq⟩
  · omega
  · exact ⟨_, _, heq⟩
  · have hgood := hwf.good cur (by rw [h]; simp)
    obtain ⟨hin, hnew, _, htype⟩ := topRange_spec hgood hcur (mul64_pageSize_mod n) (by omega)
    obtain ⟨t, ht, _⟩ := allocateOutOf_slots h hwf hin (hcur.type_ne htype) hnew hslots
    exact ⟨_, t, by rw [heq, ht, Outcome.done_bind]⟩

end Nogrow

/-! ### `boot_alloc_at` -/

/-- The entries that end at or below a value, the others, and where `find_range` points. -/
theorem findRange_above {s : State} (hwf : WellFormedTable s.table) (value : ℕ) :
    ∃ l r, s.table = l ++ r ∧ (∀ x ∈ l, x.physicalAddress + x.mrSize ≤ value) ∧
      (∀ x ∈ r, value < x.physicalAddress + x.mrSize) ∧
      findRange s value .yes = .done (if r ≠ [] then (l.length : ℤ) else -1) := by
  rcases exists_split value hwf with ⟨l, cur, r, h, hc⟩ | ⟨l, r, h, hl, hr⟩
  · have hsplit := hwf
    rw [h] at hsplit
    refine ⟨l, cur :: r, h, fun x hx => ?_, List.forall_mem_cons.mpr ⟨hc.2, fun x hx => ?_⟩, ?_⟩
    · exact (hsplit.before hx).trans hc.1
    · have := hsplit.behind hx
      have := hc.2
      omega
    · simpa using findRange_of_contains hwf h hc .yes
  · refine ⟨l, r, h, hl, fun x hx => ?_, ?_⟩
    · have := hr x hx
      omega
    · simpa using findRange_of_gap hwf h hl hr .yes

section AllocateWithin

variable {s : State} {n lower upper : ℕ}

/-- The limits `allocate_within` accepts. -/
structure ValidLimits (n lower upper : ℕ) : Prop where
  size : n < mul64 n pageSize
  gap : lower + mul64 n pageSize ≤ upper
  word : upper < 2 ^ 64

theorem allocateWithin_invalid (hlower : lower < 2 ^ 64) (hupper : upper < 2 ^ 64)
    (h : ¬ ValidLimits n lower upper) : ∃ bug, allocateWithin s n lower upper = .halt bug := by
  have hbytes := mul64_lt n pageSize
  unfold allocateWithin
  by_cases hsize : mul64 n pageSize ≤ n
  · exact ⟨_, by simp only [bugOn_of hsize, Outcome.halt_bind]; rfl⟩
  by_cases hlimits : lower ≥ upper
  · exact ⟨_, by
      simp only [bugOn_of_not hsize, bugOn_of hlimits, Outcome.done_bind, Outcome.halt_bind]; rfl⟩
  by_cases hgap : add64 lower (mul64 n pageSize) > upper
  · exact ⟨_, by
      simp only [bugOn_of_not hsize, bugOn_of_not hlimits, bugOn_of hgap, Outcome.done_bind,
        Outcome.halt_bind]; rfl⟩
  by_cases hwrap : add64 lower (mul64 n pageSize) < lower
  · exact ⟨_, by
      simp only [bugOn_of_not hsize, bugOn_of_not hlimits, bugOn_of_not hgap, bugOn_of hwrap,
        Outcome.done_bind, Outcome.halt_bind]; rfl⟩
  · refine absurd ⟨by omega, ?_, hupper⟩ h
    unfold add64 at hgap hwrap
    omega

/-- `allocate_within` after its checks. -/
theorem allocateWithin_of_valid (h : ValidLimits n lower upper) :
    allocateWithin s n lower upper = do
      let mrIdx ← findRange s lower .yes
      if mrIdx < 0 then return (encodeErrorPhysAddr enomem, s)
      else
        match withinLoop s (mul64 n pageSize) lower upper (s.gEntryCount - mrIdx.toNat)
            mrIdx.toNat with
        | none => return (encodeErrorPhysAddr enomem, s)
        | some i =>
          let rangeBegin := max lower (s.entry i).physicalAddress
          let s ← allocateOutOf s i ⟨rangeBegin, mrEncode (mul64 n pageSize) memoryAllocated⟩
          return (rangeBegin, s) := by
  obtain ⟨hsize, hgap, hword⟩ := h
  have hadd : add64 lower (mul64 n pageSize) = lower + mul64 n pageSize := add64_of_lt (by omega)
  have h1 : ¬ mul64 n pageSize ≤ n := by omega
  have h2 : ¬ lower ≥ upper := by omega
  have h3 : ¬ add64 lower (mul64 n pageSize) > upper := by omega
  have h4 : ¬ add64 lower (mul64 n pageSize) < lower := by omega
  unfold allocateWithin
  exact (bugOn_bind_of_not h1 _).trans <| (bugOn_bind_of_not h2 _).trans <|
    (bugOn_bind_of_not h3 _).trans (bugOn_bind_of_not h4 _)

/-- **No entry fits**: an error, and the state as it was. -/
theorem allocateWithin_of_forall_not (hwf : WellFormedTable s.table)
    (hlimits : ValidLimits n lower upper)
    (hno : ∀ x ∈ s.table, ¬ Fits (mul64 n pageSize) lower upper x) :
    allocateWithin s n lower upper = .done (enomem, s) := by
  obtain ⟨hsize, hgap, hword⟩ := hlimits
  obtain ⟨l, r, h, _, hr, hfind⟩ := findRange_above hwf lower
  rw [allocateWithin_of_valid ⟨hsize, hgap, hword⟩, hfind, Outcome.done_bind]
  by_cases hnil : r = []
  · simp [hnil, encodeErrorPhysAddr]
  · have hcount : s.gEntryCount = l.length + r.length := by
      simpa using State.gEntryCount_of_table h
    have hremaining : s.gEntryCount - l.length = r.length := by omega
    have hloop := withinLoop_of_forall_not h hwf (by omega) hword hr (by omega)
      fun x hx => hno x (by rw [h]; simp [hx])
    have hnonneg : ¬ ((l.length : ℤ) < 0) := by omega
    simp only [ne_eq, hnil, not_false_eq_true, if_true, if_neg hnonneg, Int.toNat_natCast,
      hremaining, hloop]
    rfl

/-- **Some entry fits**: the start of the lowest one, above the limit, is carved. -/
theorem allocateWithin_of_fits {l r : List MemoryRange} {cur : MemoryRange}
    (hwf : WellFormedTable s.table) (hlimits : ValidLimits n lower upper)
    (h : s.table = l ++ cur :: r) (hcur : Fits (mul64 n pageSize) lower upper cur)
    (hno : ∀ x ∈ l, ¬ Fits (mul64 n pageSize) lower upper x) :
    allocateWithin s n lower upper =
      allocateOutOf s l.length (requestedRange (max lower cur.physicalAddress)
        (mul64 n pageSize) memoryAllocated) >>=
        fun t => .done (max lower cur.physicalAddress, t) := by
  obtain ⟨hsize, hgap, hword⟩ := hlimits
  obtain ⟨l', r', h', hl', hr', hfind⟩ := findRange_above hwf lower
  -- the entries below the limit do not fit, so `cur` is one of the others
  obtain ⟨m, rfl, rfl⟩ : ∃ m, l = l' ++ m ∧ r' = m ++ cur :: r := by
    rcases List.append_eq_append_iff.mp (h.symm.trans h') with ⟨m, hm, hm'⟩ | ⟨m, hm, hm'⟩
    · cases m with
      | nil => exact ⟨[], by simpa using hm.symm, by simpa using hm'.symm⟩
      | cons x m =>
        obtain ⟨rfl, _⟩ := List.cons.inj hm'
        have := hl' cur (by rw [hm]; simp)
        have := hcur.2
        omega
    · exact ⟨m, hm, hm'⟩
  have hcount : s.gEntryCount = l'.length + (m ++ cur :: r).length := by
    simpa using State.gEntryCount_of_table h'
  have hremaining : s.gEntryCount - l'.length = (m ++ cur :: r).length := by omega
  have hloop := withinLoop_of_fits h' hwf (by omega) hword hr' (by omega) hcur
    fun x hx => hno x (by simp [hx])
  have hnonneg : ¬ ((l'.length : ℤ) < 0) := by omega
  have hentry := State.entry_of_table h
  rw [List.length_append] at hentry ⊢
  rw [if_pos (by simp)] at hfind
  rw [allocateWithin_of_valid ⟨hsize, hgap, hword⟩, hfind, Outcome.done_bind]
  simp only [if_neg hnonneg, Int.toNat_natCast, hremaining, hloop, hentry]
  rfl

/-- The lowest entry that fits, or none. -/
theorem allocateWithin_cases (hwf : WellFormedTable s.table) (hlimits : ValidLimits n lower upper) :
    ((∀ x ∈ s.table, ¬ Fits (mul64 n pageSize) lower upper x) ∧
      allocateWithin s n lower upper = .done (enomem, s)) ∨
    ∃ l cur r, s.table = l ++ cur :: r ∧ Fits (mul64 n pageSize) lower upper cur ∧
      (∀ x ∈ l, ¬ Fits (mul64 n pageSize) lower upper x) ∧
      allocateWithin s n lower upper =
        allocateOutOf s l.length (requestedRange (max lower cur.physicalAddress)
          (mul64 n pageSize) memoryAllocated) >>=
          fun t => .done (max lower cur.physicalAddress, t) := by
  by_cases hno : ∀ x ∈ s.table, ¬ Fits (mul64 n pageSize) lower upper x
  · exact Or.inl ⟨hno, allocateWithin_of_forall_not hwf hlimits hno⟩
  · simp only [not_forall, not_not] at hno
    obtain ⟨x, hx, hfits⟩ := hno
    obtain ⟨cur, l, r, hl, hcur, h, _⟩ := List.exists_of_eraseP hx (p := fun x =>
      decide (Fits (mul64 n pageSize) lower upper x)) (by simpa using hfits)
    have hcur' : Fits (mul64 n pageSize) lower upper cur := by simpa using hcur
    have hl' : ∀ x ∈ l, ¬ Fits (mul64 n pageSize) lower upper x := fun x hx => by simpa using hl x hx
    exact Or.inr ⟨l, cur, r, h, hcur', hl', allocateWithin_of_fits hwf hlimits h hcur' hl'⟩

theorem Fits.inside {cur : MemoryRange}
    (h : Fits (mul64 n pageSize) lower upper cur) :
    Inside (requestedRange (max lower cur.physicalAddress) (mul64 n pageSize) memoryAllocated)
      cur := by
  obtain ⟨hsize, _⟩ := requestedRange_parts (max lower cur.physicalAddress)
    (mul64_pageSize_mod n) (mul64_lt n pageSize) (by decide : memoryAllocated < 2)
  have := h.2
  refine ⟨le_max_right _ _, ?_⟩
  rw [hsize]
  simp only [requestedRange]
  omega

theorem Fits.good {cur : MemoryRange} (hlimits : ValidLimits n lower upper) (hcur : GoodRange cur)
    (haligned : lower % pageSize = 0) (h : Fits (mul64 n pageSize) lower upper cur) :
    GoodRange (requestedRange (max lower cur.physicalAddress) (mul64 n pageSize) memoryAllocated) := by
  have hsize := hlimits.size
  have hgap := hlimits.gap
  have hword := hlimits.word
  have := h.2
  refine requestedRange_good (mul64_pageSize_mod n) (by omega) (by omega) ?_ (by decide)
  rcases max_choice lower cur.physicalAddress with hmax | hmax
  · rw [hmax, haligned]
  · rw [hmax, hcur.2.address]

/-- **A completed `allocate_within`** at an aligned limit has returned an error and done nothing,
or has carved the block it returns. -/
theorem allocateWithin_done (hwf : WellFormedTable s.table) (hlower : lower < 2 ^ 64)
    (hupper : upper < 2 ^ 64) (haligned : lower % pageSize = 0) {address : ℕ} {t : State}
    (hrun : allocateWithin s n lower upper = .done (address, t)) :
    (address = enomem ∧ t = s) ∨
      address % pageSize = 0 ∧
        Edited s (requestedRange address (mul64 n pageSize) memoryAllocated) t := by
  by_cases hlimits : ValidLimits n lower upper
  · rcases allocateWithin_cases hwf hlimits with ⟨_, heq⟩ | ⟨l, cur, r, h, hcur, _, heq⟩
    · rw [heq] at hrun
      simp only [Outcome.done.injEq, Prod.mk.injEq] at hrun
      exact Or.inl ⟨hrun.1.symm, hrun.2.symm⟩
    · rw [heq] at hrun
      obtain ⟨u, hu, hret⟩ := Outcome.bind_eq_done.mp hrun
      simp only [Outcome.done.injEq, Prod.mk.injEq] at hret
      obtain ⟨rfl, rfl⟩ := hret
      have hgood := hwf.good cur (by rw [h]; simp)
      have hnew := hcur.good hlimits hgood haligned
      have htype := (requestedRange_parts (max lower cur.physicalAddress)
        (mul64_pageSize_mod n) (mul64_lt n pageSize) (by decide : memoryAllocated < 2)).2
      exact Or.inr ⟨hnew.2.address, allocateOutOf_done h hwf (hcur.inside)
        (by rw [hcur.1, htype]; decide) hnew hu⟩
  · obtain ⟨bug, hbug⟩ := allocateWithin_invalid (s := s) hlower hupper hlimits
    rw [hbug] at hrun
    cases hrun

end AllocateWithin

end UltraKernel.BootAlloc
