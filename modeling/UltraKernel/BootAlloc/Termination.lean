import UltraKernel.BootAlloc.DynamicGrowth
import UltraKernel.BootAlloc.StaticGrowth

/-!
# Termination of the boot allocator

`boot_free` makes room before it frees, through the table that is being replaced, so the recursion
of `maybe_grow_buffer` goes on as long as the allocations of the next table leave too few slots.

* `maybeGrowBuffer_ends`, `serve_ends`: on a spacious table a call ends, keeps two slots for its own
  edit, and never meets a full table;
* `calls_terminate`: the runs whose calls all end.

None of this depends on the tables being well-formed.
-/

namespace UltraKernel.BootAlloc

open Word Outcome

/-! ### Fuel -/

/-- **More fuel never changes an ending.** -/
theorem grow_free_below (fuel : ℕ) :
    (∀ s, Below (maybeGrowBuffer fuel s) (maybeGrowBuffer (fuel + 1) s)) ∧
      ∀ s address n, Below (bootFree fuel s address n) (bootFree (fuel + 1) s address n) := by
  induction fuel with
  | zero => exact ⟨fun s => Or.inl (by simp [maybeGrowBuffer]),
      fun s address n => Or.inl (by simp [bootFree])⟩
  | succ fuel ih =>
    obtain ⟨ihgrow, ihfree⟩ := ih
    refine ⟨fun s => ?_, fun s address n => ?_⟩
    · by_cases hno : NoGrowth s
      · rw [maybeGrowBuffer_of_noGrowth hno, maybeGrowBuffer_of_noGrowth hno]
        exact Below.refl _
      cases hbuffer : s.gBuffer with
      | initial =>
        rw [maybeGrowBuffer_of_initial hbuffer hno, maybeGrowBuffer_of_initial hbuffer hno]
        exact Below.refl _
      | mapping phys =>
        rw [maybeGrowBuffer_of_mapping hbuffer hno, maybeGrowBuffer_of_mapping hbuffer hno]
        apply (Below.refl _).bind
        intro p
        split_ifs
        · exact Below.refl _
        · exact (Below.refl _).bind fun _ => (ihfree _ _ _).bind fun _ => Below.refl _
    · rw [bootFree, bootFree]
      exact (ihgrow s).bind fun _ => Below.refl _

/-! ### Ends of the parts -/

/-- An assertion that refuses the request: neither a full table nor an overlapping copy. -/
def Refuses (bug : Bug) : Prop := bug ≠ .tableFull ∧ bug ≠ .overlappingCopy

instance : DecidablePred Refuses := fun _ => inferInstanceAs (Decidable (_ ∧ _))

/-- A full table is only met when fewer than two slots were free. -/
def Fair (s : State) (bug : Bug) : Prop :=
  Refuses bug ∨ (bug = .tableFull ∧ s.gCapacity < s.gEntryCount + worstCaseGrowthPerAllocation)

/-- What an edit of the table does to its size. -/
def Grows (s t : State) : Prop :=
  Frame s t ∧ t.gEntryCount ≤ s.gEntryCount + worstCaseGrowthPerAllocation

section Parts

variable {s : State}

theorem bugOn_ends {expr : Prop} [Decidable expr] {bug : Bug} (hbug : Refuses bug) :
    Ends (Fair s) (fun _ => ¬ expr) (bugOn expr bug) := by
  unfold bugOn
  split_ifs with h
  · exact Or.inl hbug
  · exact h

/-- `allocate_out_of` ends on any table. -/
theorem allocateOutOf_ends {i : ℕ} {new : MemoryRange} (hi : i < s.gEntryCount) :
    Ends (Fair s) (Grows s) (allocateOutOf s i new) := by
  obtain ⟨l, cur, r, h, rfl⟩ := State.exists_split hi
  have hcur := State.entry_of_table h
  by_cases hin : cur.physicalAddress > new.physicalAddress ∨ cur.mrEnd < new.mrEnd
  · simp only [allocateOutOf, hcur, bugOn_of hin, Outcome.halt_bind]
    exact Or.inl (by decide)
  by_cases htype : cur.mrType = new.mrType
  · simp only [allocateOutOf, hcur, bugOn_of_not hin, bugOn_of htype, Outcome.done_bind,
      Outcome.halt_bind]
    exact Or.inl (by decide)
  obtain ⟨m, hm, hperforms⟩ := allocateOutOf_eq h hin htype
  have hlen := hm.length_le.1
  have hcount := State.gEntryCount_of_table h
  simp only [List.length_append, List.length_cons] at hcount
  unfold Performs at hperforms
  split_ifs at hperforms with hfits
  · obtain ⟨t, ht, htable, hframe⟩ := hperforms
    rw [ht]
    refine ⟨hframe, ?_⟩
    rw [State.gEntryCount_of_table htable]
    omega
  · rw [hperforms]
    exact Or.inr ⟨rfl, by omega⟩

theorem bootAllocNogrow_ends (s : State) (n : ℕ) :
    Ends (Fair s) (fun p => Grows s p.2) (bootAllocNogrow s n) := by
  have hself : Grows s s := ⟨Frame.refl s, by omega⟩
  unfold bootAllocNogrow allocateTopDown
  refine (bugOn_ends (by decide)).bind fun _ _ => ?_
  cases hloop : topDownLoop s (mul64 n pageSize) (2 ^ 64 - 1) s.gEntryCount with
  | none => exact hself
  | some found =>
    dsimp only
    split_ifs
    · exact hself
    · exact (allocateOutOf_ends (topDownLoop_some hloop).1).bind fun _ h => h

theorem withinLoop_lt {bytes lower upper remaining mrIdx i : ℕ}
    (h : withinLoop s bytes lower upper remaining mrIdx = some i) : i < mrIdx + remaining := by
  induction remaining generalizing mrIdx with
  | zero => simp [withinLoop] at h
  | succ remaining ih =>
    simp only [withinLoop] at h
    split_ifs at h
    · simp only [Option.some.injEq] at h
      omega
    · have := ih h
      omega

theorem allocateWithin_ends (s : State) (n lower upper : ℕ) :
    Ends (Fair s) (fun p => Grows s p.2) (allocateWithin s n lower upper) := by
  have hself : Grows s s := ⟨Frame.refl s, by omega⟩
  unfold allocateWithin
  refine (bugOn_ends (by decide)).bind fun _ _ => ?_
  refine (bugOn_ends (by decide)).bind fun _ _ => (bugOn_ends (by decide)).bind fun _ _ =>
    (bugOn_ends (by decide)).bind fun _ _ => ?_
  obtain ⟨mrIdx, hfind, _, hlt⟩ := findRange_ends s lower .yes
  rw [hfind, Outcome.done_bind]
  split_ifs with hneg
  · exact hself
  · cases hloop : withinLoop s (mul64 n pageSize) lower upper (s.gEntryCount - mrIdx.toNat)
      mrIdx.toNat with
    | none => exact hself
    | some i =>
      have hi := withinLoop_lt hloop
      exact (allocateOutOf_ends (by omega)).bind fun _ h => h

/-- The part of `boot_free` after room was made. -/
theorem freePart_ends (s : State) (address : ℕ) (new : MemoryRange) :
    Ends (Fair s) (Grows s) (findRange s address .no >>= fun mrIdx =>
      bugOn (mrIdx < 0) .invalidFree >>= fun _ => allocateOutOf s mrIdx.toNat new) := by
  obtain ⟨mrIdx, hfind, _, hlt⟩ := findRange_ends s address .no
  rw [hfind, Outcome.done_bind]
  refine (bugOn_ends (by decide)).bind fun _ hnonneg => ?_
  exact allocateOutOf_ends (by omega)

/-- Pages at address 0 are a whole entry, which is carved without a slot. -/
theorem bootAllocNogrow_zero {n : ℕ} {t : State} (hrun : bootAllocNogrow s n = .done (0, t)) :
    t.gEntryCount ≤ s.gEntryCount := by
  rcases bootAllocNogrow_run hrun with ⟨hne, _⟩ | ⟨i, hi, hzero, hn, h⟩
  · exact absurd hne (by decide)
  obtain ⟨l, cur, r, htable, rfl⟩ := State.exists_split hi
  obtain ⟨hin, htype⟩ := allocateOutOf_checks htable h
  obtain ⟨m, hm, hperforms⟩ := allocateOutOf_eq htable hin htype
  obtain ⟨rfl, _⟩ := hperforms.of_run h
  rw [State.entry_of_table htable] at hzero
  have hmod := mul64_pageSize_mod n
  have hlt := mul64_lt n pageSize
  obtain ⟨hsize, _⟩ := requestedRange_parts 0 hmod hlt
    (by decide : memoryAllocated < 2)
  have hend : (requestedRange 0 (mul64 n pageSize) memoryAllocated).mrEnd = mul64 n pageSize := by
    rw [MemoryRange.mrEnd, hsize]
    exact (add64_of_lt (by simp only [requestedRange]; omega)).trans (by simp [requestedRange])
  have hcurEnd : cur.mrEnd = mul64 n pageSize := by
    have := add64_lt cur.physicalAddress cur.mrSize
    unfold MemoryRange.mrEnd sub64 at *
    simp only [pageSize] at *
    omega
  have hlo : cur.physicalAddress = 0 := by
    simp only [requestedRange, not_or, not_lt] at hin
    omega
  have hlhs : (mrLhsPiece cur (requestedRange 0 (mul64 n pageSize) memoryAllocated)).mrSize = 0 :=
    mrLhsPiece_none hlo.symm (by omega)
  have hrhs := mrRhsPiece_none (hend.trans hcurEnd.symm)
  have hlen := State.gEntryCount_of_table htable
  rw [← State.length_table t]
  simp only [List.length_append, List.length_cons] at hlen
  rcases hm.length_top hrhs with ⟨_, hne, _⟩ | ⟨hle, _⟩
  · exact absurd hlhs hne
  · omega

end Parts

/-! ### Runs whose dynamic tables never run short -/

/-- The table is static, or has the slots it needs. -/
def Undisturbed (s : State) : Prop := s.gBuffer = .initial ∨ NoGrowth s

instance : DecidablePred Undisturbed := fun _ => inferInstanceAs (Decidable (_ ∨ _))

/-- Two slots are free, and a static table fits its array. -/
structure Spacious (s : State) : Prop where
  slots : s.gEntryCount + worstCaseGrowthPerAllocation ≤ s.gCapacity
  word : s.gCapacity < 2 ^ 64
  static : s.gBuffer = .initial → s.gCapacity ≤ bootAllocInitialCapacity

section Runs

variable {s t : State}

theorem Spacious.refuses (h : Spacious s) {bug : Bug} (hfair : Fair s bug) : Refuses bug := by
  refine hfair.resolve_right ?_
  rintro ⟨-, hfull⟩
  have hslots := h.slots
  omega

theorem Spacious.of_frame (h : Spacious s) (hframe : Frame s t)
    (hslots : t.gEntryCount + worstCaseGrowthPerAllocation ≤ s.gCapacity) : Spacious t where
  slots := by rw [hframe.gCapacity]; exact hslots
  word := by rw [hframe.gCapacity]; exact h.word
  static hb := by rw [hframe.gCapacity]; exact h.static (hframe.gBuffer ▸ hb)

/-- What making room leaves: two free slots, and four when it succeeded. -/
def Roomy (p : Bool × State) : Prop :=
  Spacious p.2 ∧ (p.1 = true → p.2.gEntryCount + 2 * worstCaseGrowthPerAllocation ≤ p.2.gCapacity)

/-- **Making room** in an undisturbed state ends with room for the edit of the call. -/
theorem maybeGrowBuffer_ends (hs : Spacious s) (h : Undisturbed s) (fuel : ℕ) :
    Ends Refuses Roomy (maybeGrowBuffer (fuel + 1) s) := by
  have hslots := hs.slots
  by_cases hno : NoGrowth s
  · rw [maybeGrowBuffer_of_noGrowth hno]
    have hroom := noGrowth_slots (by omega) hs.word hno
    exact ⟨hs, fun _ => hroom⟩
  have hbuffer := h.resolve_right hno
  have hbound := hs.static hbuffer
  have hsize : newCapacity s = (s.gCapacity * 32 + (pageSize - 1)) / pageSize * pageSize :=
    newCapacity_eq (by simp only [bootAllocInitialCapacity, pageSize, memoryRangeSize] at *; omega)
  rw [maybeGrowBuffer_of_initial hbuffer hno]
  cases halloc : bootAllocNogrow s (newCapacity s >>> pageShift) with
  | halt bug =>
    have hends := bootAllocNogrow_ends s (newCapacity s >>> pageShift)
    rw [halloc] at hends
    exact hs.refuses hends
  | outOfFuel =>
    exact absurd halloc (bootAllocNogrow_ends s (newCapacity s >>> pageShift)).ne_outOfFuel
  | done p =>
    obtain ⟨address, t⟩ := p
    obtain ⟨hframe, hcount⟩ := (bootAllocNogrow_ends s _).of_done halloc
    rw [Outcome.done_bind]
    dsimp only
    split_ifs with hzero
    · -- pages at address 0 take no slot
      subst hzero
      have hle : t.gEntryCount ≤ s.gEntryCount := bootAllocNogrow_zero halloc
      have hspacious : Spacious t := hs.of_frame hframe (by omega)
      exact ⟨hspacious, by simp⟩
    · have hbig : s.gCapacity + 4 ≤ newCapacity s / memoryRangeSize ∧
          newCapacity s / memoryRangeSize < 2 ^ 64 := by
        rw [hsize]
        simp only [bootAllocInitialCapacity, pageSize, memoryRangeSize,
          worstCaseGrowthPerAllocation] at *
        omega
      simp only [worstCaseGrowthPerAllocation] at hcount hslots
      refine ⟨⟨?_, hbig.2, fun hb => by simp [State.switch, physToVirt] at hb⟩, fun _ => ?_⟩ <;>
        simp only [State.switch, State.copyEntries, worstCaseGrowthPerAllocation] <;> omega

/-- The edit of a call fits in the room that was made. -/
theorem Roomy.after {p : Bool × State} (h : Roomy p) (hp : p.1 = true) (ht : Grows p.2 t) :
    Spacious t := by
  have hroom := h.2 hp
  have hcount := ht.2
  refine h.1.of_frame ht.1 ?_
  unfold worstCaseGrowthPerAllocation at *
  omega

/-- **Every call ends** in an undisturbed state, whatever its arguments. -/
theorem serve_ends {sys : System} (hs : Spacious sys.state) (h : Undisturbed sys.state)
    (request : Request) (fuel : ℕ) :
    Ends Refuses (fun sys' : System => Spacious sys'.state) (sys.serve (fuel + 2) request) := by
  cases request with
  | alloc n =>
    refine Ends.bind (Q := fun p : ℕ × State => Spacious p.2) ?_ fun p hp => hp
    refine (maybeGrowBuffer_ends hs h _).bind ?_
    rintro ⟨grown, g⟩ hroom
    cases grown with
    | false => exact hroom.1
    | true =>
      change Ends _ _ (bootAllocNogrow g n)
      exact (bootAllocNogrow_ends g n).mono (fun _ => hroom.1.refuses)
        fun p hp => hroom.after rfl hp
  | allocAt a n =>
    refine Ends.bind (Q := fun p : ℕ × State => Spacious p.2) ?_ fun p hp => hp
    refine (maybeGrowBuffer_ends hs h _).bind ?_
    rintro ⟨grown, g⟩ hroom
    cases grown with
    | false => exact hroom.1
    | true =>
      change Ends _ _ (allocateWithin g n a _)
      exact (allocateWithin_ends g n _ _).mono (fun _ => hroom.1.refuses)
        fun p hp => hroom.after rfl hp
  | free a n =>
    refine Ends.bind (Q := Spacious) ?_ fun t ht => ht
    rw [bootFree]
    refine (maybeGrowBuffer_ends hs h _).bind ?_
    rintro ⟨grown, g⟩ hroom
    cases grown with
    | false => exact hroom.1
    | true =>
      change Ends _ _ (findRange g a .no >>= fun mrIdx => bugOn (mrIdx < 0) .invalidFree >>=
        fun _ => allocateOutOf g mrIdx.toNat _)
      exact (freePart_ends g a _).mono (fun _ => hroom.1.refuses)
        fun t ht => hroom.after rfl ht

/-- Any call, in an undisturbed state. -/
structure AnyStep (sys : System) (request : Request) (sys' : System) : Prop where
  undisturbed : Undisturbed sys.state
  served : ∃ fuel, sys.serve fuel request = .done sys'

theorem serve_below (sys : System) (request : Request) (fuel : ℕ) :
    Below (sys.serve fuel request) (sys.serve (fuel + 1) request) := by
  cases request with
  | alloc n =>
    have hgrow := (grow_free_below fuel).1 sys.state
    exact Below.bind (Below.bind hgrow fun _ => Below.refl _) fun _ => Below.refl _
  | allocAt a n =>
    have hgrow := (grow_free_below fuel).1 sys.state
    exact Below.bind (Below.bind hgrow fun _ => Below.refl _) fun _ => Below.refl _
  | free a n => exact ((grow_free_below fuel).2 _ _ _).bind fun _ => Below.refl _

/-- **Step lemma**: a call in an undisturbed state leaves two slots free. -/
theorem AnyStep.spacious {sys sys' : System} {request : Request} (h : AnyStep sys request sys')
    (hs : Spacious sys.state) : Spacious sys'.state := by
  obtain ⟨fuel, hserve⟩ := h.served
  have hmore : sys.serve (fuel + 2) request = .done sys' :=
    (below_of_le (serve_below sys request) (by omega : fuel ≤ fuel + 2)).done hserve
  exact (serve_ends hs h.undisturbed request fuel).of_done hmore

/-- **Termination.**  In every run from a state with two free slots, of any calls with any arguments,
in which no dynamic table runs short, every call ends, finds two slots free for its own edit once room
was made and leaves two, and meets neither a full table nor an overlapping copy.  A dynamic table that
does run short, when no FREE range is large enough for the next one, sends the recursion on for ever. -/
theorem calls_terminate (s : State) :
    (∀ live requests (sys : System), Spacious s → Run AnyStep ⟨s, live⟩ requests sys →
      Undisturbed sys.state → ∀ request fuel, 2 ≤ fuel →
        (sys.serve fuel request).Ends Refuses (fun sys' => Spacious sys'.state) ∧
          ∀ grown g, maybeGrowBuffer fuel sys.state = .done (grown, g) →
            g.gEntryCount + worstCaseGrowthPerAllocation ≤ g.gCapacity) ∧
    ∀ phys, DynamicState s phys → ¬ NoGrowth s → 0 < newCapacity s →
      (∀ r ∈ s.table, ¬ Offers (newCapacity s) r) → ¬ OverlapsErrno s →
        ∀ fuel, maybeGrowBuffer fuel s = .outOfFuel := by
  refine ⟨?_, fun phys h hshort hpos hno hapart fuel =>
    maybeGrowBuffer_diverges h.wellFormed h.buffer h.base.2 hshort hpos hno hapart fuel⟩
  intro live requests sys hs hrun hundisturbed request fuel hfuel
  have hsys : Spacious sys.state :=
    hrun.invariant (P := fun sys => Spacious sys.state) (fun _ _ _ hs hstep => hstep.spacious hs) hs
  obtain ⟨fuel, rfl⟩ : ∃ k, fuel = k + 2 := ⟨fuel - 2, by omega⟩
  refine ⟨serve_ends hsys hundisturbed request fuel, fun grown g hgrow => ?_⟩
  exact ((maybeGrowBuffer_ends hsys hundisturbed (fuel + 1)).of_done hgrow).1.slots

/-- A dynamic table with five free slots and no FREE memory: the recursion does not end. -/
theorem spreadPages_diverges :
    DynamicState (spreadPages (physToVirt 0x100000) 512 507) 0x100000 ∧
      ∀ fuel, maybeGrowBuffer fuel (spreadPages (physToVirt 0x100000) 512 507) = .outOfFuel := by
  have hwf := wellFormed_spreadPages (physToVirt 0x100000) 512 (by decide : 507 ≤ 2 ^ 32)
  have hpages : bufferPages (spreadPages (physToVirt 0x100000) 512 507) = [⟨0x100000, 2⟩] := by decide
  have hno : ∀ r ∈ (spreadPages (physToVirt 0x100000) 512 507).table,
      ¬ Offers (newCapacity (spreadPages (physToVirt 0x100000) 512 507)) r := by
    intro r hr hoffers
    obtain ⟨_, _, _, _, htype, _⟩ := mem_spreadPages hr
    exact absurd (htype.symm.trans hoffers.1) (by decide)
  refine ⟨⟨hwf, rfl, ?_, ?_⟩, fun fuel => maybeGrowBuffer_diverges hwf rfl (by decide) (by decide)
    (by decide) hno (by decide) fuel⟩
  · rw [hpages]
    intro b hb
    obtain rfl := List.mem_singleton.mp hb
    exact ⟨by decide, by decide, by decide⟩
  · rw [hpages]
    intro b hb x hx
    obtain rfl := List.mem_singleton.mp hb
    exact hwf.typeAt_of_mem (State.entry_mem (i := 85) (by decide)) hx

/-- A run out of the static table, and the calls after it. -/
theorem calls_terminate_threePages :
    ∃ sys : System, sys.live = [⟨0x2000, 1⟩] ∧ ∀ request,
      (sys.serve 2 request).Ends Refuses fun sys' => Spacious sys'.state := by
  have hserved : ((System.mk (threePages 3) []).serve 2 (.alloc 1)).value?.map
      (fun sys : System => (sys.live, decide (Undisturbed sys.state))) =
        some ([⟨0x2000, 1⟩], true) := by
    decide +kernel
  obtain ⟨sys, hsys, heq⟩ := Option.map_eq_some_iff.mp hserved
  obtain ⟨hlive, hundisturbed⟩ := Prod.mk.inj heq
  have hrun : Run AnyStep ⟨threePages 3, []⟩ [.alloc 1] sys :=
    .cons ⟨Or.inl rfl, 2, Outcome.value?_eq_some.mp hsys⟩ (.nil _)
  have hstart : Spacious (threePages 3) := ⟨by decide, by decide, fun _ => by decide⟩
  exact ⟨sys, hlive, fun request => ((calls_terminate _).1 _ _ sys hstart hrun
    (of_decide_eq_true hundisturbed) request 2 le_rfl).1⟩

end Runs

end UltraKernel.BootAlloc
