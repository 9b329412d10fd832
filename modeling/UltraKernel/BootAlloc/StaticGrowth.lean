import UltraKernel.BootAlloc.Grow

/-!
# The first growth of the table

When the static table runs short, `maybe_grow_buffer` should either move it to new pages or refuse
and change nothing (`AllOrNothing`).  It tests the returned address for 0, while the allocator
reports a failure as the errno value: with no FREE range left the table is moved to the mapping of
the errno value, and pages found at address 0 are taken for a failure.

* `maybeGrowBuffer_of_forall_not`: what happens when no FREE range is large enough;
* `maybeGrowBuffer_of_offers`: what happens when one is;
* `static_growth_all_or_nothing_iff`: exactly when the growth is all-or-nothing.
-/

namespace UltraKernel.BootAlloc

open Word

/-- The growth either refuses and changes nothing, when no FREE range is large enough, or makes
the new table the mapping of exactly the pages it marks ALLOCATED. -/
def AllOrNothing (s : State) (run : Outcome Bug (Bool × State)) : Prop :=
  ((∀ r ∈ s.table, ¬ Offers (newCapacity s) r) → ∃ t, run = .done (false, t) ∧
    t.gBuffer = s.gBuffer ∧ t.gCapacity = s.gCapacity ∧ t.table = s.table) ∧
  ((∃ r ∈ s.table, Offers (newCapacity s) r) → ∃ address t, run = .done (true, t) ∧
    t.gBuffer = physToVirt address ∧ t.gCapacity = newCapacity s / memoryRangeSize ∧
    ∀ x, (address ≤ x ∧ x < address + newCapacity s →
        typeAt s.table x = some memoryFree ∧ typeAt t.table x = some memoryAllocated) ∧
      (¬ (address ≤ x ∧ x < address + newCapacity s) → typeAt t.table x = typeAt s.table x))

/-! ### The two ways the growth goes -/

section Static

variable {s : State}

theorem newCapacity_pos (hcap : 0 < s.gCapacity) (hbound : s.gCapacity ≤ bootAllocInitialCapacity) :
    0 < newCapacity s := by
  rw [newCapacity_eq (by simp only [bootAllocInitialCapacity, pageSize, memoryRangeSize] at *; omega)]
  simp only [bootAllocInitialCapacity, pageSize, memoryRangeSize] at *
  omega

/-- **No FREE range is large enough**: the errno value is taken for the address of the pages. -/
theorem maybeGrowBuffer_of_forall_not (hwf : WellFormedTable s.table)
    (hbuffer : s.gBuffer = .initial) (hshort : ¬ NoGrowth s) (hpos : 0 < newCapacity s)
    (hno : ∀ r ∈ s.table, ¬ Offers (newCapacity s) r) (fuel : ℕ) :
    maybeGrowBuffer (fuel + 1) s =
      .done (true, s.switch enomem (newCapacity s / memoryRangeSize)) := by
  have hnone := bootAllocNogrow_of_forall_not hwf (newCapacity_request hpos)
    (by rwa [newCapacity_pages])
  rw [maybeGrowBuffer_of_initial hbuffer hshort, hnone, Outcome.done_bind]
  rfl

/-- Carving the top of an entry needs a slot only when something is left below and the entry
after does not take it in. -/
theorem Carved.length_top {cur new : MemoryRange} {l r m : List MemoryRange}
    (hc : Carved cur new l r m) (hr : (mrRhsPiece cur new).mrSize = 0) :
    m.length = l.length + 1 + r.length + 1 ∧ (mrLhsPiece cur new).mrSize ≠ 0 ∧
        NoMergeAfter new r ∨
      m.length ≤ l.length + 1 + r.length ∧
        ((mrLhsPiece cur new).mrSize = 0 ∨ ¬ NoMergeAfter new r) := by
  cases hc with
  | case1 _ h => exact absurd hr h
  | case2a _ h _ => exact absurd hr h
  | case2b _ h _ => exact absurd hr h
  | case3a _ _ hmerge => exact Or.inr ⟨by simp; omega, Or.inr fun h => h _ rfl hmerge⟩
  | case3b hl _ hno => exact Or.inl ⟨by simp; omega, hl, hno⟩
  | case4a hl _ _ _ => exact Or.inr ⟨by simp; omega, Or.inl hl⟩
  | case4b hl _ _ _ => exact Or.inr ⟨by simp; omega, Or.inl hl⟩
  | case4c hl _ _ _ => exact Or.inr ⟨by simp; omega, Or.inl hl⟩
  | case4d hl _ _ _ => exact Or.inr ⟨by simp, Or.inl hl⟩

/-- The entry `cur` is carved without a free slot: it is taken whole, or the entry after it is
ALLOCATED and takes the pages in. -/
def CarvedInPlace (cur : MemoryRange) (bytes : ℕ) (r : List MemoryRange) : Prop :=
  cur.mrSize = bytes ∨ ∃ a ∈ r.head?, a.mrType = memoryAllocated ∧
    cur.physicalAddress + cur.mrSize = a.physicalAddress

instance (cur : MemoryRange) (bytes : ℕ) (r : List MemoryRange) :
    Decidable (CarvedInPlace cur bytes r) :=
  inferInstanceAs (Decidable (_ ∨ ∃ _ ∈ r.head?, _ ∧ _))

/-- **When the growth goes as it should**: a FREE range is large enough, the highest such range
does not end at the size of the new table (its pages are not at address 0), and its top can be
carved out with the slots there are. -/
def GrowthSucceeds (s : State) : Prop :=
  ∃ l cur r, s.table = l ++ cur :: r ∧ Offers (newCapacity s) cur ∧
    (∀ x ∈ r, ¬ Offers (newCapacity s) x) ∧ cur.physicalAddress + cur.mrSize ≠ newCapacity s ∧
    (s.gEntryCount < s.gCapacity ∨ CarvedInPlace cur (newCapacity s) r)

/-- What carving the top of an entry needs. -/
theorem topRange_slots {cur : MemoryRange} {l r m : List MemoryRange} {bytes : ℕ}
    (hcur : GoodRange cur) (hoffers : Offers bytes cur) (hmod : bytes % pageSize = 0)
    (hpos : 0 < bytes) (hc : Carved cur (topRange cur bytes) l r m) :
    m.length ≤ l.length + 1 + r.length ∧ CarvedInPlace cur bytes r ∨
      m.length = l.length + 1 + r.length + 1 ∧ ¬ CarvedInPlace cur bytes r := by
  obtain ⟨hin, hnew, hsize, htype⟩ := topRange_spec hcur hoffers hmod hpos
  have hle := hoffers.2
  have haddr : (topRange cur bytes).physicalAddress =
      cur.physicalAddress + cur.mrSize - bytes := rfl
  have hrhs := (mrRhsPiece_eq hin hcur.1 hnew.1 (hcur.2.even_sub hnew.2).2).1
  have hlhs := (mrLhsPiece_eq hin hcur.1 (hcur.2.even_sub hnew.2).1).1
  have hmerges : ∀ a, canMergeRanges (topRange cur bytes) a ↔ a.mrType = memoryAllocated ∧
      cur.physicalAddress + cur.mrSize = a.physicalAddress := fun a => by
    unfold canMergeRanges
    rw [hnew.1.mrEnd_eq, htype]
    constructor <;> rintro ⟨h1, h2⟩ <;> exact ⟨h1.symm, by omega⟩
  rcases hc.length_top (by omega) with ⟨hlen, hl, hno⟩ | ⟨hlen, hl | hmerge⟩
  · refine Or.inr ⟨hlen, ?_⟩
    rintro (hwhole | ⟨a, ha, htouch⟩)
    · omega
    · exact hno a ha ((hmerges a).mpr htouch)
  · exact Or.inl ⟨hlen, Or.inl (by omega)⟩
  · simp only [NoMergeAfter, not_forall, not_not] at hmerge
    obtain ⟨a, ha, htouch⟩ := hmerge
    exact Or.inl ⟨hlen, Or.inr ⟨a, ha, (hmerges a).mp htouch⟩⟩

/-- **Some FREE range is large enough**: the top of the highest one is carved if there are slots
for that, and the table is moved there unless it is at address 0. -/
theorem maybeGrowBuffer_of_offers {l r : List MemoryRange} {cur : MemoryRange}
    (hwf : WellFormedTable s.table) (hbuffer : s.gBuffer = .initial) (hshort : ¬ NoGrowth s)
    (hpos : 0 < newCapacity s) (hcount : s.gEntryCount ≤ s.gCapacity)
    (h : s.table = l ++ cur :: r) (hcur : Offers (newCapacity s) cur)
    (hno : ∀ x ∈ r, ¬ Offers (newCapacity s) x) (fuel : ℕ) :
    if s.gEntryCount < s.gCapacity ∨ CarvedInPlace cur (newCapacity s) r then
      ∃ t, Edited s (topRange cur (newCapacity s)) t ∧ maybeGrowBuffer (fuel + 1) s =
        if cur.physicalAddress + cur.mrSize = newCapacity s then .done (false, t)
        else .done (true, t.switch (cur.physicalAddress + cur.mrSize - newCapacity s)
          (newCapacity s / memoryRangeSize))
    else maybeGrowBuffer (fuel + 1) s = .halt .tableFull := by
  have hgood := hwf.good cur (by rw [h]; simp)
  have hle := hcur.2
  have hcount' := State.gEntryCount_of_table h
  simp only [List.length_append, List.length_cons] at hcount'
  obtain ⟨hin, hnew, _, htype⟩ := topRange_spec hgood hcur (newCapacity_mod s) hpos
  have hne := hcur.type_ne htype
  obtain ⟨m, hm, _, hperforms⟩ := allocateOutOf_updates h hwf hin hne hnew
  have hslots := topRange_slots hgood hcur (newCapacity_mod s) hpos hm
  have halloc := bootAllocNogrow_of_offers hwf (newCapacity_request hpos) h
    (by rwa [newCapacity_pages]) (by rwa [newCapacity_pages])
  rw [newCapacity_pages] at halloc
  rw [maybeGrowBuffer_of_initial hbuffer hshort, halloc]
  unfold Performs at hperforms
  rw [max_eq_right hcount] at hperforms
  by_cases hroom : s.gEntryCount < s.gCapacity ∨ CarvedInPlace cur (newCapacity s) r
  · have hfits : m.length ≤ s.gCapacity := by
      rcases hslots with ⟨hlen, _⟩ | ⟨hlen, hplace⟩
      · omega
      · have := hroom.resolve_right hplace
        omega
    rw [if_pos hfits] at hperforms
    rw [if_pos hroom]
    obtain ⟨t, ht, _, _⟩ := hperforms
    refine ⟨t, allocateOutOf_done h hwf hin hne hnew ht, ?_⟩
    rw [ht, Outcome.done_bind, Outcome.done_bind]
    simp only [show cur.physicalAddress + cur.mrSize - newCapacity s = 0 ↔
      cur.physicalAddress + cur.mrSize = newCapacity s by omega]
  · rw [if_neg hroom]
    rw [not_or] at hroom
    obtain ⟨hfull, hplace⟩ := hroom
    have hlen := (hslots.resolve_left fun h => hplace h.2).1
    rw [if_neg (by omega)] at hperforms
    rw [hperforms, Outcome.halt_bind, Outcome.halt_bind]

/-- **When the first growth is all-or-nothing**: exactly when it succeeds.  It never refuses as it
should, since a failed allocation is not recognised. -/
theorem static_growth_all_or_nothing_iff (hwf : WellFormedTable s.table)
    (hbuffer : s.gBuffer = .initial) (hcap : 0 < s.gCapacity)
    (hbound : s.gCapacity ≤ bootAllocInitialCapacity) (hcount : s.gEntryCount ≤ s.gCapacity)
    (hshort : ¬ NoGrowth s) (fuel : ℕ) :
    AllOrNothing s (maybeGrowBuffer (fuel + 1) s) ↔ GrowthSucceeds s := by
  have hpos := newCapacity_pos hcap hbound
  rcases forall_not_or_exists_last (Offers (newCapacity s)) s.table with
    hno | ⟨l, cur, r, h, hcur, hno⟩
  · refine iff_of_false (fun hall => ?_) ?_
    · obtain ⟨t, ht, _⟩ := hall.1 hno
      rw [maybeGrowBuffer_of_forall_not hwf hbuffer hshort hpos hno] at ht
      cases ht
    · rintro ⟨l, cur, r, h, hcur, _⟩
      exact hno cur (by rw [h]; simp) hcur
  · have hgrow := maybeGrowBuffer_of_offers hwf hbuffer hshort hpos hcount h hcur hno fuel
    have hgood := hwf.good cur (by rw [h]; simp)
    have hle := hcur.2
    have hoffered : ∃ x ∈ s.table, Offers (newCapacity s) x := ⟨cur, by rw [h]; simp, hcur⟩
    constructor
    · intro hall
      obtain ⟨address, t, ht, _⟩ := hall.2 hoffered
      by_cases hroom : s.gEntryCount < s.gCapacity ∨ CarvedInPlace cur (newCapacity s) r
      · rw [if_pos hroom, ht] at hgrow
        obtain ⟨u, _, hu⟩ := hgrow
        refine ⟨l, cur, r, h, hcur, hno, fun heq => ?_, hroom⟩
        rw [if_pos heq] at hu
        cases hu
      · rw [if_neg hroom, ht] at hgrow
        cases hgrow
    · rintro ⟨l', cur', r', h', hcur', hno', hne, hroom⟩
      -- the highest large range is unique
      obtain ⟨rfl, rfl, rfl⟩ := last_split_unique (h.symm.trans h') hcur hcur' hno hno'
      rw [if_pos hroom] at hgrow
      obtain ⟨t, hedit, ht⟩ := hgrow
      rw [if_neg hne] at ht
      obtain ⟨_, _, hsize, htype⟩ := topRange_spec hgood hcur (newCapacity_mod s) hpos
      refine ⟨fun hnone => absurd hcur (hnone cur (by rw [h]; simp)), fun _ =>
        ⟨_, _, ht, rfl, rfl, fun x => ?_⟩⟩
      have hcontains : (topRange cur (newCapacity s)).Contains x ↔
          cur.physicalAddress + cur.mrSize - newCapacity s ≤ x ∧
            x < cur.physicalAddress + cur.mrSize - newCapacity s + newCapacity s := by
        unfold MemoryRange.Contains
        rw [hsize]
        rfl
      rw [State.table_switch, hedit.updates.typeAt, htype]
      simp only [hcontains]
      refine ⟨fun hx => ⟨?_, if_pos hx⟩, fun hx => if_neg hx⟩
      rw [← hcur.1]
      exact hwf.typeAt_of_mem (by rw [h]; simp) ⟨by omega, by omega⟩

/-- The nearly full static table with no FREE memory is moved to the mapping of the errno value. -/
theorem static_growth_not_all_or_nothing :
    WellFormedTable (spreadPages .initial bootAllocInitialCapacity 254).table ∧
      ¬ NoGrowth (spreadPages .initial bootAllocInitialCapacity 254) ∧
      ¬ AllOrNothing (spreadPages .initial bootAllocInitialCapacity 254)
        (maybeGrowBuffer 1 (spreadPages .initial bootAllocInitialCapacity 254)) := by
  have hwf := wellFormed_spreadPages .initial bootAllocInitialCapacity (by decide : 254 ≤ 2 ^ 32)
  have hshort : ¬ NoGrowth (spreadPages .initial bootAllocInitialCapacity 254) := by decide
  have hno : ∀ r ∈ (spreadPages .initial bootAllocInitialCapacity 254).table,
      ¬ Offers (newCapacity (spreadPages .initial bootAllocInitialCapacity 254)) r := by
    intro r hr hoffers
    obtain ⟨_, _, _, _, htype, _⟩ := mem_spreadPages hr
    exact absurd (htype.symm.trans hoffers.1) (by decide)
  refine ⟨hwf, hshort, fun hall => ?_⟩
  obtain ⟨t, ht, _⟩ := hall.1 hno
  rw [maybeGrowBuffer_of_forall_not hwf rfl hshort (newCapacity_pos (by decide) le_rfl) hno] at ht
  cases ht

/-- A table of two slots is moved to the top page. -/
theorem static_growth_threePages : AllOrNothing (threePages 2) (maybeGrowBuffer 1 (threePages 2)) :=
  (static_growth_all_or_nothing_iff (wellFormed_threePages 2) rfl (by decide) (by decide)
    (by decide) (by decide) 0).mpr
    ⟨[], ⟨0x1000, 0x3000⟩, [], rfl, by decide, by simp, by decide, by decide⟩

end Static

end UltraKernel.BootAlloc
