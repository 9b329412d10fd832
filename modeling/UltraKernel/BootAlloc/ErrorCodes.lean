import UltraKernel.BootAlloc.Grow

/-!
# Error values and addresses

`boot_alloc` and `boot_alloc_at` return an address and an errno value through one type, and
`error_phys_addr` tells them apart by `MAX_ERRNO`.  `Honest` is what a caller relies on: an error
value means that nothing has changed, any other value is the base of a region that has just become
ALLOCATED.  `error_values_honest_iff` says exactly which calls keep to it: the ones that do not
carve a region starting in page 0.

The address given to `boot_alloc_at` may be unaligned here, so the table after the call is not
well-formed in general, and the region is followed through the nine edits by hand
(`Carved.covers`).
-/

namespace UltraKernel.BootAlloc

open Word

/-- An error value leaves the table unchanged; another value is the base of a region that went
from FREE to ALLOCATED. -/
def Honest (s : State) (numPages ret : ℕ) (t : State) : Prop :=
  (errorPhysAddr ret → t.table = s.table) ∧
    (¬ errorPhysAddr ret → 0 < mul64 numPages pageSize ∧
      ∀ x, ret ≤ x → x < ret + mul64 numPages pageSize →
        typeAt s.table x = some memoryFree ∧ typeAt t.table x = some memoryAllocated)

/-! ### The carved region -/

section Region

variable {cur new : MemoryRange} {l r m : List MemoryRange}

/-- The sizes of merged entries add up, and the type is that of the first. -/
theorem mergeRanges_parts {a b : MemoryRange} (ha : a.sizeAndType < 2 ^ 64) (hsum : a.mrSize + b.mrSize < 2 ^ 64) :
    (mergeRanges a b).mrSize = a.mrSize + b.mrSize ∧ (mergeRanges a b).mrType = a.mrType := by
  have ha' := MemoryRange.sizeAndType_eq ha
  have heven := a.mrSize_even
  have heven' := b.mrSize_even
  have htype := a.mrType_lt
  have hword : (mergeRanges a b).sizeAndType = a.mrSize + b.mrSize + a.mrType := by
    rw [mergeRanges]
    simp only
    rw [add64_of_lt (by omega)]
    omega
  exact mrSize_mrType_of_eq hword (by omega) htype (by omega)

/-- The piece below a new range inside a FREE entry ends where the new range starts, or just
before. -/
theorem mrLhsPiece_size (hfree : cur.mrType = memoryFree)
    (hlo : cur.physicalAddress ≤ new.physicalAddress) (hword : new.physicalAddress < 2 ^ 64) :
    (mrLhsPiece cur new).mrSize = new.physicalAddress - cur.physicalAddress -
      (new.physicalAddress - cur.physicalAddress) % 2 := by
  have hsat : (mrLhsPiece cur new).sizeAndType = new.physicalAddress - cur.physicalAddress := by
    rw [mrLhsPiece, hfree, sub64_of_le hlo hword, mrEncode, memoryFree, Nat.or_zero]
  rw [MemoryRange.mrSize_eq (by omega), hsat]

theorem mrRhsPiece_size (hfree : cur.mrType = memoryFree) (hcur : ValidRange cur)
    (hnew : ValidRange new)
    (hhi : new.physicalAddress + new.mrSize ≤ cur.physicalAddress + cur.mrSize) :
    (mrRhsPiece cur new).mrSize =
      cur.physicalAddress + cur.mrSize - (new.physicalAddress + new.mrSize) -
        (cur.physicalAddress + cur.mrSize - (new.physicalAddress + new.mrSize)) % 2 := by
  have hbound := hcur.bounded
  have hsat : (mrRhsPiece cur new).sizeAndType =
      cur.physicalAddress + cur.mrSize - (new.physicalAddress + new.mrSize) := by
    rw [mrRhsPiece, hfree, hcur.mrEnd_eq, hnew.mrEnd_eq, sub64_of_le hhi hbound, mrEncode,
      memoryFree, Nat.or_zero]
  rw [MemoryRange.mrSize_eq (by omega), hsat]

theorem mergeRanges_word (a b : MemoryRange) : (mergeRanges a b).sizeAndType < 2 ^ 64 :=
  add64_lt _ _

/-- The entry after, once the new range is merged into it, covers the new range. -/
theorem mergeAfter_covers {a : MemoryRange} (hnew : ValidRange new) (ha : ValidRange a)
    (hmerge : canMergeRanges new a) {x : ℕ} (hx : new.Contains x) :
    (mergeRanges a new).Contains x ∧ (mergeRanges a new).mrType = new.mrType := by
  obtain ⟨htype, hend⟩ := hmerge
  rw [hnew.mrEnd_eq] at hend
  have hpos := hnew.nonempty
  have hbound := ha.bounded
  obtain ⟨hms, hmt⟩ := mergeRanges_parts (b := new) ha.word (by omega)
  have haddr : (mergeRanges a new).physicalAddress = new.physicalAddress := if_pos (by omega)
  obtain ⟨hx1, hx2⟩ := hx
  exact ⟨⟨by omega, by omega⟩, hmt.trans htype.symm⟩

/-- The entry before, once the new range is merged into it, covers the new range. -/
theorem mergeBefore_covers {b : MemoryRange} (hnew : ValidRange new) (hb : ValidRange b)
    (hmerge : canMergeRanges b new) {x : ℕ} (hx : new.Contains x) :
    (mergeRanges b new).Contains x ∧ (mergeRanges b new).mrType = new.mrType := by
  obtain ⟨htype, hend⟩ := hmerge
  rw [hb.mrEnd_eq] at hend
  have hpos := hb.nonempty
  have hbound := hnew.bounded
  obtain ⟨hms, hmt⟩ := mergeRanges_parts (b := new) hb.word (by omega)
  have haddr : (mergeRanges b new).physicalAddress = b.physicalAddress := if_neg (by omega)
  obtain ⟨hx1, hx2⟩ := hx
  exact ⟨⟨by omega, by omega⟩, hmt.trans htype⟩

/-- **The carved region is ALLOCATED**, even when the new range starts at an unaligned address:
some entry of the new type covers it, and no entry before that one meets it. -/
theorem Carved.covers (hc : Carved cur new l r m) (hwf : WellFormedTable (l ++ cur :: r))
    (hin : Inside new cur) (hfree : cur.mrType = memoryFree)
    (htype : new.mrType = memoryAllocated) (hnew : ValidRange new)
    (hsize : new.mrSize % pageSize = 0) {x : ℕ} (hx : new.Contains x) :
    typeAt m x = some memoryAllocated := by
  have hcur := hwf.valid cur (by simp)
  have halign := hwf.aligned cur (by simp)
  have hlo := hin.lo_le
  have hhi := hin.le_hi
  have hbound := hcur.bounded
  obtain ⟨hx1, hx2⟩ := hx
  have hlhs := mrLhsPiece_size hfree hlo (by omega)
  have hrhs := mrRhsPiece_size hfree hcur hnew hhi
  have hbelow : ∀ y ∈ l, y.physicalAddress + y.mrSize ≤ cur.physicalAddress := fun y hy =>
    hwf.before hy
  have hl : ∀ y ∈ l, ¬ y.Contains x := fun y hy hyx => by
    have := hbelow y hy
    have := hyx.2
    omega
  have hpiece : ¬ (mrLhsPiece cur new).Contains x := fun hyx => by
    have hstart : (mrLhsPiece cur new).physicalAddress = cur.physicalAddress := rfl
    have := hyx.2
    omega
  have hlpiece : ∀ y ∈ l ++ [mrLhsPiece cur new], ¬ y.Contains x := by
    simpa [or_imp, forall_and] using ⟨hl, hpiece⟩
  -- when nothing is left on either side, the new range is the whole entry
  have hwhole : (mrLhsPiece cur new).mrSize = 0 → (mrRhsPiece cur new).mrSize = 0 →
      new.physicalAddress = cur.physicalAddress := fun h h' => by
    have := halign.size
    simp only [pageSize] at *
    omega
  have hafter : ∀ a ∈ r, ValidRange a ∧ cur.physicalAddress + cur.mrSize ≤ a.physicalAddress :=
    fun a ha => ⟨hwf.valid a (by simp [ha]), hwf.behind ha⟩
  have hbefore : ∀ k b, l = k ++ [b] → ValidRange b ∧ ∀ y ∈ k, ¬ y.Contains x := by
    rintro k b rfl
    exact ⟨hwf.valid b (by simp), fun y hy => hl y (List.mem_append_left _ hy)⟩
  cases hc with
  | case1 _ _ =>
    have := typeAt_append_cons (m := mrRhsPiece cur new :: r) hlpiece
      (⟨hx1, hx2⟩ : new.Contains x)
    simpa [htype] using this
  | @case2a k b _ _ _ hmerge =>
    obtain ⟨hb, hk⟩ := hbefore k b rfl
    obtain ⟨hcontains, hmt⟩ := mergeBefore_covers hnew hb hmerge ⟨hx1, hx2⟩
    rw [typeAt_append_cons hk hcontains, hmt, htype]
  | case2b _ _ _ => rw [typeAt_append_cons hl ⟨hx1, hx2⟩, htype]
  | @case3a k a r' _ _ hmerge =>
    obtain ⟨hcontains, hmt⟩ := mergeAfter_covers hnew (hafter a (by simp)).1 hmerge ⟨hx1, hx2⟩
    have := typeAt_append_cons (m := r') hlpiece hcontains
    rw [hmt, htype] at this
    simpa using this
  | case3b _ _ _ =>
    have := typeAt_append_cons (m := r) hlpiece (⟨hx1, hx2⟩ : new.Contains x)
    simpa [htype] using this
  | case4a hl0 hr0 _ _ =>
    have haddr := hwhole hl0 hr0
    have hcontains : ({ cur with sizeAndType := new.sizeAndType } : MemoryRange).Contains x :=
      ⟨haddr ▸ hx1, haddr ▸ hx2⟩
    rw [typeAt_append_cons hl hcontains]
    exact congrArg some htype
  | @case4b k b a r' _ _ hmerge hmerge' =>
    obtain ⟨hb, hk⟩ := hbefore k b rfl
    obtain ⟨hcontains, hmt⟩ := mergeBefore_covers hnew hb hmerge ⟨hx1, hx2⟩
    have hend := hmerge.2
    rw [hb.mrEnd_eq] at hend
    have hend' := hmerge'.2
    rw [hnew.mrEnd_eq] at hend'
    have ha := (hafter a (by simp)).1.bounded
    have hpos := hb.nonempty
    obtain ⟨hms, _⟩ := mergeRanges_parts (b := new) hb.word (by omega)
    have haddr : (mergeRanges b new).physicalAddress = b.physicalAddress := if_neg (by omega)
    obtain ⟨hms', hmt'⟩ := mergeRanges_parts (mergeRanges_word b new) (b := a) (by omega)
    have haddr' : (mergeRanges (mergeRanges b new) a).physicalAddress = b.physicalAddress := by
      rw [← haddr]
      exact if_neg (by omega)
    have hcontains' : (mergeRanges (mergeRanges b new) a).Contains x :=
      ⟨by omega, by have := hcontains.2; omega⟩
    rw [typeAt_append_cons hk hcontains', hmt', hmt, htype]
  | @case4c k b _ _ _ hmerge _ =>
    obtain ⟨hb, hk⟩ := hbefore k b rfl
    obtain ⟨hcontains, hmt⟩ := mergeBefore_covers hnew hb hmerge ⟨hx1, hx2⟩
    rw [typeAt_append_cons hk hcontains, hmt, htype]
  | @case4d k a r' _ _ _ hmerge =>
    obtain ⟨hcontains, hmt⟩ := mergeAfter_covers hnew (hafter a (by simp)).1 hmerge ⟨hx1, hx2⟩
    rw [typeAt_append_cons hl hcontains, hmt, htype]

end Region

/-! ### Which calls are honest -/

section Calls

variable {s t : State} {n : ℕ}

/-- The only FREE entry that is large enough is the interval from 0 to `bytes`. -/
def OnlyPageZero (bytes : ℕ) (l : List MemoryRange) : Prop :=
  ∃ cur ∈ l, cur.physicalAddress = 0 ∧ cur.mrSize = bytes ∧ cur.mrType = memoryFree ∧
    ∀ x ∈ l, Offers bytes x → x = cur

/-- The region at `address` lies in a FREE entry. -/
def FreeRegion (address bytes : ℕ) (l : List MemoryRange) : Prop :=
  ∃ cur ∈ l, cur.mrType = memoryFree ∧ cur.physicalAddress ≤ address ∧
    address + bytes ≤ cur.physicalAddress + cur.mrSize

/-- A carved region of a FREE entry: FREE before, ALLOCATED after. -/
theorem carved_region {l r : List MemoryRange} {cur : MemoryRange} {address : ℕ}
    (hwf : WellFormedTable s.table) (h : s.table = l ++ cur :: r) (hfree : cur.mrType = memoryFree)
    (hpos : 0 < mul64 n pageSize) (hlo : cur.physicalAddress ≤ address)
    (hhi : address + mul64 n pageSize ≤ cur.physicalAddress + cur.mrSize)
    (hrun : allocateOutOf s l.length
      (requestedRange address (mul64 n pageSize) memoryAllocated) = .done t) :
    ∀ x, address ≤ x → x < address + mul64 n pageSize →
      typeAt s.table x = some memoryFree ∧ typeAt t.table x = some memoryAllocated := by
  have hcur := hwf.valid cur (by rw [h]; simp)
  have hbound := hcur.bounded
  have hlt := mul64_pageSize_lt n
  have hmod := mul64_pageSize_mod n
  obtain ⟨hsize, htype⟩ := requestedRange_parts address hmod (mul64_lt n pageSize)
    (by decide : memoryAllocated < 2)
  have hword : (requestedRange address (mul64 n pageSize) memoryAllocated).sizeAndType < 2 ^ 64 := by
    have heven : mul64 n pageSize % 2 = 0 := by
      simp only [pageSize] at *
      omega
    have : (requestedRange address (mul64 n pageSize) memoryAllocated).sizeAndType =
        mul64 n pageSize + memoryAllocated := mrEncode_eq heven (by decide)
    simp only [memoryAllocated, pageSize] at *
    omega
  have hnew : ValidRange (requestedRange address (mul64 n pageSize) memoryAllocated) :=
    ⟨hword, by omega, by rw [hsize]; simp only [requestedRange]; omega⟩
  have hin : Inside (requestedRange address (mul64 n pageSize) memoryAllocated) cur :=
    ⟨hlo, by rw [hsize]; exact hhi⟩
  obtain ⟨m, hm, hperforms⟩ := allocateOutOf_eq h (hin.valid_bounds hcur hnew)
    (by rw [hfree, htype]; decide)
  obtain ⟨rfl, _⟩ := hperforms.of_run hrun
  intro x hx1 hx2
  refine ⟨?_, ?_⟩
  · rw [← hfree]
    exact hwf.typeAt_of_mem (by rw [h]; simp) ⟨by omega, by omega⟩
  · refine hm.covers (h ▸ hwf) hin hfree htype hnew (by rw [hsize]; exact hmod) ⟨hx1, ?_⟩
    rw [hsize]
    exact hx2

/-- A call that carved its region is honest exactly when the region starts above the errno
values. -/
theorem honest_carved_iff {ret : ℕ} (hpos : 0 < mul64 n pageSize)
    (hregion : ∀ x, ret ≤ x → x < ret + mul64 n pageSize →
      typeAt s.table x = some memoryFree ∧ typeAt t.table x = some memoryAllocated) :
    Honest s n ret t ↔ ¬ errorPhysAddr ret := by
  constructor
  · intro hhonest herror
    obtain ⟨hbefore, hafter⟩ := hregion ret le_rfl (by omega)
    rw [hhonest.1 herror, hbefore] at hafter
    exact absurd (Option.some.inj hafter) (by decide)
  · exact fun herror => ⟨fun h => absurd h herror, fun _ => ⟨hpos, hregion⟩⟩

theorem honest_unchanged : Honest s n enomem s :=
  ⟨fun _ => rfl, fun h => absurd (by decide : errorPhysAddr enomem) h⟩

/-- An aligned address is an error value only if it is 0. -/
theorem errorPhysAddr_aligned {address : ℕ} (h : address % pageSize = 0) :
    errorPhysAddr address ↔ address = 0 := by
  unfold errorPhysAddr maxErrno
  simp only [pageSize] at h
  omega

/-- The call carves a region at address 0 exactly when nothing else is large enough. -/
theorem onlyPageZero_iff {l r : List MemoryRange} {cur : MemoryRange} {bytes : ℕ}
    (hwf : WellFormedTable (l ++ cur :: r)) (hcur : Offers bytes cur)
    (hno : ∀ x ∈ r, ¬ Offers bytes x) :
    OnlyPageZero bytes (l ++ cur :: r) ↔ cur.physicalAddress + cur.mrSize - bytes = 0 := by
  have hsize := hcur.2
  constructor
  · rintro ⟨c, _, haddr, hcsize, _, honly⟩
    obtain rfl := honly cur (by simp) hcur
    omega
  · intro hzero
    refine ⟨cur, by simp, by omega, by omega, hcur.1, fun x hx hoffers => ?_⟩
    rcases List.mem_append.mp hx with hx | hx
    · -- nothing lies below address 0
      have := hwf.before hx
      have := (hwf.valid x (by simp [hx])).nonempty
      omega
    · rcases List.mem_cons.mp hx with rfl | hx
      · rfl
      · exact absurd hoffers (hno x hx)

/-- **Which calls are honest.**  Without growth, a completed `boot_alloc` is honest unless the only
FREE entry large enough is exactly the interval from address 0, and a completed `boot_alloc_at` is
honest unless the address is itself an errno value and its region is FREE. -/
theorem error_values_honest_iff (hwf : WellFormedTable s.table) (hno : NoGrowth s) :
    (∀ fuel ret, bootAlloc fuel s n = .done (ret, t) →
      (Honest s n ret t ↔ ¬ OnlyPageZero (mul64 n pageSize) s.table)) ∧
    ∀ fuel address ret, address < 2 ^ 64 → bootAllocAt fuel s address n = .done (ret, t) →
      (Honest s n ret t ↔
        ¬ (errorPhysAddr address ∧ FreeRegion address (mul64 n pageSize) s.table)) := by
  constructor
  · intro fuel ret hrun
    obtain ⟨grown, g, hgrow, hpart⟩ := bootAlloc_run hrun
    obtain ⟨rfl, rfl⟩ := Prod.mk.inj (maybeGrowBuffer_done_of_noGrowth hno hgrow)
    replace hpart : bootAllocNogrow g n = .done (ret, t) := by simpa using hpart
    rcases bootAllocNogrow_cases hwf n with ⟨_, heq⟩ | ⟨_, hnone, heq⟩ |
      ⟨hn, l, cur, r, h, hcur, hno', heq⟩ <;> rw [heq] at hpart
    · cases hpart
    · obtain ⟨rfl, rfl⟩ := Prod.mk.inj (Outcome.done.inj hpart)
      refine iff_of_true honest_unchanged ?_
      rintro ⟨c, hc, _, hsize, htype, _⟩
      exact hnone c hc ⟨htype, hsize.ge⟩
    · obtain ⟨u, hu, hret⟩ := Outcome.bind_eq_done.mp hpart
      obtain ⟨rfl, rfl⟩ := Prod.mk.inj (Outcome.done.inj hret)
      have hsize := hcur.2
      have hgood := hwf.good cur (by rw [h]; simp)
      obtain ⟨_, hnew, _, _⟩ := topRange_spec hgood hcur (mul64_pageSize_mod n) (by omega)
      have hregion := carved_region hwf h hcur.1 (by omega) (by omega) (by omega) hu
      have haligned : (cur.physicalAddress + cur.mrSize - mul64 n pageSize) % pageSize = 0 :=
        hnew.2.address
      rw [honest_carved_iff (by omega) hregion, errorPhysAddr_aligned haligned]
      rw [h] at hwf ⊢
      rw [onlyPageZero_iff hwf hcur hno']
  · intro fuel address ret hword hrun
    obtain ⟨grown, g, hgrow, hpart⟩ := bootAllocAt_run hrun
    obtain ⟨rfl, rfl⟩ := Prod.mk.inj (maybeGrowBuffer_done_of_noGrowth hno hgrow)
    replace hpart : allocateWithin g n address (add64 address (mul64 n pageSize)) =
      .done (ret, t) := by simpa using hpart
    by_cases hlimits : ValidLimits n address (add64 address (mul64 n pageSize))
    · have hupper : add64 address (mul64 n pageSize) = address + mul64 n pageSize := by
        have h1 := hlimits.gap
        have h2 := mul64_lt n pageSize
        unfold add64 at h1 ⊢
        omega
      have hsize := hlimits.size
      rcases allocateWithin_cases hwf hlimits with ⟨hnone, heq⟩ | ⟨l, cur, r, h, hcur, _, heq⟩ <;>
        rw [heq] at hpart
      · obtain ⟨rfl, rfl⟩ := Prod.mk.inj (Outcome.done.inj hpart)
        refine iff_of_true honest_unchanged ?_
        rintro ⟨_, c, hc, htype, hlo, hhi⟩
        exact hnone c hc ⟨htype, by rw [hupper]; omega⟩
      · -- the limits leave no choice: the region is the one asked for
        obtain ⟨u, hu, hret⟩ := Outcome.bind_eq_done.mp hpart
        obtain ⟨rfl, rfl⟩ := Prod.mk.inj (Outcome.done.inj hret)
        have hfits := hcur.2
        rw [hupper] at hfits
        have haddr : max address cur.physicalAddress = address := by omega
        rw [haddr] at hu ⊢
        have hregion := carved_region hwf h hcur.1 (by omega) (by omega) (by omega) hu
        rw [honest_carved_iff (by omega) hregion]
        have hfree : FreeRegion address (mul64 n pageSize) g.table :=
          ⟨cur, by rw [h]; simp, hcur.1, by omega, by omega⟩
        simp [hfree]
    · obtain ⟨bug, hbug⟩ := allocateWithin_invalid (s := g) hword (add64_lt _ _) hlimits
      rw [hbug] at hpart
      cases hpart

/-- One FREE page at address 0, and the whole static table. -/
def pageZero : State :=
  ⟨fun _ _ => ⟨0, 0x1000⟩, .initial, bootAllocInitialCapacity, 1⟩

theorem wellFormed_pageZero : WellFormedTable pageZero.table := by
  have htable : pageZero.table = [⟨0, 0x1000⟩] := by decide
  rw [htable]
  refine ⟨?_, ?_, by simp⟩ <;> intro r hr <;> obtain rfl := List.mem_singleton.mp hr
  · exact ⟨by decide, by decide, by decide⟩
  · exact ⟨by decide, by decide⟩

/-- `boot_alloc(1)` hands out page 0 and returns what looks like an error. -/
theorem error_value_pageZero : WellFormedTable pageZero.table ∧ NoGrowth pageZero ∧
    ∃ t, bootAlloc 1 pageZero 1 = .done (0, t) ∧ ¬ Honest pageZero 1 0 t := by
  have hrun : (bootAlloc 1 pageZero 1).value?.map (fun p => (p.1, p.2.table)) =
      some (0, [⟨0, 0x1001⟩]) := by decide
  obtain ⟨⟨ret, t⟩, hvalue, heq⟩ := Option.map_eq_some_iff.mp hrun
  obtain ⟨rfl, htable⟩ := Prod.mk.inj heq
  refine ⟨wellFormed_pageZero, by decide, t, Outcome.value?_eq_some.mp hvalue, fun hhonest => ?_⟩
  have hsame := hhonest.1 (by decide)
  rw [htable] at hsame
  exact absurd hsame (by decide)

/-- `boot_alloc` is honest with more pages than page 0, and `boot_alloc_at` above the only page. -/
theorem error_values_honest_iff_pageZero :
    (∃ t, bootAlloc 1 (threePages 256) 1 = .done (0x3000, t) ∧ Honest (threePages 256) 1 0x3000 t) ∧
    ∃ t, bootAllocAt 1 pageZero 0x1000 1 = .done (enomem, t) ∧ Honest pageZero 1 enomem t := by
  have hlast : (bootAlloc 1 (threePages 256) 1).value?.map Prod.fst = some 0x3000 := by decide
  have habove : (bootAllocAt 1 pageZero 0x1000 1).value?.map Prod.fst = some enomem := by decide
  obtain ⟨⟨ret, t⟩, hvalue, rfl⟩ := Option.map_eq_some_iff.mp hlast
  obtain ⟨⟨ret', t'⟩, hvalue', rfl⟩ := Option.map_eq_some_iff.mp habove
  have hdone := Outcome.value?_eq_some.mp hvalue
  have hdone' := Outcome.value?_eq_some.mp hvalue'
  refine ⟨⟨t, hdone, ?_⟩, t', hdone', ?_⟩
  · refine ((error_values_honest_iff (wellFormed_threePages 256) (by decide)).1 1 _ hdone).mpr ?_
    rintro ⟨c, hc, haddr, _⟩
    obtain rfl : c = ⟨0x1000, 0x3000⟩ := List.mem_singleton.mp hc
    exact absurd haddr (by decide)
  · exact ((error_values_honest_iff wellFormed_pageZero (by decide)).2 1 0x1000 _
      (by decide) hdone').mpr fun h => absurd h.1 (by decide)

end Calls

end UltraKernel.BootAlloc
