import UltraKernel.BootAlloc.Carve
import UltraKernel.Lib.SegmentMap

/-!
# Well-formed tables

A table is well-formed when its entries are sorted, pairwise disjoint, non-empty, page-aligned and
below `2 ^ 64`.  Such a table stands for a partial function from addresses to types (`typeAt`),
through the library of segment maps: on well-formed tables the nine edits of `allocate_out_of` are
one operation, `SegmentMap.carve` (`Carved.segments`), so they update the function on the carved
interval only and keep the table well-formed.
-/

namespace UltraKernel.BootAlloc

open Word

/-! ### Sizes and types -/

namespace MemoryRange

theorem mrType_eq (r : MemoryRange) : r.mrType = r.sizeAndType % 2 := Nat.and_one_is_mod _

theorem mrType_lt (r : MemoryRange) : r.mrType < 2 := by
  rw [mrType_eq]
  omega

theorem mrSize_eq {r : MemoryRange} (h : r.sizeAndType < 2 ^ 64) :
    r.mrSize = r.sizeAndType - r.sizeAndType % 2 := and_high_mask (j := 1) h (by decide)

theorem mrSize_even (r : MemoryRange) : r.mrSize % 2 = 0 := by
  have : r.mrSize % 2 ^ 1 = r.sizeAndType % 2 ^ 1 &&& 0 := Nat.and_mod_two_pow
  simpa using this

theorem sizeAndType_eq {r : MemoryRange} (h : r.sizeAndType < 2 ^ 64) :
    r.sizeAndType = r.mrSize + r.mrType := by
  rw [mrSize_eq h, mrType_eq]
  omega

end MemoryRange

theorem mrEncode_eq {size type : ℕ} (hsize : size % 2 = 0) (htype : type < 2) :
    mrEncode size type = size + type := by
  have := Nat.two_pow_add_eq_or_of_lt (i := 1) (b := type) (by simpa using htype) (size / 2)
  have hsplit : 2 ^ 1 * (size / 2) = size := by omega
  rw [hsplit] at this
  exact this.symm

/-- An entry read back from its parts. -/
theorem mrSize_mrType_of_eq {r : MemoryRange} {z k : ℕ} (hr : r.sizeAndType = z + k)
    (hsize : z % 2 = 0) (htype : k < 2) (hword : z < 2 ^ 64) : r.mrSize = z ∧ r.mrType = k := by
  rw [MemoryRange.mrSize_eq (by omega), MemoryRange.mrType_eq]
  omega

/-! ### Ranges and tables -/

/-- A non-empty range of machine words that ends below `2 ^ 64`. -/
structure ValidRange (r : MemoryRange) : Prop where
  word : r.sizeAndType < 2 ^ 64
  nonempty : 0 < r.mrSize
  bounded : r.physicalAddress + r.mrSize < 2 ^ 64

/-- Page-aligned in address and size. -/
structure AlignedRange (r : MemoryRange) : Prop where
  address : r.physicalAddress % pageSize = 0
  size : r.mrSize % pageSize = 0

/-- **Well-formed tables.** -/
structure WellFormedTable (l : List MemoryRange) : Prop where
  valid : ∀ r ∈ l, ValidRange r
  aligned : ∀ r ∈ l, AlignedRange r
  sorted : l.Pairwise fun a b => a.physicalAddress + a.mrSize ≤ b.physicalAddress

/-- The segment of addresses an entry describes, labelled with its type. -/
def segment (r : MemoryRange) : Segment ℕ ℕ :=
  ⟨r.physicalAddress, r.physicalAddress + r.mrSize, r.mrType⟩

/-- The type a table gives an address, if it tracks it. -/
def typeAt (l : List MemoryRange) (x : ℕ) : Option ℕ := SegmentMap.denote (l.map segment) x

/-- An address lies in an entry. -/
def MemoryRange.Contains (r : MemoryRange) (x : ℕ) : Prop :=
  r.physicalAddress ≤ x ∧ x < r.physicalAddress + r.mrSize

theorem ValidRange.mrEnd_eq {r : MemoryRange} (h : ValidRange r) :
    r.mrEnd = r.physicalAddress + r.mrSize := add64_of_lt h.bounded

theorem ValidRange.canMergeRanges_iff {r : MemoryRange} (h : ValidRange r) (t : MemoryRange) :
    canMergeRanges r t ↔ (segment r).Touches (segment t) := by
  unfold canMergeRanges Segment.Touches
  rw [h.mrEnd_eq]
  rfl

/-- Sorted valid entries are an ordered segment map. -/
theorem ordered_of_sorted {l : List MemoryRange} (hvalid : ∀ r ∈ l, ValidRange r)
    (hsorted : l.Pairwise fun a b => a.physicalAddress + a.mrSize ≤ b.physicalAddress) :
    SegmentMap.Ordered (l.map segment) where
  nonempty s hs := by
    obtain ⟨r, hr, rfl⟩ := List.mem_map.mp hs
    have := (hvalid r hr).nonempty
    simp only [segment]
    omega
  sorted := List.pairwise_map.mpr hsorted

theorem WellFormedTable.ordered {l : List MemoryRange} (h : WellFormedTable l) :
    SegmentMap.Ordered (l.map segment) := ordered_of_sorted h.valid h.sorted

theorem sorted_of_ordered {l : List MemoryRange} (h : SegmentMap.Ordered (l.map segment)) :
    l.Pairwise fun a b => a.physicalAddress + a.mrSize ≤ b.physicalAddress :=
  List.pairwise_map.mp h.sorted

/-- The entries below one end at or before its start. -/
theorem WellFormedTable.before {l r : List MemoryRange} {cur : MemoryRange}
    (h : WellFormedTable (l ++ cur :: r)) {b : MemoryRange} (hb : b ∈ l) :
    b.physicalAddress + b.mrSize ≤ cur.physicalAddress :=
  (List.pairwise_append.mp h.sorted).2.2 b hb cur (List.mem_cons_self ..)

/-- The entries above one start at or after its end. -/
theorem WellFormedTable.behind {l r : List MemoryRange} {cur : MemoryRange}
    (h : WellFormedTable (l ++ cur :: r)) {a : MemoryRange} (ha : a ∈ r) :
    cur.physicalAddress + cur.mrSize ≤ a.physicalAddress :=
  (List.pairwise_cons.mp (List.pairwise_append.mp h.sorted).2.1).1 a ha

/-- The entry that holds an address is the only one. -/
theorem WellFormedTable.eq_of_contains {l r : List MemoryRange} {cur c : MemoryRange} {x : ℕ}
    (h : WellFormedTable (l ++ cur :: r)) (hcur : cur.Contains x) (hc : c.Contains x)
    (hmem : c ∈ l ++ cur :: r) : c = cur := by
  have hlo := hcur.1
  have hhi := hcur.2
  have hclo := hc.1
  have hchi := hc.2
  rcases List.mem_append.mp hmem with hmem | hmem
  · have := h.before hmem
    omega
  · rcases List.mem_cons.mp hmem with rfl | hmem
    · rfl
    · have := h.behind hmem
      omega

theorem WellFormedTable.typeAt_of_mem {l : List MemoryRange} (h : WellFormedTable l)
    {r : MemoryRange} {x : ℕ} (hr : r ∈ l) (hx : r.Contains x) : typeAt l x = some r.mrType :=
  h.ordered.denote_of_mem (List.mem_map_of_mem hr) hx

theorem exists_of_typeAt {l : List MemoryRange} {x type : ℕ} (h : typeAt l x = some type) :
    ∃ r ∈ l, r.Contains x ∧ r.mrType = type := by
  obtain ⟨s, hs, hsx, hlabel⟩ := SegmentMap.exists_of_denote_eq_some h
  obtain ⟨r, hr, rfl⟩ := List.mem_map.mp hs
  exact ⟨r, hr, hsx, hlabel⟩

theorem typeAt_eq_none_iff {l : List MemoryRange} {x : ℕ} :
    typeAt l x = none ↔ ∀ r ∈ l, ¬ r.Contains x := by
  simp only [typeAt, SegmentMap.denote_eq_none_iff, List.forall_mem_map]
  rfl

/-- The first entry that holds an address decides its type, in any table. -/
theorem typeAt_append_cons {k m : List MemoryRange} {e : MemoryRange} {x : ℕ}
    (hk : ∀ y ∈ k, ¬ y.Contains x) (he : e.Contains x) :
    typeAt (k ++ e :: m) x = some e.mrType := by
  have hnone : SegmentMap.denote (k.map segment) x = none :=
    SegmentMap.denote_eq_none_iff.mpr (List.forall_mem_map.mpr hk)
  have hcontains : (segment e).Contains x := he
  rw [typeAt, List.map_append, List.map_cons, SegmentMap.denote_append, hnone,
    SegmentMap.denote_cons, if_pos hcontains]
  rfl

/-- Entries of machine words are determined by their segments. -/
theorem eq_of_segment_eq {r t : MemoryRange} (hr : r.sizeAndType < 2 ^ 64)
    (ht : t.sizeAndType < 2 ^ 64) (h : segment r = segment t) : r = t := by
  have hr' := MemoryRange.sizeAndType_eq hr
  have ht' := MemoryRange.sizeAndType_eq ht
  simp only [segment, Segment.mk.injEq] at h
  cases r
  cases t
  simp only [MemoryRange.mk.injEq]
  simp only at h hr' ht'
  omega

/-! ### The pieces of a split and the result of a merge -/

/-- The new entry lies inside the current one, at an even distance from both ends. -/
structure Inside (new cur : MemoryRange) : Prop where
  lo_le : cur.physicalAddress ≤ new.physicalAddress
  le_hi : new.physicalAddress + new.mrSize ≤ cur.physicalAddress + cur.mrSize

section Pieces

variable {cur new : MemoryRange}

theorem Inside.part (h : Inside new cur) (hnew : ValidRange new) :
    SegmentMap.Part (segment new) (segment cur) :=
  ⟨h.lo_le, by have := hnew.nonempty; simp only [segment]; omega, h.le_hi⟩

theorem Inside.valid_bounds (h : Inside new cur) (hcur : ValidRange cur) (hnew : ValidRange new) :
    ¬ (cur.physicalAddress > new.physicalAddress ∨ cur.mrEnd < new.mrEnd) := by
  have := h.lo_le
  have := h.le_hi
  rw [hcur.mrEnd_eq, hnew.mrEnd_eq]
  omega

/-- Nothing is left of an entry below its own start. -/
theorem mrLhsPiece_none (hstart : new.physicalAddress = cur.physicalAddress)
    (hword : cur.physicalAddress < 2 ^ 64) : (mrLhsPiece cur new).mrSize = 0 := by
  have hparts : (mrLhsPiece cur new).sizeAndType = 0 + cur.mrType := by
    rw [mrLhsPiece, hstart, sub64_of_le le_rfl hword, Nat.sub_self]
    exact mrEncode_eq rfl cur.mrType_lt
  exact (mrSize_mrType_of_eq hparts rfl cur.mrType_lt (by decide)).1

/-- Nothing is left of an entry above its own end. -/
theorem mrRhsPiece_none (hend : new.mrEnd = cur.mrEnd) : (mrRhsPiece cur new).mrSize = 0 := by
  have hword : cur.mrEnd < 2 ^ 64 := add64_lt _ _
  have hparts : (mrRhsPiece cur new).sizeAndType = 0 + cur.mrType := by
    rw [mrRhsPiece, hend, sub64_of_le le_rfl hword, Nat.sub_self]
    exact mrEncode_eq rfl cur.mrType_lt
  exact (mrSize_mrType_of_eq hparts rfl cur.mrType_lt (by decide)).1

theorem mrLhsPiece_eq (h : Inside new cur) (hcur : ValidRange cur)
    (heven : (new.physicalAddress - cur.physicalAddress) % 2 = 0) :
    (mrLhsPiece cur new).mrSize = new.physicalAddress - cur.physicalAddress ∧
      (mrLhsPiece cur new).mrType = cur.mrType ∧ (mrLhsPiece cur new).sizeAndType < 2 ^ 64 := by
  have hle := h.lo_le
  have hhi := h.le_hi
  have hbound := hcur.bounded
  have htype := cur.mrType_lt
  have hsub := sub64_of_le hle (by omega)
  have hparts : (mrLhsPiece cur new).sizeAndType =
      (new.physicalAddress - cur.physicalAddress) + cur.mrType := by
    rw [mrLhsPiece, hsub, mrEncode_eq heven htype]
  obtain ⟨hsize, htype'⟩ := mrSize_mrType_of_eq hparts heven htype (by omega)
  exact ⟨hsize, htype', by omega⟩

theorem mrRhsPiece_eq (h : Inside new cur) (hcur : ValidRange cur) (hnew : ValidRange new)
    (heven : (cur.physicalAddress + cur.mrSize - (new.physicalAddress + new.mrSize)) % 2 = 0) :
    (mrRhsPiece cur new).mrSize =
        cur.physicalAddress + cur.mrSize - (new.physicalAddress + new.mrSize) ∧
      (mrRhsPiece cur new).mrType = cur.mrType ∧
      (mrRhsPiece cur new).physicalAddress = new.physicalAddress + new.mrSize ∧
      (mrRhsPiece cur new).sizeAndType < 2 ^ 64 := by
  have hhi := h.le_hi
  have hbound := hcur.bounded
  have hbound' := hnew.bounded
  have htype := cur.mrType_lt
  have hsub := sub64_of_le (a := cur.mrEnd) (b := new.mrEnd)
    (by rw [hcur.mrEnd_eq, hnew.mrEnd_eq]; omega) (by rw [hcur.mrEnd_eq]; omega)
  rw [hcur.mrEnd_eq, hnew.mrEnd_eq] at hsub
  have hparts : (mrRhsPiece cur new).sizeAndType =
      (cur.physicalAddress + cur.mrSize - (new.physicalAddress + new.mrSize)) + cur.mrType := by
    rw [mrRhsPiece, hcur.mrEnd_eq, hnew.mrEnd_eq, hsub, mrEncode_eq heven htype]
  obtain ⟨hsize, htype'⟩ := mrSize_mrType_of_eq hparts heven htype (by omega)
  exact ⟨hsize, htype', hnew.mrEnd_eq, by omega⟩

/-- **A merge of two touching entries**, in either direction, covers both. -/
theorem mergeRanges_eq {a b : MemoryRange} (ha : ValidRange a) (hb : ValidRange b)
    (h : (segment a).Touches (segment b)) :
    mergeRanges b a = mergeRanges a b ∧ ValidRange (mergeRanges a b) ∧
      segment (mergeRanges a b) = ⟨(segment a).lo, (segment b).hi, (segment b).label⟩ := by
  obtain ⟨htype, htouch⟩ := h
  simp only [segment] at htype htouch
  have ha' := MemoryRange.sizeAndType_eq ha.word
  have hb' := MemoryRange.sizeAndType_eq hb.word
  have hpos := ha.nonempty
  have hbound := hb.bounded
  have heven := a.mrSize_even
  have heven' := b.mrSize_even
  have htype' := b.mrType_lt
  have hleft : mergeRanges a b = ⟨a.physicalAddress, a.mrSize + b.mrSize + b.mrType⟩ := by
    rw [mergeRanges, if_neg (by omega), add64_of_lt (by omega), ha', htype]
    congr 1
    omega
  have hright : mergeRanges b a = ⟨a.physicalAddress, a.mrSize + b.mrSize + b.mrType⟩ := by
    rw [mergeRanges, if_pos (by omega), add64_of_lt (by omega), hb']
    congr 1
    omega
  obtain ⟨hsize, hmtype⟩ := mrSize_mrType_of_eq (r := mergeRanges a b)
    (z := a.mrSize + b.mrSize) (k := b.mrType) (by rw [hleft]) (by omega) htype' (by omega)
  refine ⟨hright.trans hleft.symm, ⟨by rw [hleft]; simp only; omega, by omega, ?_⟩, ?_⟩
  · rw [hsize, hleft]
    simp only
    omega
  · simp only [segment, hsize, hmtype, Segment.mk.injEq, and_true]
    rw [hleft]
    exact ⟨rfl, by simp only; omega⟩

theorem AlignedRange.merge {a b : MemoryRange} (hva : ValidRange a) (hvb : ValidRange b)
    (h : (segment a).Touches (segment b)) (ha : AlignedRange a) (hb : AlignedRange b) :
    AlignedRange (mergeRanges a b) := by
  obtain ⟨_, _, hseg⟩ := mergeRanges_eq hva hvb h
  have htouch := h.2
  simp only [segment, Segment.mk.injEq] at hseg htouch
  have h1 := ha.address
  have h2 := ha.size
  have h3 := hb.size
  constructor <;> simp only [pageSize] at * <;> omega

end Pieces

/-! ### Carving -/

section Carving

variable {cur new : MemoryRange} {l r m : List MemoryRange}

theorem AlignedRange.even_sub {a b : MemoryRange} (ha : AlignedRange a) (hb : AlignedRange b) :
    (b.physicalAddress - a.physicalAddress) % 2 = 0 ∧
      (a.physicalAddress + a.mrSize - (b.physicalAddress + b.mrSize)) % 2 = 0 := by
  have h1 := ha.address
  have h2 := ha.size
  have h3 := hb.address
  have h4 := hb.size
  simp only [pageSize] at h1 h2 h3 h4
  omega

theorem NoMergeBefore.segment (h : NoMergeBefore l new) (hl : ∀ b ∈ l, ValidRange b) :
    ∀ t ∈ (l.map segment).getLast?, ¬ t.Touches (segment new) := by
  intro t ht
  rw [List.getLast?_map] at ht
  obtain ⟨b, hb, rfl⟩ := Option.map_eq_some_iff.mp ht
  rw [← (hl b (List.mem_of_getLast? hb)).canMergeRanges_iff]
  exact h b hb

theorem NoMergeAfter.segment (h : NoMergeAfter new r) (hnew : ValidRange new) :
    ∀ t ∈ (r.map segment).head?, ¬ (BootAlloc.segment new).Touches t := by
  intro t ht
  rw [List.head?_map] at ht
  obtain ⟨a, ha, rfl⟩ := Option.map_eq_some_iff.mp ht
  rw [← hnew.canMergeRanges_iff]
  exact h a ha

/-- Valid and page-aligned. -/
def GoodRange (r : MemoryRange) : Prop := ValidRange r ∧ AlignedRange r

theorem WellFormedTable.good (h : WellFormedTable l) : ∀ r ∈ l, GoodRange r :=
  fun r hr => ⟨h.valid r hr, h.aligned r hr⟩

/-- The piece below, as an entry and as a segment. -/
theorem lowPiece_segment (hin : Inside new cur) (hcur : GoodRange cur) (hnew : GoodRange new) :
    ((mrLhsPiece cur new).mrSize ≠ 0 → GoodRange (mrLhsPiece cur new)) ∧
      SegmentMap.lowPiece (segment cur) (segment new) =
        if (mrLhsPiece cur new).mrSize ≠ 0 then [segment (mrLhsPiece cur new)] else [] := by
  have hlo := hin.lo_le
  have hhi := hin.le_hi
  have hbound := hcur.1.bounded
  obtain ⟨hsize, htype, hword⟩ := mrLhsPiece_eq hin hcur.1 (hcur.2.even_sub hnew.2).1
  have haddr : (mrLhsPiece cur new).physicalAddress = cur.physicalAddress := rfl
  have h1 := hcur.2.address
  have h2 := hnew.2.address
  refine ⟨fun hne => ⟨⟨hword, by omega, by omega⟩, h1, ?_⟩, ?_⟩
  · simp only [pageSize] at *
    omega
  · unfold SegmentMap.lowPiece
    split_ifs with hlt hne hne
    · simp only [segment, hsize, htype, haddr, List.cons.injEq, Segment.mk.injEq, and_true, true_and]
      omega
    · exact absurd hlt (by simp only [segment]; omega)
    · exact absurd hlt (by simp only [segment]; omega)
    · rfl

/-- The piece above, as an entry and as a segment. -/
theorem highPiece_segment (hin : Inside new cur) (hcur : GoodRange cur) (hnew : GoodRange new) :
    ((mrRhsPiece cur new).mrSize ≠ 0 → GoodRange (mrRhsPiece cur new)) ∧
      SegmentMap.highPiece (segment cur) (segment new) =
        if (mrRhsPiece cur new).mrSize ≠ 0 then [segment (mrRhsPiece cur new)] else [] := by
  have hlo := hin.lo_le
  have hhi := hin.le_hi
  have hbound := hcur.1.bounded
  obtain ⟨hsize, htype, haddr, hword⟩ :=
    mrRhsPiece_eq hin hcur.1 hnew.1 (hcur.2.even_sub hnew.2).2
  have h1 := hcur.2.address
  have h2 := hcur.2.size
  have h3 := hnew.2.address
  have h4 := hnew.2.size
  refine ⟨fun hne => ⟨⟨hword, by omega, by omega⟩, ?_, ?_⟩, ?_⟩
  · simp only [pageSize] at *
    omega
  · simp only [pageSize] at *
    omega
  · unfold SegmentMap.highPiece
    split_ifs with hlt hne hne
    · simp only [segment, hsize, htype, haddr, List.cons.injEq, Segment.mk.injEq, and_true, true_and]
      omega
    · exact absurd hlt (by simp only [segment]; omega)
    · exact absurd hlt (by simp only [segment]; omega)
    · rfl

/-- A merge of two good touching entries, in either direction. -/
theorem GoodRange.merge {a b : MemoryRange} (ha : GoodRange a) (hb : GoodRange b)
    (h : canMergeRanges a b) :
    GoodRange (mergeRanges a b) ∧ mergeRanges b a = mergeRanges a b ∧
      segment (mergeRanges a b) = ⟨(segment a).lo, (segment b).hi, (segment b).label⟩ := by
  rw [ha.1.canMergeRanges_iff] at h
  obtain ⟨hcomm, hvalid, hseg⟩ := mergeRanges_eq ha.1 hb.1 h
  exact ⟨⟨hvalid, .merge ha.1 hb.1 h ha.2 hb.2⟩, hcomm, hseg⟩

/-- **On good entries the nine edits are one operation**: carving the segment of `new` out of the
segment of `cur`.  The result has good entries again. -/
theorem Carved.segments (hc : Carved cur new l r m) (hin : Inside new cur)
    (htype : cur.mrType ≠ new.mrType) (hgood : ∀ x ∈ l ++ cur :: r, GoodRange x)
    (hnew : GoodRange new) :
    m.map segment = SegmentMap.carve (l.map segment) (segment cur) (r.map segment) (segment new) ∧
      ∀ x ∈ m, GoodRange x := by
  have hcur : GoodRange cur := hgood cur (by simp)
  obtain ⟨hlgood, hlow⟩ := lowPiece_segment hin hcur hnew
  obtain ⟨hrgood, hhigh⟩ := highPiece_segment hin hcur hnew
  obtain ⟨_, hltype, _⟩ := mrLhsPiece_eq hin hcur.1 (hcur.2.even_sub hnew.2).1
  obtain ⟨_, hrtype, _⟩ := mrRhsPiece_eq hin hcur.1 hnew.1 (hcur.2.even_sub hnew.2).2
  -- a piece never touches the new segment: its type differs
  have hleft : ∀ t ∈ (l.map segment ++ [segment (mrLhsPiece cur new)]).getLast?,
      ¬ t.Touches (segment new) := by
    intro t ht htouch
    obtain rfl : segment (mrLhsPiece cur new) = t := by simpa using ht
    exact htype (hltype.symm.trans htouch.1)
  have hright : ∀ s : Segment ℕ ℕ, s.label = (segment new).label →
      ∀ t ∈ (segment (mrRhsPiece cur new) :: r.map segment).head?, ¬ s.Touches t := by
    intro s hs t ht htouch
    obtain rfl : segment (mrRhsPiece cur new) = t := by simpa using ht
    exact htype (hrtype.symm.trans (htouch.1.symm.trans hs))
  have hmid : ∀ x ∈ l, GoodRange x := fun x hx => hgood x (by simp [hx])
  have hmid' : ∀ x ∈ r, GoodRange x := fun x hx => hgood x (by simp [hx])
  have hmap : ∀ (k : List MemoryRange) (b : MemoryRange),
      (k ++ [b]).map segment = k.map segment ++ [segment b] := fun k b => by simp
  unfold SegmentMap.carve
  rw [hlow, hhigh]
  cases hc with
  | case1 hl hr =>
    rw [if_pos hl, if_pos hr, List.singleton_append,
      SegmentMap.glue_eq (SegmentMap.glueLeft_of_not hleft)
        (SegmentMap.glueRight_of_not (hright _ rfl))]
    refine ⟨by simp, ?_⟩
    simp only [List.forall_mem_append, List.forall_mem_cons]
    exact ⟨hmid, hlgood hl, hnew, hrgood hr, hmid'⟩
  | @case2a l b r hl hr hb =>
    obtain ⟨hmerge, _, hseg⟩ := (hmid b (by simp)).merge hnew hb
    rw [(hmid b (by simp)).1.canMergeRanges_iff] at hb
    rw [if_neg (not_not.mpr hl), if_pos hr, List.append_nil, hmap, List.singleton_append,
      SegmentMap.glue_eq (SegmentMap.glueLeft_of_touches hb)
        (SegmentMap.glueRight_of_not (hright _ rfl))]
    refine ⟨by simp [hseg], ?_⟩
    simp only [List.forall_mem_append, List.forall_mem_cons] at hmid ⊢
    exact ⟨hmid.1, hmerge, hrgood hr, hmid'⟩
  | case2b hl hr hb =>
    rw [if_neg (not_not.mpr hl), if_pos hr, List.append_nil, List.singleton_append,
      SegmentMap.glue_eq (SegmentMap.glueLeft_of_not (hb.segment fun x hx => (hmid x hx).1))
        (SegmentMap.glueRight_of_not (hright _ rfl))]
    refine ⟨by simp, ?_⟩
    simp only [List.forall_mem_append, List.forall_mem_cons]
    exact ⟨hmid, hnew, hrgood hr, hmid'⟩
  | @case3a l a r hl hr ha =>
    obtain ⟨hmerge, hcomm, hseg⟩ := hnew.merge (hmid' a (by simp)) ha
    rw [hnew.1.canMergeRanges_iff] at ha
    rw [if_pos hl, if_neg (not_not.mpr hr), List.nil_append, List.map_cons, hcomm,
      SegmentMap.glue_eq (SegmentMap.glueLeft_of_not hleft) (SegmentMap.glueRight_of_touches ha)]
    refine ⟨by simp [hseg, ha.1], ?_⟩
    simp only [List.forall_mem_append, List.forall_mem_cons] at hmid' ⊢
    exact ⟨hmid, hlgood hl, hmerge, hmid'.2⟩
  | case3b hl hr ha =>
    rw [if_pos hl, if_neg (not_not.mpr hr), List.nil_append,
      SegmentMap.glue_eq (SegmentMap.glueLeft_of_not hleft)
        (SegmentMap.glueRight_of_not (ha.segment hnew.1))]
    refine ⟨by simp, ?_⟩
    simp only [List.forall_mem_append, List.forall_mem_cons]
    exact ⟨hmid, hlgood hl, hnew, hmid'⟩
  | case4a hl hr hb ha =>
    have haddr : cur.physicalAddress = new.physicalAddress := by
      have := (mrLhsPiece_eq hin hcur.1 (hcur.2.even_sub hnew.2).1).1
      have := hin.lo_le
      omega
    have hsame : ({ cur with sizeAndType := new.sizeAndType } : MemoryRange) = new := by
      cases new
      simp [haddr]
    rw [if_neg (not_not.mpr hl), if_neg (not_not.mpr hr), List.append_nil, List.nil_append, hsame,
      SegmentMap.glue_eq (SegmentMap.glueLeft_of_not (hb.segment fun x hx => (hmid x hx).1))
        (SegmentMap.glueRight_of_not (ha.segment hnew.1))]
    refine ⟨by simp, ?_⟩
    simp only [List.forall_mem_append, List.forall_mem_cons]
    exact ⟨hmid, hnew, hmid'⟩
  | @case4b l b a r hl hr hb ha =>
    obtain ⟨hmerge, _, hseg⟩ := (hmid b (by simp)).merge hnew hb
    have ha' : canMergeRanges (mergeRanges b new) a := by
      rw [hmerge.1.canMergeRanges_iff, hseg]
      exact (hnew.1.canMergeRanges_iff a).mp ha
    obtain ⟨hmerge', _, hseg'⟩ := hmerge.merge (hmid' a (by simp)) ha'
    rw [(hmid b (by simp)).1.canMergeRanges_iff] at hb
    rw [hnew.1.canMergeRanges_iff] at ha
    rw [if_neg (not_not.mpr hl), if_neg (not_not.mpr hr), List.append_nil, List.nil_append, hmap,
      List.map_cons, SegmentMap.glue_eq (SegmentMap.glueLeft_of_touches hb)
        (SegmentMap.glueRight_of_touches ⟨ha.1, ha.2⟩)]
    refine ⟨by simp [hseg', hseg, ha.1], ?_⟩
    simp only [List.forall_mem_append, List.forall_mem_cons] at hmid hmid' ⊢
    exact ⟨hmid.1, hmerge', hmid'.2⟩
  | @case4c l b r hl hr hb ha =>
    obtain ⟨hmerge, _, hseg⟩ := (hmid b (by simp)).merge hnew hb
    rw [(hmid b (by simp)).1.canMergeRanges_iff] at hb
    have hno := ha.segment hnew.1
    rw [if_neg (not_not.mpr hl), if_neg (not_not.mpr hr), List.append_nil, List.nil_append, hmap,
      SegmentMap.glue_eq (SegmentMap.glueLeft_of_touches hb)
        (SegmentMap.glueRight_of_not fun t ht htouch => hno t ht ⟨htouch.1, htouch.2⟩)]
    refine ⟨by simp [hseg], ?_⟩
    simp only [List.forall_mem_append, List.forall_mem_cons] at hmid ⊢
    exact ⟨hmid.1, hmerge, hmid'⟩
  | @case4d l a r hl hr hb ha =>
    obtain ⟨hmerge, hcomm, hseg⟩ := hnew.merge (hmid' a (by simp)) ha
    rw [hnew.1.canMergeRanges_iff] at ha
    rw [if_neg (not_not.mpr hl), if_neg (not_not.mpr hr), List.append_nil, List.nil_append,
      List.map_cons, hcomm,
      SegmentMap.glue_eq (SegmentMap.glueLeft_of_not (hb.segment fun x hx => (hmid x hx).1))
        (SegmentMap.glueRight_of_touches ha)]
    refine ⟨by simp [hseg, ha.1], ?_⟩
    simp only [List.forall_mem_append, List.forall_mem_cons] at hmid' ⊢
    exact ⟨hmid, hmerge, hmid'.2⟩

end Carving

/-! ### Updates of a table -/

/-- No two touching entries of one type. -/
def CoalescedTable (l : List MemoryRange) : Prop := SegmentMap.Coalesced (l.map segment)

/-- The interval from `lo` to `hi` lies inside one entry. -/
def Within (l : List MemoryRange) (lo hi : ℕ) : Prop :=
  ∃ r ∈ l, r.physicalAddress ≤ lo ∧ hi ≤ r.physicalAddress + r.mrSize

theorem within_iff {l : List MemoryRange} {lo hi : ℕ} :
    Within l lo hi ↔ SegmentMap.Within (l.map segment) lo hi := by
  simp [Within, SegmentMap.Within, segment]

instance (r : MemoryRange) (x : ℕ) : Decidable (r.Contains x) := inferInstanceAs (Decidable (_ ∧ _))

/-- The table `m` is the table `l` with the interval of `new` given the type of `new`. -/
structure Updates (l : List MemoryRange) (new : MemoryRange) (m : List MemoryRange) : Prop where
  wellFormed : WellFormedTable m
  typeAt : ∀ x, typeAt m x = if new.Contains x then some new.mrType else typeAt l x
  coalesced : CoalescedTable l → CoalescedTable m
  within : Within m new.physicalAddress (new.physicalAddress + new.mrSize)
  within_beside : ∀ lo hi, lo < hi →
    hi ≤ new.physicalAddress ∨ new.physicalAddress + new.mrSize ≤ lo → Within l lo hi →
    Within m lo hi

/-- **Carving an aligned range out of a well-formed table updates the table.** -/
theorem Carved.updates {cur new : MemoryRange} {l r m : List MemoryRange}
    (hc : Carved cur new l r m) (hwf : WellFormedTable (l ++ cur :: r)) (hin : Inside new cur)
    (htype : cur.mrType ≠ new.mrType) (hnew : GoodRange new) : Updates (l ++ cur :: r) new m := by
  obtain ⟨hseg, hgood⟩ := hc.segments hin htype hwf.good hnew
  have hord := hwf.ordered
  rw [List.map_append, List.map_cons] at hord
  have hpart := hin.part hnew.1
  obtain ⟨hord', hden⟩ := hord.carve hpart
  obtain ⟨hself, hbeside⟩ := hord.within_carve hpart
  have hmap : (l ++ cur :: r).map segment = l.map segment ++ segment cur :: r.map segment := by simp
  refine ⟨⟨fun x hx => (hgood x hx).1, fun x hx => (hgood x hx).2, ?_⟩, fun x => ?_, fun h => ?_,
    ?_, fun lo hi hne hside h => ?_⟩
  · exact sorted_of_ordered (hseg ▸ hord')
  · rw [BootAlloc.typeAt, BootAlloc.typeAt, hseg, hmap, hden x]
    rfl
  · rw [CoalescedTable, hmap] at h
    rw [CoalescedTable, hseg]
    exact h.carve
  · rw [within_iff, hseg]
    exact hself
  · rw [within_iff, hmap] at h
    rw [within_iff, hseg]
    exact hbeside lo hi hne hside h

/-- A well-formed coalesced table is determined by the types it gives. -/
theorem eq_of_typeAt_eq {l m : List MemoryRange} (hl : WellFormedTable l) (hm : WellFormedTable m)
    (hcl : CoalescedTable l) (hcm : CoalescedTable m) (h : typeAt l = typeAt m) : l = m := by
  have hseg := SegmentMap.eq_of_denote_eq hl.ordered hm.ordered hcl hcm h
  refine List.ext_getElem (by simpa using congrArg List.length hseg) fun i hi hi' => ?_
  refine eq_of_segment_eq (hl.valid _ (List.getElem_mem hi)).word
    (hm.valid _ (List.getElem_mem hi')).word ?_
  have := congrArg (fun k => k[i]?) hseg
  simpa [hi, hi'] using this

end UltraKernel.BootAlloc
