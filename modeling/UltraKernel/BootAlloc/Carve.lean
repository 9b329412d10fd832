import UltraKernel.BootAlloc.Edit

/-!
# The cases of `allocate_out_of`

`Carved l cur r new m` lists, under the numbers of the source's own comment, the tables `m` that
carving `new` out of the entry `cur` between `l` and `r` can give.  `allocateOutOf_eq` says that
the array program performs exactly these edits, and stops on a full table exactly when the edit
needs a slot that is not there.  Nothing here depends on the table being well-formed.
-/

namespace UltraKernel.BootAlloc

/-- No entry right before merges with `new`. -/
def NoMergeBefore (l : List MemoryRange) (new : MemoryRange) : Prop :=
  ∀ b ∈ l.getLast?, ¬ canMergeRanges b new

/-- No entry right after merges with `new`. -/
def NoMergeAfter (new : MemoryRange) (r : List MemoryRange) : Prop :=
  ∀ a ∈ r.head?, ¬ canMergeRanges new a

/-- The cases of `allocate_out_of`, as edits of the list of entries. -/
inductive Carved (cur new : MemoryRange) :
    List MemoryRange → List MemoryRange → List MemoryRange → Prop
  | case1 {l r} : (mrLhsPiece cur new).mrSize ≠ 0 → (mrRhsPiece cur new).mrSize ≠ 0 →
      Carved cur new l r (l ++ mrLhsPiece cur new :: new :: mrRhsPiece cur new :: r)
  | case2a {l b r} : (mrLhsPiece cur new).mrSize = 0 → (mrRhsPiece cur new).mrSize ≠ 0 →
      canMergeRanges b new →
      Carved cur new (l ++ [b]) r (l ++ mergeRanges b new :: mrRhsPiece cur new :: r)
  | case2b {l r} : (mrLhsPiece cur new).mrSize = 0 → (mrRhsPiece cur new).mrSize ≠ 0 →
      NoMergeBefore l new → Carved cur new l r (l ++ new :: mrRhsPiece cur new :: r)
  | case3a {l a r} : (mrLhsPiece cur new).mrSize ≠ 0 → (mrRhsPiece cur new).mrSize = 0 →
      canMergeRanges new a →
      Carved cur new l (a :: r) (l ++ mrLhsPiece cur new :: mergeRanges a new :: r)
  | case3b {l r} : (mrLhsPiece cur new).mrSize ≠ 0 → (mrRhsPiece cur new).mrSize = 0 →
      NoMergeAfter new r → Carved cur new l r (l ++ mrLhsPiece cur new :: new :: r)
  | case4a {l r} : (mrLhsPiece cur new).mrSize = 0 → (mrRhsPiece cur new).mrSize = 0 →
      NoMergeBefore l new → NoMergeAfter new r →
      Carved cur new l r (l ++ { cur with sizeAndType := new.sizeAndType } :: r)
  | case4b {l b a r} : (mrLhsPiece cur new).mrSize = 0 → (mrRhsPiece cur new).mrSize = 0 →
      canMergeRanges b new → canMergeRanges new a →
      Carved cur new (l ++ [b]) (a :: r) (l ++ mergeRanges (mergeRanges b new) a :: r)
  | case4c {l b r} : (mrLhsPiece cur new).mrSize = 0 → (mrRhsPiece cur new).mrSize = 0 →
      canMergeRanges b new → NoMergeAfter new r →
      Carved cur new (l ++ [b]) r (l ++ mergeRanges b new :: r)
  | case4d {l a r} : (mrLhsPiece cur new).mrSize = 0 → (mrRhsPiece cur new).mrSize = 0 →
      NoMergeBefore l new → canMergeRanges new a →
      Carved cur new l (a :: r) (l ++ mergeRanges a new :: r)

/-- An edit adds and removes at most two entries. -/
theorem Carved.length_le {cur new : MemoryRange} {l r m : List MemoryRange}
    (h : Carved cur new l r m) :
    m.length ≤ l.length + 1 + r.length + worstCaseGrowthPerAllocation ∧
      l.length + 1 + r.length ≤ m.length + worstCaseGrowthPerAllocation := by
  unfold worstCaseGrowthPerAllocation
  cases h <;> simp <;> omega

/-! ### Neighbours -/

theorem entryIs_rangeBefore {s : State} {p : MemoryRange → Prop} {l r : List MemoryRange}
    (h : s.table = l ++ r) : entryIs s p (rangeBefore l.length) ↔ ∃ b ∈ l.getLast?, p b := by
  rcases List.eq_nil_or_concat l with rfl | ⟨l', b, rfl⟩
  · simp [entryIs, rangeBefore]
  · rw [List.concat_eq_append] at h ⊢
    have hb : s.entry l'.length = b := State.entry_of_table (r := r) (by simpa using h)
    simp [entryIs, rangeBefore, hb]

theorem entryIs_rangeAfter {s : State} {p : MemoryRange → Prop} {l r : List MemoryRange}
    {cur : MemoryRange} (h : s.table = l ++ cur :: r) :
    entryIs s p (rangeAfter s l.length) ↔ ∃ a ∈ r.head?, p a := by
  have hcount : s.gEntryCount = l.length + (r.length + 1) := by
    simpa using State.gEntryCount_of_table h
  cases r with
  | nil =>
    have : rangeAfter s l.length = none := if_pos (by simp at hcount; omega)
    simp [entryIs, this]
  | cons a r =>
    have hafter : rangeAfter s l.length = some (l.length + 1) :=
      if_neg (by simp at hcount; omega)
    have ha : s.entry (l ++ [cur]).length = a := State.entry_of_table (r := r) (by simpa using h)
    rw [List.length_append] at ha
    simp only [entryIs, hafter, Option.mem_some_iff, exists_eq_left', List.head?_cons]
    exact iff_of_eq (congrArg p ha)

theorem rangeAfter_eq {s : State} {l r : List MemoryRange} {cur : MemoryRange}
    (h : s.table = l ++ cur :: r) :
    rangeAfter s l.length = some (l.length + 1) ∨ rangeAfter s l.length = none ∧ r = [] := by
  have hcount : s.gEntryCount = l.length + (r.length + 1) := by
    simpa using State.gEntryCount_of_table h
  unfold rangeAfter
  split_ifs with hlast
  · exact Or.inr ⟨rfl, List.length_eq_zero_iff.mp (by omega)⟩
  · exact Or.inl rfl

/-- Merging into the entry before. -/
theorem mergeInto_before {s : State} {l r : List MemoryRange} {b : MemoryRange} (src : MemoryRange)
    (h : s.table = l ++ b :: r) :
    (mergeInto s (rangeBefore (l.length + 1)) src).table = l ++ mergeRanges b src :: r ∧
      Frame s (mergeInto s (rangeBefore (l.length + 1)) src) := by
  simp only [rangeBefore, Nat.add_one_ne_zero, if_false, Nat.add_sub_cancel, mergeInto,
    State.entry_of_table h]
  exact ⟨State.table_setEntry h _, State.frame_setEntry _ _ _⟩

/-- Merging into the entry after. -/
theorem mergeInto_after {s : State} {l r : List MemoryRange} {cur a : MemoryRange}
    (src : MemoryRange) (h : s.table = l ++ cur :: a :: r) :
    (mergeInto s (some (l.length + 1)) src).table = l ++ cur :: mergeRanges a src :: r ∧
      Frame s (mergeInto s (some (l.length + 1)) src) := by
  have h' : s.table = (l ++ [cur]) ++ a :: r := by simpa using h
  have ha := State.entry_of_table h'
  have hset := State.table_setEntry h' (mergeRanges a src)
  rw [List.length_append] at ha hset
  simp only [mergeInto]
  simp only [List.length_singleton] at ha hset
  rw [ha]
  exact ⟨by simpa using hset, State.frame_setEntry _ _ _⟩

/-! ### The array program -/

/-- What `allocate_out_of` does when the edit gives the table `m`: it needs the slots of `m`. -/
def Performs (s : State) (run : Outcome Bug State) (m : List MemoryRange) : Prop :=
  if m.length ≤ max s.gEntryCount s.gCapacity then
    ∃ t, run = .done t ∧ t.table = m ∧ Frame s t
  else run = .halt .tableFull

theorem Performs.of_done {s t : State} {run : Outcome Bug State} {m : List MemoryRange}
    (hrun : run = .done t) (ht : t.table = m) (hframe : Frame s t)
    (hlen : m.length ≤ s.gEntryCount) : Performs s run m := by
  unfold Performs
  rw [if_pos (hlen.trans (le_max_left _ _))]
  exact ⟨t, hrun, ht, hframe⟩

/-- One insertion after writes that kept the number of entries. -/
theorem performs_emplace {s t : State} {l r : List MemoryRange} (mr : MemoryRange)
    (ht : t.table = l ++ r) (hframe : Frame s t) (hcount : t.gEntryCount = s.gEntryCount) :
    Performs s (rangeEmplaceAt t l.length mr) (l ++ mr :: r) := by
  have hlen : (l ++ mr :: r).length = s.gEntryCount + 1 := by
    have := State.gEntryCount_of_table ht
    simp only [List.length_append, List.length_cons] at this ⊢
    omega
  have hcap := hframe.gCapacity
  unfold Performs
  split_ifs with hfree
  · obtain ⟨u, hu, hutable, huframe⟩ := rangeEmplaceAt_spec mr ht (by omega)
    exact ⟨u, hu, hutable, hframe.trans huframe⟩
  · exact rangeEmplaceAt_full mr ht (by omega)

/-- Case 4 performs one of its four edits, none of which needs a slot. -/
theorem allocateEntire_eq {s : State} {l r : List MemoryRange} {cur new : MemoryRange}
    (h : s.table = l ++ cur :: r) (hl : (mrLhsPiece cur new).mrSize = 0)
    (hr : (mrRhsPiece cur new).mrSize = 0) :
    ∃ m, Carved cur new l r m ∧ m.length ≤ s.gEntryCount ∧
      (allocateEntire s l.length new).table = m ∧ Frame s (allocateEntire s l.length new) := by
  have hcount : s.gEntryCount = l.length + (r.length + 1) := by
    simpa using State.gEntryCount_of_table h
  have hafter := rangeAfter_eq h
  unfold allocateEntire
  simp only [entryIs_rangeBefore h, entryIs_rangeAfter h, State.entry_of_table h]
  by_cases hb : ∃ b ∈ l.getLast?, canMergeRanges b new <;>
    by_cases ha : ∃ a ∈ r.head?, canMergeRanges new a <;>
    simp only [hb, ha, not_true_eq_false, not_false_eq_true, and_self, and_true, and_false,
      if_true, if_false]
  · -- case 4b: the entry before takes in `new`, then the entry after
    obtain ⟨b, hbl, hbm⟩ := hb
    obtain ⟨a, har, ham⟩ := ha
    obtain ⟨l, rfl⟩ := List.getLast?_eq_some_iff.mp hbl
    obtain ⟨r, rfl⟩ := List.head?_eq_some_iff.mp har
    refine ⟨_, .case4b hl hr hbm ham, by simp at hcount ⊢; omega, ?_⟩
    have hlen : (l ++ [b]).length = l.length + 1 := by simp
    rw [hlen] at hafter ⊢
    obtain ⟨ht, hframe⟩ := mergeInto_before new (h.trans (by simp : _ = l ++ b :: cur :: a :: r))
    have hread : (mergeInto s (rangeBefore (l.length + 1)) new).entry (l.length + 1 + 1) = a := by
      have := State.entry_of_table (ht.trans (by simp : _ = (l ++ [mergeRanges b new, cur]) ++ a :: r))
      simpa using this
    obtain ⟨ht', hframe'⟩ := mergeInto_before a ht
    rw [hread]
    have hgap := closeGap_spec (l := l ++ [mergeRanges (mergeRanges b new) a]) (m := [cur, a])
      (r := r) (i := (rangeAfter s (l.length + 1)).map (· + 1)) (ht'.trans (by simp))
      (by rcases hafter with hsome | ⟨_, hnil⟩ <;> simp_all)
    simp only [List.length_append, List.length_cons, List.length_nil] at hgap
    exact ⟨by simpa using hgap.1, (hframe.trans hframe').trans hgap.2⟩
  · -- case 4c
    obtain ⟨b, hbl, hbm⟩ := hb
    obtain ⟨l, rfl⟩ := List.getLast?_eq_some_iff.mp hbl
    refine ⟨_, .case4c hl hr hbm (by simpa [NoMergeAfter] using ha), by simp at hcount ⊢; omega, ?_⟩
    have hlen : (l ++ [b]).length = l.length + 1 := by simp
    rw [hlen] at hafter ⊢
    obtain ⟨ht, hframe⟩ := mergeInto_before new (h.trans (by simp : _ = l ++ b :: cur :: r))
    have hgap := closeGap_spec (l := l ++ [mergeRanges b new]) (m := [cur]) (r := r)
      (i := rangeAfter s (l.length + 1)) (ht.trans (by simp)) (by simpa using hafter)
    simp only [List.length_append, List.length_singleton] at hgap
    exact ⟨by simpa using hgap.1, hframe.trans hgap.2⟩
  · -- case 4d
    obtain ⟨a, har, ham⟩ := ha
    obtain ⟨r, rfl⟩ := List.head?_eq_some_iff.mp har
    refine ⟨_, .case4d hl hr (by simpa [NoMergeBefore] using hb) ham,
      by simp at hcount ⊢; omega, ?_⟩
    have hsome : rangeAfter s l.length = some (l.length + 1) := by simpa using hafter
    rw [hsome]
    obtain ⟨ht, hframe⟩ := mergeInto_after new h
    have hgap := closeGap_spec (l := l) (m := [cur]) (r := mergeRanges a new :: r)
      (i := some (l.length + 1)) (ht.trans (by simp)) (by simp)
    exact ⟨hgap.1, hframe.trans hgap.2⟩
  · -- case 4a
    refine ⟨_, .case4a hl hr (by simpa [NoMergeBefore] using hb)
      (by simpa [NoMergeAfter] using ha), by simp at hcount ⊢; omega, ?_⟩
    exact ⟨State.table_setEntry h _, State.frame_setEntry _ _ _⟩

/-- **`allocate_out_of` performs one of the edits**, and needs a slot only for the entries the
edit adds. -/
theorem allocateOutOf_eq {s : State} {l r : List MemoryRange} {cur new : MemoryRange}
    (h : s.table = l ++ cur :: r)
    (hin : ¬ (cur.physicalAddress > new.physicalAddress ∨ cur.mrEnd < new.mrEnd))
    (htype : cur.mrType ≠ new.mrType) :
    ∃ m, Carved cur new l r m ∧ Performs s (allocateOutOf s l.length new) m := by
  have hcount : s.gEntryCount = l.length + (r.length + 1) := by
    simpa using State.gEntryCount_of_table h
  have hset : ∀ mr, (s.setEntry l.length mr).table = (l ++ [mr]) ++ r := fun mr => by
    rw [State.table_setEntry h mr, List.append_assoc, List.singleton_append]
  have hidx : ∀ mr : MemoryRange, (l ++ [mr]).length = l.length + 1 := fun mr => by simp
  unfold allocateOutOf
  simp only [State.entry_of_table h, bugOn_of_not hin, bugOn_of_not htype, Outcome.done_bind,
    Outcome.pure_eq, entryIs_rangeBefore h, entryIs_rangeAfter h]
  by_cases hl : (mrLhsPiece cur new).mrSize = 0 <;>
    by_cases hr : (mrRhsPiece cur new).mrSize = 0 <;>
    simp only [hl, hr, ne_eq, not_true_eq_false, not_false_eq_true, and_false, and_true, and_self,
      if_false, if_true]
  · -- case 4
    obtain ⟨m, hm, hlen, htable, hframe⟩ := allocateEntire_eq h hl hr
    exact ⟨m, hm, .of_done rfl htable hframe hlen⟩
  · -- case 2
    by_cases hb : ∃ b ∈ l.getLast?, canMergeRanges b new <;> simp only [hb, if_true, if_false]
    · obtain ⟨b, hbl, hbm⟩ := hb
      obtain ⟨l, rfl⟩ := List.getLast?_eq_some_iff.mp hbl
      refine ⟨_, .case2a hl hr hbm, ?_⟩
      obtain ⟨ht, hframe⟩ := mergeInto_before new (h.trans (by simp : _ = l ++ b :: cur :: r))
      have hset' := State.table_setEntry
        (ht.trans (by simp : _ = (l ++ [mergeRanges b new]) ++ cur :: r)) (mrRhsPiece cur new)
      have hlen : ∀ x : MemoryRange, (l ++ [x]).length = l.length + 1 := fun x => by simp
      rw [hlen] at hset' ⊢
      refine .of_done rfl (by simpa using hset') (hframe.trans (State.frame_setEntry _ _ _)) ?_
      simp at hcount ⊢
      omega
    · refine ⟨_, .case2b hl hr (by simpa [NoMergeBefore] using hb), ?_⟩
      have := performs_emplace (mrRhsPiece cur new) (hset new) (State.frame_setEntry _ _ _) rfl
      simpa [hidx] using this
  · -- case 3
    by_cases ha : ∃ a ∈ r.head?, canMergeRanges new a <;> simp only [ha, if_true, if_false]
    · obtain ⟨a, har, ham⟩ := ha
      obtain ⟨r, rfl⟩ := List.head?_eq_some_iff.mp har
      refine ⟨_, .case3a hl hr ham, ?_⟩
      have hsome : rangeAfter s l.length = some (l.length + 1) := by simpa using rangeAfter_eq h
      obtain ⟨ht, hframe⟩ := mergeInto_after new (State.table_setEntry h (mrLhsPiece cur new))
      rw [hsome]
      refine .of_done rfl ht ((State.frame_setEntry _ _ _).trans hframe) ?_
      simp at hcount ⊢
      omega
    · refine ⟨_, .case3b hl hr (by simpa [NoMergeAfter] using ha), ?_⟩
      have := performs_emplace new (hset (mrLhsPiece cur new)) (State.frame_setEntry _ _ _) rfl
      simpa [hidx] using this
  · -- case 1: two insertions
    refine ⟨_, .case1 hl hr, ?_⟩
    have hlhs := hset (mrLhsPiece cur new)
    have hlen : (l ++ mrLhsPiece cur new :: new :: mrRhsPiece cur new :: r).length =
        s.gEntryCount + 2 := by
      simp only [List.length_append, List.length_cons]
      omega
    unfold Performs
    split_ifs with hfree
    · obtain ⟨t, ht, htable, hframe⟩ := rangeEmplaceAt_spec new hlhs (by simp; omega)
      have hcount' := State.gEntryCount_of_table htable
      have htable' : t.table = (l ++ [mrLhsPiece cur new, new]) ++ r := by simpa using htable
      have hcap := hframe.gCapacity
      obtain ⟨u, hu, hutable, huframe⟩ := rangeEmplaceAt_spec (mrRhsPiece cur new) htable' (by
        simp at hcount' hcap ⊢
        omega)
      refine ⟨u, ?_, by simpa using hutable,
        ((State.frame_setEntry _ _ _).trans hframe).trans huframe⟩
      rw [hidx] at ht
      rw [ht, Outcome.done_bind]
      simpa using hu
    · by_cases hone : s.gEntryCount < s.gCapacity
      · obtain ⟨t, ht, htable, hframe⟩ := rangeEmplaceAt_spec new hlhs (by simpa using hone)
        have hcount' := State.gEntryCount_of_table htable
        have htable' : t.table = (l ++ [mrLhsPiece cur new, new]) ++ r := by simpa using htable
        have hcap := hframe.gCapacity
        have hfull := rangeEmplaceAt_full (mrRhsPiece cur new) htable' (by
          simp at hcount' hcap ⊢
          omega)
        rw [hidx] at ht
        rw [ht, Outcome.done_bind]
        simpa using hfull
      · have hfull := rangeEmplaceAt_full new hlhs (by simp; omega)
        rw [hidx] at hfull
        rw [hfull, Outcome.halt_bind]

end UltraKernel.BootAlloc
