import UltraKernel.BootAlloc.Model
import Mathlib.Data.List.Basic

/-!
# Edits of the table as list edits

Each write of the allocator goes to the live array and moves `g_entry_count` with it.  Read as
edits of the list `State.table`, they are the replacement of one entry, the insertion of one
entry, and the removal of a block of entries; everything outside the live array is untouched
(`Frame`).
-/

namespace UltraKernel.BootAlloc

/-- What no edit of the table changes: the pointer, the capacity and the other arrays. -/
structure Frame (s t : State) : Prop where
  gBuffer : t.gBuffer = s.gBuffer
  gCapacity : t.gCapacity = s.gCapacity
  memory : ∀ b, b ≠ s.gBuffer → t.memory b = s.memory b

theorem Frame.refl (s : State) : Frame s s := ⟨rfl, rfl, fun _ _ => rfl⟩

theorem Frame.trans {s t u : State} (h : Frame s t) (h' : Frame t u) : Frame s u where
  gBuffer := h'.gBuffer.trans h.gBuffer
  gCapacity := h'.gCapacity.trans h.gCapacity
  memory b hb := (h'.memory b (h.gBuffer ▸ hb)).trans (h.memory b hb)

theorem Frame.count {s : State} (n : ℕ) : Frame s { s with gEntryCount := n } :=
  ⟨rfl, rfl, fun _ _ => rfl⟩

namespace State

theorem entry_setEntry (s : State) (idx i : ℕ) (mr : MemoryRange) :
    (s.setEntry idx mr).entry i = if i = idx then mr else s.entry i := by
  simp [entry, setEntry, Function.update_apply]

theorem entry_moveEntries (s : State) (dst src count i : ℕ) :
    (s.moveEntries dst src count).entry i =
      if dst ≤ i ∧ i < dst + count then s.entry (src + (i - dst)) else s.entry i := by
  simp [entry, moveEntries]

@[simp] theorem gEntryCount_setEntry (s : State) (idx : ℕ) (mr : MemoryRange) :
    (s.setEntry idx mr).gEntryCount = s.gEntryCount := rfl

@[simp] theorem gCapacity_setEntry (s : State) (idx : ℕ) (mr : MemoryRange) :
    (s.setEntry idx mr).gCapacity = s.gCapacity := rfl

theorem frame_setEntry (s : State) (idx : ℕ) (mr : MemoryRange) : Frame s (s.setEntry idx mr) :=
  ⟨rfl, rfl, fun b hb => by simp [setEntry, hb]⟩

theorem frame_moveEntries (s : State) (dst src count : ℕ) :
    Frame s (s.moveEntries dst src count) :=
  ⟨rfl, rfl, fun b hb => by simp [moveEntries, hb]⟩

@[simp] theorem length_table (s : State) : s.table.length = s.gEntryCount := by simp [table]

/-- The table is the list whose elements are the entries in use. -/
theorem table_eq_iff {s : State} {l : List MemoryRange} :
    s.table = l ↔ s.gEntryCount = l.length ∧ ∀ i < l.length, l[i]? = some (s.entry i) := by
  constructor
  · rintro rfl
    refine ⟨by simp, fun i hi => ?_⟩
    rw [length_table] at hi
    simp [table, hi]
  · rintro ⟨hlen, hget⟩
    apply List.ext_getElem?
    intro i
    rcases Nat.lt_or_ge i l.length with hi | hi
    · rw [hget i hi]
      simp [table, hlen, hi]
    · rw [List.getElem?_eq_none hi, List.getElem?_eq_none (by simpa [hlen] using hi)]

theorem entry_of_table {s : State} {l r : List MemoryRange} {mr : MemoryRange}
    (h : s.table = l ++ mr :: r) : s.entry l.length = mr := by
  have := (table_eq_iff.mp h).2 l.length (by simp)
  simpa using this.symm

theorem exists_entry_of_mem {s : State} {l r : List MemoryRange} {mr : MemoryRange}
    (h : s.table = l ++ r) (hmr : mr ∈ l) : ∃ i < l.length, s.entry i = mr := by
  obtain ⟨i, hi, rfl⟩ := List.getElem_of_mem hmr
  refine ⟨i, hi, ?_⟩
  have := (table_eq_iff.mp h).2 i (by simp; omega)
  rw [List.getElem?_append_left hi, List.getElem?_eq_getElem hi] at this
  exact (Option.some.inj this).symm

theorem gEntryCount_of_table {s : State} {l : List MemoryRange} (h : s.table = l) :
    s.gEntryCount = l.length := by rw [← h, length_table]

theorem table_setEntry {s : State} {l r : List MemoryRange} {old : MemoryRange}
    (h : s.table = l ++ old :: r) (mr : MemoryRange) :
    (s.setEntry l.length mr).table = l ++ mr :: r := by
  obtain ⟨hlen, hget⟩ := table_eq_iff.mp h
  refine table_eq_iff.mpr ⟨by simpa using hlen, fun i hi => ?_⟩
  rw [entry_setEntry]
  split_ifs with heq
  · simp [heq]
  · rw [← hget i (by simpa using hi)]
    grind

end State

/-! ### Insertion -/

theorem bugOn_of_not {expr : Prop} [Decidable expr] {bug : Bug} (h : ¬ expr) :
    bugOn expr bug = .done () := if_neg h

/-- A check that passes is dropped. -/
theorem bugOn_bind_of_not {β : Type} {expr : Prop} [Decidable expr] {bug : Bug} (h : ¬ expr)
    (f : Unit → Outcome Bug β) : (bugOn expr bug >>= f) = f () := by
  rw [bugOn_of_not h, Outcome.done_bind]

theorem bugOn_of {expr : Prop} [Decidable expr] {bug : Bug} (h : expr) :
    bugOn expr bug = .halt bug := if_pos h

theorem bugOn_eq_done {expr : Prop} [Decidable expr] {bug : Bug} {u : Unit} :
    bugOn expr bug = .done u ↔ ¬ expr := by
  unfold bugOn
  split_ifs with h <;> simp [h]

theorem rangeInsert_spec {s : State} {l r : List MemoryRange} (mr : MemoryRange)
    (h : { s with gEntryCount := l.length + r.length }.table = l ++ r) :
    ∃ t, rangeInsert { s with gEntryCount := l.length + r.length + 1 } mr l.length
        (l.length + r.length) = .done t ∧ t.table = l ++ mr :: r ∧ Frame s t := by
  obtain ⟨_, hget⟩ := State.table_eq_iff.mp h
  have hentry : ∀ i < (l ++ r).length, (l ++ r)[i]? = some (s.entry i) := hget
  unfold rangeInsert
  rw [bugOn_of_not (by simp), Outcome.done_bind]
  split_ifs with heq
  · -- an append: nothing is moved
    refine ⟨_, rfl, State.table_eq_iff.mpr ⟨by simp; omega, fun i hi => ?_⟩,
      (Frame.count _).trans (State.frame_setEntry _ _ _)⟩
    obtain rfl : r = [] := List.length_eq_zero_iff.mp (by omega)
    rw [State.entry_setEntry]
    split_ifs with hil
    · simp [hil]
    · have hlt : i < l.length := by simp at hi; omega
      have := hentry i (by simpa using hlt)
      rw [List.append_nil] at this
      rw [List.getElem?_append_left hlt, this]
      rfl
  · refine ⟨_, rfl, State.table_eq_iff.mpr ⟨by simp [State.moveEntries]; omega, fun i hi => ?_⟩,
      ((Frame.count _).trans (State.frame_moveEntries _ _ _ _)).trans (State.frame_setEntry _ _ _)⟩
    rw [State.entry_setEntry, State.entry_moveEntries]
    simp only [List.length_append, List.length_cons] at hi hentry
    split_ifs with hil hmoved
    · simp [hil]
    · -- an entry of `r`, read one place up
      rw [List.getElem?_append_right (by omega), show i - l.length = (i - l.length - 1) + 1 by omega,
        List.getElem?_cons_succ]
      have := hentry (l.length + (i - (l.length + 1))) (by omega)
      rw [List.getElem?_append_right (by omega)] at this
      rw [show i - l.length - 1 = l.length + (i - (l.length + 1)) - l.length by omega, this]
      rfl
    · have hlt : i < l.length := by omega
      have := hentry i (by omega)
      rw [List.getElem?_append_left hlt] at this ⊢
      exact this

/-- **Insertion**, when a slot is free. -/
theorem rangeEmplaceAt_spec {s : State} {l r : List MemoryRange} (mr : MemoryRange)
    (h : s.table = l ++ r) (hfree : s.gEntryCount < s.gCapacity) :
    ∃ t, rangeEmplaceAt s l.length mr = .done t ∧ t.table = l ++ mr :: r ∧ Frame s t := by
  have hcount : s.gEntryCount = l.length + r.length := by
    simpa using State.gEntryCount_of_table h
  obtain ⟨t, ht, htable, hframe⟩ := rangeInsert_spec (s := s) mr (l := l) (r := r) (by
    rw [← hcount]
    exact h)
  refine ⟨t, ?_, htable, hframe⟩
  unfold rangeEmplaceAt
  rw [bugOn_of_not (by omega), Outcome.done_bind, bugOn_of_not (by omega), Outcome.done_bind,
    hcount]
  exact ht

theorem rangeEmplaceAt_full {s : State} {l r : List MemoryRange} (mr : MemoryRange)
    (h : s.table = l ++ r) (hfull : s.gCapacity ≤ s.gEntryCount) :
    rangeEmplaceAt s l.length mr = .halt .tableFull := by
  have hcount : s.gEntryCount = l.length + r.length := by
    simpa using State.gEntryCount_of_table h
  unfold rangeEmplaceAt
  rw [bugOn_of_not (by omega), Outcome.done_bind, bugOn_of (by omega), Outcome.halt_bind]

/-! ### Removal -/

/-- **Removal** of the entries between `mr_idx` and `mr_after`. -/
theorem closeGap_spec {s : State} {l m r : List MemoryRange} {i : Option ℕ}
    (h : s.table = l ++ (m ++ r))
    (hafter : i = some (l.length + m.length) ∨ i = none ∧ r = []) :
    (closeGap s l.length i m.length).table = l ++ r ∧
      Frame s (closeGap s l.length i m.length) := by
  obtain ⟨hcount, hget⟩ := State.table_eq_iff.mp h
  simp only [List.length_append] at hcount hget
  rcases hafter with rfl | ⟨rfl, rfl⟩
  · refine ⟨State.table_eq_iff.mpr ⟨?_, fun i hi => ?_⟩,
      (State.frame_moveEntries _ _ _ _).trans (Frame.count _)⟩
    · simp [closeGap, State.moveEntries, hcount]
      omega
    · simp only [List.length_append] at hi
      change _ = some ((s.moveEntries l.length (l.length + m.length)
        (s.gEntryCount - (l.length + m.length))).entry i)
      rw [State.entry_moveEntries]
      split_ifs with hmoved
      · rw [List.getElem?_append_right hmoved.1, ← hget _ (by omega),
          List.getElem?_append_right (by omega), List.getElem?_append_right (by omega)]
        congr 1
        omega
      · have hlt : i < l.length := by omega
        rw [← hget i (by omega), List.getElem?_append_left hlt, List.getElem?_append_left hlt]
  · refine ⟨State.table_eq_iff.mpr ⟨?_, fun i hi => ?_⟩, Frame.count _⟩
    · simp only [List.length_nil] at hcount
      simp [closeGap, hcount]
    · simp only [List.append_nil] at hi ⊢
      change _ = some (s.entry i)
      rw [← hget i (by omega), List.getElem?_append_left hi]

end UltraKernel.BootAlloc
