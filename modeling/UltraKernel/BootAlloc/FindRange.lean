import UltraKernel.BootAlloc.Grow

/-!
# What `find_range` returns, and what it reads

The search is stated once more with its reads as a parameter, so that a read outside of the table
can be told from the others.

* `findRangeOn_checked`: it is `find_range` with reads that stop outside of the table;
* `Finds`: what is to be returned;
* `findRange_finds`: this, and nothing else, is returned.
-/

namespace UltraKernel.BootAlloc

open Outcome

/-! ### Reads -/

/-- The loop of `find_range`, where `read` is `g_buffer[idx]`. -/
def findRangeLoopOn (read : ℤ → Outcome Bug MemoryRange) (value : ℕ) :
    ℕ → ℤ → ℤ → Outcome Bug (ℤ ⊕ ℤ × ℤ)
  | fuel, left, right =>
    if left ≤ right then
      match fuel with
      | 0 => .outOfFuel
      | fuel + 1 => do
        let middle := left + (right - left) / 2
        let mr ← read middle
        if mr.physicalAddress < value then findRangeLoopOn read value fuel (middle + 1) right
        else if value < mr.physicalAddress then findRangeLoopOn read value fuel left (middle - 1)
        else return .inl middle
    else .done (.inr (left, right))

/-- Whether the entry at `right`, if there is one, has `value` inside. -/
def insideOn (read : ℤ → Outcome Bug MemoryRange) (value : ℕ) (right : ℤ) : Outcome Bug Bool :=
  if right ≥ 0 then do
    let mr ← read right
    return decide (mr.physicalAddress < value ∧ value < mr.mrEnd)
  else return false

/-- `find_range`, in a table of `gEntryCount` entries. -/
def findRangeOn (read : ℤ → Outcome Bug MemoryRange) (gEntryCount value : ℕ)
    (allowAbove : AllowOneAbove) : Outcome Bug ℤ := do
  match ← findRangeLoopOn read value gEntryCount 0 (gEntryCount - 1) with
  | .inl middle => return middle
  | .inr (left, right) =>
    if ← insideOn read value right then return right
    else
      let left := if left = gEntryCount then -1 else left
      return if allowAbove = .yes then left else -1

/-- A read that stops where the index is not one of an entry. -/
def State.readChecked (s : State) (outside : Bug) (idx : ℤ) : Outcome Bug MemoryRange :=
  if 0 ≤ idx ∧ idx < s.gEntryCount then .done (s.entry idx.toNat) else .halt outside

section Reads

variable {s : State} {value : ℕ} {outside : Bug}

theorem State.readChecked_of {idx : ℤ} (h : 0 ≤ idx) (hcount : idx < s.gEntryCount) :
    s.readChecked outside idx = .done (s.entry idx.toNat) := if_pos ⟨h, hcount⟩

/-- The loop reads between its bounds. -/
theorem findRangeLoopOn_checked (fuel : ℕ) {left right : ℤ} (hleft : 0 ≤ left)
    (hright : right < s.gEntryCount) :
    findRangeLoopOn (s.readChecked outside) value fuel left right =
      findRangeLoop s value fuel left right := by
  induction fuel generalizing left right with
  | zero => rw [findRangeLoopOn, findRangeLoop]
  | succ fuel ih =>
    rw [findRangeLoopOn, findRangeLoop]
    by_cases hle : left ≤ right
    · rw [if_pos hle, if_pos hle]
      have hmiddle : 0 ≤ left + (right - left) / 2 := by omega
      have hcount : left + (right - left) / 2 < s.gEntryCount := by omega
      dsimp only
      rw [State.readChecked_of hmiddle hcount, done_bind, ih (by omega) hright,
        ih hleft (by omega)]
      rfl
    · rw [if_neg hle, if_neg hle]

/-- **No index is read that is not one of an entry.** -/
theorem findRangeOn_checked (mode : AllowOneAbove) :
    findRangeOn (s.readChecked outside) s.gEntryCount value mode = findRange s value mode := by
  rw [findRangeOn, findRange, findRangeLoopOn_checked _ le_rfl (by omega)]
  rcases findRangeLoop_start s value with ⟨k, hk, -, hrun⟩ | ⟨k, hk, hrun, -⟩
  · rw [hrun]
    rfl
  · rw [hrun, done_bind, done_bind]
    dsimp only
    by_cases hright : (k : ℤ) - 1 ≥ 0
    · rw [insideOn, if_pos hright, State.readChecked_of hright (by omega), done_bind, pure_eq,
        done_bind]
      simp only [hright, true_and, decide_eq_true_eq]
    · rw [insideOn, if_neg hright, pure_eq, done_bind]
      simp only [hright, false_and, if_false, Bool.false_eq_true]

end Reads

/-! ### Results -/

/-- **What is to be returned**: the entry that has the value inside, the first one above it if this
is allowed, or -1. -/
inductive Finds (s : State) (value : ℕ) : AllowOneAbove → ℤ → Prop
  | inside {mode : AllowOneAbove} {i : ℕ} (hi : i < s.gEntryCount)
      (hin : (s.entry i).Contains value) : Finds s value mode i
  | above {i : ℕ} (hi : i < s.gEntryCount)
      (hout : ∀ j < s.gEntryCount, ¬ (s.entry j).Contains value)
      (hlt : value < (s.entry i).physicalAddress)
      (hfirst : ∀ j < i, (s.entry j).physicalAddress ≤ value) : Finds s value .yes i
  | noneAbove (hout : ∀ j < s.gEntryCount, ¬ (s.entry j).Contains value)
      (hle : ∀ j < s.gEntryCount, (s.entry j).physicalAddress ≤ value) : Finds s value .yes (-1)
  | outside (hout : ∀ j < s.gEntryCount, ¬ (s.entry j).Contains value) : Finds s value .no (-1)

section Results

variable {s : State} {l r : List MemoryRange} {value : ℕ} {mode : AllowOneAbove} {idx : ℤ}

theorem State.exists_entry {x : MemoryRange} (hx : x ∈ s.table) :
    ∃ j < s.gEntryCount, s.entry j = x := by
  obtain ⟨j, hj, rfl⟩ := List.mem_map.mp hx
  exact ⟨j, List.mem_range.mp hj, rfl⟩

/-- The entries up to an index, and those from it on. -/
theorem State.exists_append {i : ℕ} (hi : i ≤ s.gEntryCount) :
    ∃ l r, s.table = l ++ r ∧ l.length = i ∧ (∀ x ∈ l, ∃ j < i, s.entry j = x) ∧
      ∀ x ∈ r, ∃ j, i ≤ j ∧ j < s.gEntryCount ∧ s.entry j = x := by
  refine ⟨s.table.take i, s.table.drop i, (List.take_append_drop i _).symm, by simpa using hi,
    ?_, ?_⟩
  · intro x hx
    obtain ⟨j, hj, rfl⟩ := List.mem_take_iff_getElem.mp hx
    exact ⟨j, by omega, by simp [State.table]⟩
  · intro x hx
    obtain ⟨j, hj, rfl⟩ := List.mem_drop_iff_getElem.mp hx
    rw [State.length_table] at hj
    exact ⟨i + j, by omega, by omega, by simp [State.table]⟩

/-- Below a gap, the entries end at or below the value. -/
theorem end_le {x : MemoryRange} (hout : ¬ x.Contains value) (hle : x.physicalAddress ≤ value) :
    x.physicalAddress + x.mrSize ≤ value := by
  by_contra hend
  exact hout ⟨hle, not_le.mp hend⟩

/-- **What is to be returned is returned.** -/
theorem Finds.findRange (hwf : WellFormedTable s.table) (h : Finds s value mode idx) :
    findRange s value mode = .done idx := by
  cases h with
  | inside hi hin =>
    obtain ⟨l, cur, r, htable, rfl⟩ := State.exists_split hi
    rw [State.entry_of_table htable] at hin
    exact findRange_of_contains hwf htable hin mode
  | @above i hi hout hlt hfirst =>
    obtain ⟨l, r, htable, rfl, hl, hr⟩ := State.exists_append hi.le
    have hbelow : ∀ x ∈ l, x.physicalAddress + x.mrSize ≤ value := by
      intro x hx
      obtain ⟨j, hj, rfl⟩ := hl x hx
      exact end_le (hout j (hj.trans hi)) (hfirst j hj)
    have habove : ∀ x ∈ r, value < x.physicalAddress := by
      intro x hx
      obtain ⟨j, hij, hj, rfl⟩ := hr x hx
      rcases Nat.eq_or_lt_of_le hij with heq | hlt'
      · rwa [← heq]
      · exact hlt.trans (hwf.entry_lt hlt' hj)
    have hne : r ≠ [] := by
      rintro rfl
      have hcount := State.gEntryCount_of_table htable
      rw [List.append_nil] at hcount
      omega
    rw [findRange_of_gap hwf htable hbelow habove, if_pos ⟨rfl, hne⟩]
  | noneAbove hout hle =>
    have hbelow : ∀ x ∈ s.table, x.physicalAddress + x.mrSize ≤ value := by
      intro x hx
      obtain ⟨j, hj, rfl⟩ := State.exists_entry hx
      exact end_le (hout j hj) (hle j hj)
    rw [findRange_of_gap hwf (List.append_nil _).symm hbelow (List.forall_mem_nil _),
      if_neg fun hgo => hgo.2 rfl]
  | outside hout =>
    rcases exists_split value hwf with ⟨l, cur, r, htable, hin⟩ | ⟨l, r, htable, hl, hr⟩
    · obtain ⟨j, hj, rfl⟩ := State.exists_entry (s := s) (x := cur) (by simp [htable])
      exact absurd hin (hout j hj)
    · rw [findRange_of_gap hwf htable hl hr, if_neg fun hgo => absurd hgo.1 (by decide)]

/-- Something is to be returned. -/
theorem exists_finds (s : State) (value : ℕ) (mode : AllowOneAbove) :
    ∃ idx, Finds s value mode idx := by
  by_cases hin : ∃ i < s.gEntryCount, (s.entry i).Contains value
  · obtain ⟨i, hi, hc⟩ := hin
    exact ⟨i, .inside hi hc⟩
  · have hout : ∀ j < s.gEntryCount, ¬ (s.entry j).Contains value := by simpa using hin
    cases mode with
    | no => exact ⟨-1, .outside hout⟩
    | yes =>
      by_cases hle : ∀ j < s.gEntryCount, (s.entry j).physicalAddress ≤ value
      · exact ⟨-1, .noneAbove hout hle⟩
      · have habove : ∃ i, i < s.gEntryCount ∧ value < (s.entry i).physicalAddress := by
          simpa using hle
        obtain ⟨hi, hlt⟩ := Nat.find_spec habove
        refine ⟨Nat.find habove, .above hi hout hlt fun j hj => ?_⟩
        by_contra hstart
        exact Nat.find_min habove hj ⟨hj.trans hi, not_le.mp hstart⟩

/-- **`find_range`** ends, reads no index outside of the table, and returns exactly what is to be
returned. -/
theorem findRange_finds (hwf : WellFormedTable s.table) (value : ℕ) (mode : AllowOneAbove)
    (outside : Bug) :
    ∃ idx, findRange s value mode = .done idx ∧
      findRangeOn (s.readChecked outside) s.gEntryCount value mode = .done idx ∧
      ∀ k, Finds s value mode k ↔ k = idx := by
  obtain ⟨idx, hidx⟩ := exists_finds s value mode
  refine ⟨idx, hidx.findRange hwf, (findRangeOn_checked mode).trans (hidx.findRange hwf), ?_⟩
  intro k
  constructor
  · intro hk
    exact Outcome.done.inj ((hk.findRange hwf).symm.trans (hidx.findRange hwf))
  · rintro rfl
    exact hidx

/-- Below the three pages, the first entry above is found. -/
theorem findRange_finds_threePages : ∃ idx, findRange (threePages 4) 0x800 .yes = .done idx ∧
    findRangeOn ((threePages 4).readChecked .invalidFree) 1 0x800 .yes = .done idx ∧
    ∀ k, Finds (threePages 4) 0x800 .yes k ↔ k = idx :=
  findRange_finds (wellFormed_threePages 4) 0x800 .yes .invalidFree

end Results

end UltraKernel.BootAlloc
