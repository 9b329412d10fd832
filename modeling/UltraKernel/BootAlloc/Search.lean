import UltraKernel.BootAlloc.Table

/-!
# Searching a well-formed table

What the three searches of the allocator find, stated on splits of the table.

* `findRange_of_contains`, `findRange_of_gap`: the binary search of `find_range` returns the entry
  that holds the value, and otherwise the first one above it (or none);
* `topDownLoop_of_offers`, `topDownLoop_of_forall_not`: the scan of `allocate_top_down` stops at
  the highest FREE entry that is large enough;
* `withinLoop_of_fits`, `withinLoop_of_forall_not`: the scan of `allocate_within` stops at the
  lowest FREE entry whose part between the limits is large enough.
-/

namespace UltraKernel.BootAlloc

open Word

section Entries

variable {s : State}

theorem State.entry_mem {i : ℕ} (hi : i < s.gEntryCount) : s.entry i ∈ s.table :=
  List.mem_map.mpr ⟨i, List.mem_range.mpr hi, rfl⟩

/-- Entries of a well-formed table, by index. -/
theorem WellFormedTable.entry_le (hwf : WellFormedTable s.table) {i j : ℕ} (hij : i < j)
    (hj : j < s.gEntryCount) :
    (s.entry i).physicalAddress + (s.entry i).mrSize ≤ (s.entry j).physicalAddress := by
  have := List.pairwise_iff_getElem.mp hwf.sorted i j (by simp; omega) (by simpa using hj) hij
  simpa [State.table] using this

theorem WellFormedTable.entry_lt (hwf : WellFormedTable s.table) {i j : ℕ} (hij : i < j)
    (hj : j < s.gEntryCount) : (s.entry i).physicalAddress < (s.entry j).physicalAddress := by
  have := hwf.entry_le hij hj
  have := (hwf.valid _ (State.entry_mem (hij.trans hj))).nonempty
  omega

theorem State.entry_of_append {l r : List MemoryRange} (h : s.table = l ++ r) {i : ℕ}
    (hi : i < l.length) : s.entry i ∈ l := by
  have hget := (State.table_eq_iff.mp h).2 i (by simp; omega)
  rw [List.getElem?_append_left hi] at hget
  exact List.mem_of_getElem? hget

theorem State.entry_of_append_right {l r : List MemoryRange} (h : s.table = l ++ r) {i : ℕ}
    (hi : l.length ≤ i) (hcount : i < s.gEntryCount) : s.entry i ∈ r := by
  have hlen := State.gEntryCount_of_table h
  have hget := (State.table_eq_iff.mp h).2 i (by omega)
  rw [List.getElem?_append_right hi] at hget
  exact List.mem_of_getElem? hget

end Entries

/-! ### `find_range` -/

/-- The entries start at ascending addresses. -/
def SortedStarts (s : State) : Prop := ∀ i j, i < j → j < s.gEntryCount →
  (s.entry i).physicalAddress < (s.entry j).physicalAddress

/-- All entries below `left` start below `value`, and all above `right` start above it. -/
def Brackets (s : State) (value : ℕ) (left right : ℤ) : Prop :=
  (∀ i : ℕ, (i : ℤ) < left → (s.entry i).physicalAddress < value) ∧
    ∀ i : ℕ, right < i → i < s.gEntryCount → value < (s.entry i).physicalAddress

/-- **The binary search** ends on any table, at an entry that starts at `value` or at bounds that
meet; on a sorted table the bounds still bracket the value. -/
theorem findRangeLoop_spec {s : State} (value : ℕ) (fuel : ℕ) (left right : ℤ) (hleft : 0 ≤ left)
    (hright : right < s.gEntryCount) (hbounds : left ≤ right + 1)
    (hfuel : right + 1 - left ≤ fuel) :
    (∃ k : ℕ, k < s.gEntryCount ∧ (s.entry k).physicalAddress = value ∧
      findRangeLoop s value fuel left right = .done (.inl k)) ∨
    ∃ k : ℕ, k ≤ s.gEntryCount ∧
      findRangeLoop s value fuel left right = .done (.inr (k, (k : ℤ) - 1)) ∧
      (SortedStarts s → Brackets s value left right → Brackets s value k (k - 1)) := by
  induction fuel generalizing left right with
  | zero =>
    obtain ⟨k, rfl⟩ := Int.eq_ofNat_of_zero_le hleft
    obtain rfl : right = (k : ℤ) - 1 := by simp at hfuel; omega
    exact Or.inr ⟨k, by omega, by simp [findRangeLoop], fun _ h => h⟩
  | succ fuel ih =>
    unfold findRangeLoop
    by_cases hle : left ≤ right
    · -- the middle lies between the bounds, so each branch leaves a shorter window
      obtain ⟨middle, hmiddle⟩ : ∃ middle : ℕ, left + (right - left) / 2 = middle :=
        Int.eq_ofNat_of_zero_le (by omega)
      have hcount : middle < s.gEntryCount := by omega
      simp only [if_pos hle, hmiddle, Int.toNat_natCast]
      split_ifs with hlt hgt
      · refine (ih (middle + 1) right (by omega) hright (by omega)
          (by push_cast at hfuel; omega)).imp_right ?_
        rintro ⟨k, hk, heq, hbrackets⟩
        refine ⟨k, hk, heq, fun hsorted h => hbrackets hsorted ⟨fun i hi => ?_, h.2⟩⟩
        rcases Nat.lt_or_ge i middle with hi' | hi'
        · exact (hsorted i middle hi' hcount).trans hlt
        · obtain rfl : i = middle := by omega
          exact hlt
      · refine (ih left (middle - 1) hleft (by omega) (by omega)
          (by push_cast at hfuel; omega)).imp_right ?_
        rintro ⟨k, hk, heq, hbrackets⟩
        refine ⟨k, hk, heq, fun hsorted h => hbrackets hsorted ⟨h.1, fun i hi hi' => ?_⟩⟩
        rcases Nat.lt_or_ge middle i with hi'' | hi''
        · exact hgt.trans (hsorted middle i hi'' hi')
        · obtain rfl : i = middle := by omega
          exact hgt
      · exact Or.inl ⟨middle, hcount, by omega, rfl⟩
    · obtain ⟨k, rfl⟩ := Int.eq_ofNat_of_zero_le hleft
      obtain rfl : right = (k : ℤ) - 1 := by omega
      exact Or.inr ⟨k, by omega, by simp [hle], fun _ h => h⟩

/-- The loop as `find_range` starts it. -/
theorem findRangeLoop_start (s : State) (value : ℕ) :
    (∃ k : ℕ, k < s.gEntryCount ∧ (s.entry k).physicalAddress = value ∧
      findRangeLoop s value s.gEntryCount 0 (s.gEntryCount - 1) = .done (.inl k)) ∨
    ∃ k : ℕ, k ≤ s.gEntryCount ∧
      findRangeLoop s value s.gEntryCount 0 (s.gEntryCount - 1) = .done (.inr (k, (k : ℤ) - 1)) ∧
      (SortedStarts s → (∀ i < k, (s.entry i).physicalAddress < value) ∧
        ∀ i, k ≤ i → i < s.gEntryCount → value < (s.entry i).physicalAddress) := by
  refine (findRangeLoop_spec value s.gEntryCount 0 (s.gEntryCount - 1) le_rfl (by omega) (by omega)
    (by omega)).imp_right ?_
  rintro ⟨k, hk, heq, hbrackets⟩
  refine ⟨k, hk, heq, fun hsorted => ?_⟩
  obtain ⟨hbelow, habove⟩ := hbrackets hsorted ⟨by omega, by omega⟩
  exact ⟨fun i hi => hbelow i (by omega), fun i hi hi' => habove i (by omega) hi'⟩

/-- `find_range` returns an index of the table or -1. -/
theorem findRange_ends (s : State) (value : ℕ) (mode : AllowOneAbove) :
    ∃ mrIdx : ℤ, findRange s value mode = .done mrIdx ∧ -1 ≤ mrIdx ∧ mrIdx < s.gEntryCount := by
  unfold findRange
  rcases findRangeLoop_start s value with ⟨k, hk, _, heq⟩ | ⟨k, hk, heq, _⟩ <;>
    simp only [heq, Outcome.done_bind, Outcome.pure_eq]
  · exact ⟨k, rfl, by omega, by omega⟩
  · split_ifs <;> exact ⟨_, rfl, by omega, by omega⟩

theorem findRange_lt {s : State} {value : ℕ} {mode : AllowOneAbove} {mrIdx : ℤ}
    (h : findRange s value mode = .done mrIdx) (hnonneg : 0 ≤ mrIdx) :
    mrIdx.toNat < s.gEntryCount := by
  obtain ⟨k, hk, _, hlt⟩ := findRange_ends s value mode
  obtain rfl : k = mrIdx := by simpa using hk.symm.trans h
  omega

theorem WellFormedTable.sortedStarts {s : State} (h : WellFormedTable s.table) : SortedStarts s :=
  fun _ _ hij hj => h.entry_lt hij hj

/-- **A value inside an entry**: `find_range` returns the index of that entry. -/
theorem findRange_of_contains {s : State} {l r : List MemoryRange} {cur : MemoryRange} {value : ℕ}
    (hwf : WellFormedTable s.table) (h : s.table = l ++ cur :: r) (hc : cur.Contains value)
    (mode : AllowOneAbove) : findRange s value mode = .done l.length := by
  have hcur := State.entry_of_table h
  have hcount : l.length < s.gEntryCount := by
    rw [State.gEntryCount_of_table h]
    simp
  obtain ⟨hlo, hhi⟩ := hc
  unfold findRange
  rcases findRangeLoop_start s value with ⟨k, hk, hval, heq⟩ | ⟨k, hk, heq, hbrackets⟩
  · simp only [heq, Outcome.done_bind, Outcome.pure_eq, Outcome.done.injEq]
    rcases Nat.lt_trichotomy k l.length with hlt | rfl | hgt
    · have := hwf.entry_lt hlt hcount
      rw [hcur] at this
      omega
    · rfl
    · have := hwf.entry_le hgt hk
      rw [hcur] at this
      omega
  · obtain ⟨hbelow, habove⟩ := hbrackets hwf.sortedStarts
    obtain rfl : k = l.length + 1 := by
      rcases Nat.lt_trichotomy k (l.length + 1) with hlt | heq | hgt
      · have := habove l.length (by omega) hcount
        rw [hcur] at this
        omega
      · exact heq
      · have := hbelow (l.length + 1) hgt
        have hle := hwf.entry_le (Nat.lt_add_one l.length) (by omega)
        rw [hcur] at hle
        omega
    have hlt := hbelow l.length (by omega)
    have hvalid := hwf.valid cur (by rw [h]; simp)
    simp only [heq, Outcome.done_bind, Outcome.pure_eq]
    push_cast
    simp only [Int.add_sub_cancel, Int.toNat_natCast, hcur, hvalid.mrEnd_eq]
    rw [hcur] at hlt
    rw [if_pos ⟨by omega, hlt, hhi⟩]

/-- **A value in a gap**: `find_range` returns the entry after the gap, if asked to. -/
theorem findRange_of_gap {s : State} {l r : List MemoryRange} {value : ℕ}
    (hwf : WellFormedTable s.table) (h : s.table = l ++ r)
    (hl : ∀ x ∈ l, x.physicalAddress + x.mrSize ≤ value) (hr : ∀ x ∈ r, value < x.physicalAddress)
    (mode : AllowOneAbove) :
    findRange s value mode = .done (if mode = .yes ∧ r ≠ [] then (l.length : ℤ) else -1) := by
  have hcount : s.gEntryCount = l.length + r.length := by
    simpa using State.gEntryCount_of_table h
  have hleft : ∀ i < l.length, (s.entry i).physicalAddress < value ∧
      (s.entry i).mrEnd ≤ value := fun i hi => by
    have hmem := State.entry_of_append h hi
    have hvalid := hwf.valid _ (State.entry_mem (s := s) (i := i) (by omega))
    have := hl _ hmem
    have := hvalid.nonempty
    rw [hvalid.mrEnd_eq]
    omega
  have hright : ∀ i, l.length ≤ i → i < s.gEntryCount → value < (s.entry i).physicalAddress :=
    fun i hi hi' => hr _ (State.entry_of_append_right h hi hi')
  unfold findRange
  rcases findRangeLoop_start s value with ⟨k, hk, hval, _⟩ | ⟨k, hk, heq, hbrackets⟩
  · -- no entry starts at the value
    rcases Nat.lt_or_ge k l.length with hlt | hge
    · have := hleft k hlt
      omega
    · have := hright k hge hk
      omega
  · obtain ⟨hbelow, habove⟩ := hbrackets hwf.sortedStarts
    obtain rfl : k = l.length := by
      rcases Nat.lt_trichotomy k l.length with hlt | heq | hgt
      · have := habove k le_rfl (by omega)
        have := hleft k hlt
        omega
      · exact heq
      · have := hbelow l.length hgt
        have := hright l.length le_rfl (by omega)
        omega
    have hbefore : ¬ ((l.length : ℤ) - 1 ≥ 0 ∧
        (s.entry ((l.length : ℤ) - 1).toNat).physicalAddress < value ∧
        value < (s.entry ((l.length : ℤ) - 1).toNat).mrEnd) := by
      rintro ⟨hnonneg, _, hend⟩
      have := (hleft ((l.length : ℤ) - 1).toNat (by omega)).2
      omega
    simp only [heq, Outcome.done_bind, Outcome.pure_eq, if_neg hbefore, Outcome.done.injEq]
    rw [hcount]
    cases r with
    | nil => simp
    | cons x r =>
      have hne : ¬ ((r.length : ℤ) + 1 = 0) := by omega
      simp [hne]

/-- Every value lies in an entry or in a gap. -/
theorem exists_split (value : ℕ) {l : List MemoryRange} (hwf : WellFormedTable l) :
    (∃ l' cur r, l = l' ++ cur :: r ∧ cur.Contains value) ∨
    ∃ l' r, l = l' ++ r ∧ (∀ x ∈ l', x.physicalAddress + x.mrSize ≤ value) ∧
      ∀ x ∈ r, value < x.physicalAddress := by
  by_cases hc : ∃ x ∈ l, x.Contains value
  · obtain ⟨x, hx, hxc⟩ := hc
    obtain ⟨l', r, rfl⟩ := List.append_of_mem hx
    exact Or.inl ⟨l', x, r, rfl, hxc⟩
  · refine Or.inr ?_
    simp only [not_exists, not_and] at hc
    obtain ⟨hvalid, _, hsorted⟩ := hwf
    induction l with
    | nil => exact ⟨[], [], rfl, by simp, by simp⟩
    | cons a l ih =>
      obtain ⟨ha, hl⟩ := List.pairwise_cons.mp hsorted
      have hac := hc a (by simp)
      unfold MemoryRange.Contains at hac
      by_cases hlo : a.physicalAddress ≤ value
      · obtain ⟨l', r, rfl, hl', hr⟩ := ih (fun x hx => hc x (by simp [hx]))
          (fun x hx => hvalid x (by simp [hx])) (fun x hx => by simp_all) hl
        exact ⟨a :: l', r, rfl, List.forall_mem_cons.mpr ⟨by omega, hl'⟩, hr⟩
      · refine ⟨[], a :: l, rfl, by simp, List.forall_mem_cons.mpr ⟨by omega, fun x hx => ?_⟩⟩
        have := ha x hx
        omega

/-! ### `allocate_top_down` -/

/-- A FREE entry of at least `bytes` bytes. -/
def Offers (bytes : ℕ) (mr : MemoryRange) : Prop := mr.mrType = memoryFree ∧ bytes ≤ mr.mrSize

instance (bytes : ℕ) (mr : MemoryRange) : Decidable (Offers bytes mr) :=
  inferInstanceAs (Decidable (_ ∧ _))

/-- The upper limit of `boot_alloc_nogrow`. -/
def noLimit : ℕ := 2 ^ 64 - 1

/-- A list either has no element with the property, or a last one. -/
theorem forall_not_or_exists_last {α : Type} (p : α → Prop) (l : List α) :
    (∀ x ∈ l, ¬ p x) ∨ ∃ l' a r, l = l' ++ a :: r ∧ p a ∧ ∀ x ∈ r, ¬ p x := by
  induction l with
  | nil => exact Or.inl (by simp)
  | cons a l ih =>
    rcases ih with hno | ⟨l', b, r, rfl, hb, hr⟩
    · by_cases ha : p a
      · exact Or.inr ⟨[], a, l, rfl, ha, hno⟩
      · exact Or.inl (List.forall_mem_cons.mpr ⟨ha, hno⟩)
    · exact Or.inr ⟨a :: l', b, r, rfl, hb, hr⟩

/-- The last element with the property stands at one place. -/
theorem last_split_unique {α : Type} {p : α → Prop} {l l' r r' : List α} {a a' : α}
    (h : l ++ a :: r = l' ++ a' :: r') (ha : p a) (ha' : p a') (hr : ∀ x ∈ r, ¬ p x)
    (hr' : ∀ x ∈ r', ¬ p x) : l = l' ∧ a = a' ∧ r = r' := by
  rcases List.append_eq_append_iff.mp h with ⟨m, rfl, hm⟩ | ⟨m, rfl, hm⟩ <;> cases m with
  | nil => simpa [eq_comm] using hm
  | cons x m =>
    obtain ⟨rfl, rfl⟩ := List.cons.inj hm
    first
      | exact absurd ha' (hr a' (by simp))
      | exact absurd ha (hr' a (by simp))

/-- One round of the loop. -/
theorem topDownLoop_succ {s : State} {l r : List MemoryRange} {cur : MemoryRange} (bytes : ℕ)
    (h : s.table = l ++ cur :: r) (hcur : ValidRange cur) :
    topDownLoop s bytes noLimit (l.length + 1) =
      if Offers bytes cur then some (l.length, cur.physicalAddress + cur.mrSize)
      else topDownLoop s bytes noLimit l.length := by
  have hbound := hcur.bounded
  have hpos := hcur.nonempty
  have hend : min cur.mrEnd noLimit = cur.physicalAddress + cur.mrSize := by
    rw [hcur.mrEnd_eq, noLimit]
    omega
  have hsub : sub64 (cur.physicalAddress + cur.mrSize) cur.physicalAddress = cur.mrSize := by
    rw [sub64_of_le (by omega) hbound]
    omega
  have hbelow : ¬ cur.physicalAddress ≥ noLimit := by
    rw [noLimit]
    omega
  simp only [topDownLoop, State.entry_of_table h, hend, hsub, if_neg hbelow]
  by_cases htype : cur.mrType = memoryFree <;> by_cases hsize : bytes ≤ cur.mrSize <;>
    simp [Offers, htype, hsize]

theorem topDownLoop_of_forall_not {s : State} {l r : List MemoryRange} {bytes : ℕ}
    (h : s.table = l ++ r) (hvalid : ∀ x ∈ l, ValidRange x) (hno : ∀ x ∈ l, ¬ Offers bytes x) :
    topDownLoop s bytes noLimit l.length = none := by
  induction l using List.reverseRecOn generalizing r with
  | nil => rfl
  | append_singleton l a ih =>
    rw [List.append_assoc, List.singleton_append] at h
    rw [List.length_append, List.length_singleton, topDownLoop_succ bytes h (hvalid a (by simp)),
      if_neg (hno a (by simp))]
    exact ih h (fun x hx => hvalid x (by simp [hx])) fun x hx => hno x (by simp [hx])

/-- **The top-down scan** stops at the highest entry that offers enough. -/
theorem topDownLoop_of_offers {s : State} {l r t : List MemoryRange} {cur : MemoryRange} {bytes : ℕ}
    (h : s.table = l ++ cur :: (r ++ t)) (hvalid : ∀ x ∈ cur :: r, ValidRange x)
    (hcur : Offers bytes cur) (hno : ∀ x ∈ r, ¬ Offers bytes x) :
    topDownLoop s bytes noLimit (l.length + 1 + r.length) =
      some (l.length, cur.physicalAddress + cur.mrSize) := by
  induction r using List.reverseRecOn generalizing t with
  | nil => exact (topDownLoop_succ bytes h (hvalid cur (by simp))).trans (if_pos hcur)
  | append_singleton r a ih =>
    have hsplit : s.table = (l ++ cur :: r) ++ a :: t := by simpa using h
    have hlen : l.length + 1 + (r ++ [a]).length = (l ++ cur :: r).length + 1 := by simp; omega
    rw [hlen, topDownLoop_succ bytes hsplit (hvalid a (by simp)), if_neg (hno a (by simp))]
    have hlen' : (l ++ cur :: r).length = l.length + 1 + r.length := by simp; omega
    rw [hlen']
    refine ih (t := a :: t) (by simpa using h) (fun x hx => hvalid x ?_) fun x hx => hno x ?_
    · simp only [List.mem_cons, List.mem_append] at hx ⊢
      tauto
    · simp [hx]

/-! ### `allocate_within` -/

/-- The part of a FREE entry between the limits has at least `bytes` bytes. -/
def Fits (bytes lower upper : ℕ) (mr : MemoryRange) : Prop :=
  mr.mrType = memoryFree ∧
    max mr.physicalAddress lower + bytes ≤ min (mr.physicalAddress + mr.mrSize) upper

instance (bytes lower upper : ℕ) (mr : MemoryRange) : Decidable (Fits bytes lower upper mr) :=
  inferInstanceAs (Decidable (_ ∧ _))

section Within

variable {s : State} {bytes lower upper : ℕ}

/-- One round of the loop, at an entry that ends above the lower limit. -/
theorem withinLoop_succ {l r : List MemoryRange} {cur : MemoryRange} (h : s.table = l ++ cur :: r)
    (hcur : ValidRange cur) (hlimits : lower < upper) (hupper : upper < 2 ^ 64)
    (habove : lower < cur.physicalAddress + cur.mrSize) (hbytes : 0 < bytes) (remaining : ℕ) :
    withinLoop s bytes lower upper (remaining + 1) l.length =
      if Fits bytes lower upper cur then some l.length
      else if upper < cur.physicalAddress + cur.mrSize + bytes then none
      else withinLoop s bytes lower upper remaining (l.length + 1) := by
  have hbound := hcur.bounded
  have hpos := hcur.nonempty
  simp only [withinLoop, State.entry_of_table h, hcur.mrEnd_eq]
  by_cases hstart : cur.physicalAddress > upper
  · have hfits : ¬ Fits bytes lower upper cur := fun hfits => by
      have := hfits.2
      omega
    rw [if_pos hstart, if_neg hfits, if_pos (by omega)]
  · -- the gap does not wrap, so the test is the fit
    have hgap : (cur.mrType = memoryFree ∧
        sub64 (min (cur.physicalAddress + cur.mrSize) upper) (max cur.physicalAddress lower) ≥
          bytes) ↔ Fits bytes lower upper cur := by
      rw [sub64_of_le (by omega) (by omega)]
      exact and_congr_right fun _ => by omega
    rw [if_neg hstart]
    simp only [hgap]
    by_cases hend : cur.physicalAddress + cur.mrSize ≥ upper
    · rw [if_pos hend, if_pos (by omega : upper < cur.physicalAddress + cur.mrSize + bytes)]
    · rw [if_neg hend, sub64_of_le (by omega) (by omega)]
      have hroom : upper - (cur.physicalAddress + cur.mrSize) < bytes ↔
          upper < cur.physicalAddress + cur.mrSize + bytes := by omega
      simp only [hroom]

/-- **The bottom-up scan** stops at the lowest entry that fits. -/
theorem withinLoop_of_fits {l m r : List MemoryRange} {cur : MemoryRange}
    (h : s.table = l ++ (m ++ cur :: r)) (hwf : WellFormedTable s.table) (hlimits : lower < upper)
    (hupper : upper < 2 ^ 64) (habove : ∀ x ∈ m ++ cur :: r, lower < x.physicalAddress + x.mrSize)
    (hbytes : 0 < bytes) (hcur : Fits bytes lower upper cur)
    (hno : ∀ x ∈ m, ¬ Fits bytes lower upper x) :
    withinLoop s bytes lower upper (m ++ cur :: r).length l.length =
      some (l.length + m.length) := by
  induction m generalizing l with
  | nil =>
    have hvalid := hwf.valid cur (by rw [h]; simp)
    exact (withinLoop_succ h hvalid hlimits hupper (habove cur (by simp)) hbytes _).trans
      (if_pos hcur)
  | cons a m ih =>
    have hvalid := hwf.valid a (by rw [h]; simp)
    have hafter : a.physicalAddress + a.mrSize ≤ cur.physicalAddress := by
      rw [h] at hwf
      exact hwf.behind (by simp)
    have hfits := hcur.2
    rw [List.cons_append, List.length_cons,
      withinLoop_succ h hvalid hlimits hupper (habove a (by simp)) hbytes,
      if_neg (hno a (by simp)), if_neg (by omega)]
    have := ih (l := l ++ [a]) (by simpa using h) (fun x hx => habove x (by simp_all))
      fun x hx => hno x (by simp [hx])
    have hlen : (l ++ [a]).length = l.length + 1 := by simp
    rw [hlen] at this
    rw [this, List.length_cons]
    congr 1
    omega

theorem withinLoop_of_forall_not {l r : List MemoryRange} (h : s.table = l ++ r)
    (hwf : WellFormedTable s.table) (hlimits : lower < upper) (hupper : upper < 2 ^ 64)
    (habove : ∀ x ∈ r, lower < x.physicalAddress + x.mrSize) (hbytes : 0 < bytes)
    (hno : ∀ x ∈ r, ¬ Fits bytes lower upper x) :
    withinLoop s bytes lower upper r.length l.length = none := by
  induction r generalizing l with
  | nil => rfl
  | cons a r ih =>
    have hvalid := hwf.valid a (by rw [h]; simp)
    rw [List.length_cons, withinLoop_succ h hvalid hlimits hupper (habove a (by simp)) hbytes,
      if_neg (hno a (by simp))]
    split_ifs
    · rfl
    · have := ih (l := l ++ [a]) (by simpa using h) (fun x hx => habove x (by simp [hx]))
        fun x hx => hno x (by simp [hx])
      rwa [List.length_append, List.length_singleton] at this

end Within

end UltraKernel.BootAlloc
