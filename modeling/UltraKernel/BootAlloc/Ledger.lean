import UltraKernel.BootAlloc.Alloc
import Mathlib.Data.List.Perm.Basic

/-!
# The ledger of the boot allocator

What the allocator is for: it hands out disjoint blocks of memory that was FREE at the start, and
takes them back.  A `Ledger` is the starting assignment of types together with the blocks handed
out, and carries the proof that they are disjoint and were FREE.  A table represents a ledger when
it is well-formed and gives every address the type the ledger gives it; carving a block out of the
table is `Ledger.take` or `Ledger.give`.
-/

namespace UltraKernel.BootAlloc

open Word

/-! ### Blocks -/

/-- A block of whole pages. -/
structure Block where
  address : ℕ
  numPages : ℕ
  deriving DecidableEq, Repr

namespace Block

/-- The size of a block in bytes. -/
def bytes (b : Block) : ℕ := b.numPages * pageSize

/-- The addresses of a block. -/
def Contains (b : Block) (x : ℕ) : Prop := b.address ≤ x ∧ x < b.address + b.bytes

/-- No common address. -/
def Disjoint (b c : Block) : Prop := ∀ x, b.Contains x → ¬ c.Contains x

instance (b : Block) (x : ℕ) : Decidable (b.Contains x) := inferInstanceAs (Decidable (_ ∧ _))

theorem Disjoint.symm {b c : Block} (h : b.Disjoint c) : c.Disjoint b := fun x hc hb => h x hb hc

/-- The entry that describes a block. -/
def range (b : Block) (type : ℕ) : MemoryRange := requestedRange b.address b.bytes type

/-- A non-empty aligned block of addresses below `2 ^ 64`. -/
structure Valid (b : Block) : Prop where
  nonempty : 0 < b.numPages
  aligned : b.address % pageSize = 0
  bounded : b.address + b.bytes < 2 ^ 64

theorem bytes_mod (b : Block) : b.bytes % pageSize = 0 := Nat.mul_mod_left _ _

theorem Valid.bytes_pos {b : Block} (h : b.Valid) : 0 < b.bytes :=
  Nat.mul_pos h.nonempty (by decide)

theorem Valid.contains_address {b : Block} (h : b.Valid) : b.Contains b.address :=
  ⟨le_rfl, by have := h.bytes_pos; omega⟩

theorem Valid.good {b : Block} (h : b.Valid) {type : ℕ} (htype : type < 2) :
    GoodRange (b.range type) :=
  requestedRange_good b.bytes_mod h.bytes_pos h.bounded h.aligned htype

theorem Valid.range_parts {b : Block} (h : b.Valid) {type : ℕ} (htype : type < 2) :
    (b.range type).mrSize = b.bytes ∧ (b.range type).mrType = type := by
  have := h.bounded
  exact requestedRange_parts b.address b.bytes_mod (by omega) htype

theorem Valid.range_contains {b : Block} (h : b.Valid) {type : ℕ} (htype : type < 2) (x : ℕ) :
    (b.range type).Contains x ↔ b.Contains x := by
  unfold MemoryRange.Contains Contains
  rw [(h.range_parts htype).1]
  rfl

end Block

/-- A type of an entry is one of the two. -/
theorem eq_of_ne_memoryAllocated {type : ℕ} (h : type < 2) (hne : type ≠ memoryAllocated) :
    type = memoryFree := by
  unfold memoryAllocated memoryFree at *
  omega

theorem typeAt_lt {l : List MemoryRange} {x type : ℕ} (h : typeAt l x = some type) : type < 2 := by
  obtain ⟨r, _, _, rfl⟩ := exists_of_typeAt h
  exact r.mrType_lt

/-! ### Ledgers -/

/-- **The ledger**: disjoint blocks handed out of what was FREE at the start. -/
structure Ledger where
  start : ℕ → Option ℕ
  blocks : List Block
  valid : ∀ b ∈ blocks, b.Valid
  free : ∀ b ∈ blocks, ∀ x, b.Contains x → start x = some memoryFree
  disjoint : blocks.Pairwise Block.Disjoint

namespace Ledger

/-- An address is handed out. -/
def Taken (L : Ledger) (x : ℕ) : Prop := ∃ b ∈ L.blocks, b.Contains x

instance (L : Ledger) (x : ℕ) : Decidable (L.Taken x) := inferInstanceAs (Decidable (∃ _ ∈ _, _))

/-- The type of an address: what is handed out is ALLOCATED, the rest is as it was. -/
def typeAt (L : Ledger) (x : ℕ) : Option ℕ := if L.Taken x then some memoryAllocated else L.start x

/-- Nothing handed out yet. -/
def initial (start : ℕ → Option ℕ) : Ledger := ⟨start, [], by simp, by simp, .nil⟩

theorem initial_typeAt (start : ℕ → Option ℕ) : (initial start).typeAt = start := by
  funext x
  simp [typeAt, Taken, initial]

theorem free_iff (L : Ledger) (x : ℕ) :
    L.typeAt x = some memoryFree ↔ ¬ L.Taken x ∧ L.start x = some memoryFree := by
  unfold typeAt
  split_ifs with h <;> simp [h, memoryAllocated, memoryFree]

/-- Hand out a FREE block. -/
def take (L : Ledger) (b : Block) (hb : b.Valid)
    (hfree : ∀ x, b.Contains x → L.typeAt x = some memoryFree) : Ledger where
  start := L.start
  blocks := b :: L.blocks
  valid := List.forall_mem_cons.mpr ⟨hb, L.valid⟩
  free := List.forall_mem_cons.mpr ⟨fun x hx => ((L.free_iff x).mp (hfree x hx)).2, L.free⟩
  disjoint := List.pairwise_cons.mpr
    ⟨fun c hc x hx hcx => ((L.free_iff x).mp (hfree x hx)).1 ⟨c, hc, hcx⟩, L.disjoint⟩

/-- Take a block back. -/
def give (L : Ledger) (b : Block) : Ledger where
  start := L.start
  blocks := L.blocks.erase b
  valid c hc := L.valid c (List.mem_of_mem_erase hc)
  free c hc := L.free c (List.mem_of_mem_erase hc)
  disjoint := L.disjoint.sublist List.erase_sublist

theorem take_typeAt (L : Ledger) {b : Block} (hb : b.Valid)
    (hfree : ∀ x, b.Contains x → L.typeAt x = some memoryFree) (x : ℕ) :
    (L.take b hb hfree).typeAt x = if b.Contains x then some memoryAllocated else L.typeAt x := by
  unfold typeAt
  by_cases hx : b.Contains x
  · have htaken : (L.take b hb hfree).Taken x := ⟨b, by simp [take], hx⟩
    rw [if_pos hx, if_pos htaken]
  · have hiff : (L.take b hb hfree).Taken x ↔ L.Taken x := by simp [Taken, take, hx]
    rw [if_neg hx]
    simp only [hiff]
    rfl

/-- The other blocks do not meet the one taken back. -/
theorem taken_give (L : Ledger) {b : Block} (hb : b ∈ L.blocks) (x : ℕ) :
    (L.give b).Taken x ↔ L.Taken x ∧ ¬ b.Contains x := by
  have hperm := List.perm_cons_erase hb
  have hdisjoint := (List.Perm.pairwise_iff Block.Disjoint.symm hperm).mp L.disjoint
  have hb' := (List.pairwise_cons.mp hdisjoint).1
  constructor
  · rintro ⟨c, hc, hcx⟩
    exact ⟨⟨c, List.mem_of_mem_erase hc, hcx⟩, fun hbx => hb' c hc x hbx hcx⟩
  · rintro ⟨⟨c, hc, hcx⟩, hbx⟩
    rcases List.mem_cons.mp (hperm.mem_iff.mp hc) with rfl | hc
    · exact absurd hcx hbx
    · exact ⟨c, hc, hcx⟩

theorem give_typeAt (L : Ledger) {b : Block} (hb : b ∈ L.blocks) (x : ℕ) :
    (L.give b).typeAt x = if b.Contains x then some memoryFree else L.typeAt x := by
  unfold typeAt
  by_cases hx : b.Contains x
  · have hnot : ¬ (L.give b).Taken x := fun h => ((L.taken_give hb x).mp h).2 hx
    rw [if_neg hnot, if_pos hx]
    exact L.free b hb x hx
  · have hiff : (L.give b).Taken x ↔ L.Taken x := by simp [L.taken_give hb x, hx]
    rw [if_neg hx]
    simp only [hiff]
    rfl

end Ledger

/-! ### Tables that represent a ledger -/

/-- A well-formed table with the types of the ledger, each block inside one entry. -/
structure Represents (L : Ledger) (l : List MemoryRange) : Prop where
  wellFormed : WellFormedTable l
  typeAt : typeAt l = L.typeAt
  within : ∀ b ∈ L.blocks, Within l b.address (b.address + b.bytes)

theorem Represents.initial {l : List MemoryRange} (h : WellFormedTable l) :
    Represents (.initial (BootAlloc.typeAt l)) l :=
  ⟨h, (Ledger.initial_typeAt _).symm, by simp [Ledger.initial]⟩

section Simulation

variable {L : Ledger} {s t : State} {b : Block}

/-- The block of a carved range was FREE. -/
theorem Edited.was_free (h : Edited s (b.range memoryAllocated) t) (hb : b.Valid) {x : ℕ}
    (hx : b.Contains x) : typeAt s.table x = some memoryFree := by
  obtain ⟨type, htype, hne⟩ := h.wasOther x ((hb.range_contains (by decide) x).mpr hx)
  rw [(hb.range_parts (by decide)).2] at hne
  rw [htype, eq_of_ne_memoryAllocated (typeAt_lt htype) hne]

/-- **Allocating a block hands it out.** -/
theorem Represents.take (hL : Represents L s.table) (hb : b.Valid)
    (h : Edited s (b.range memoryAllocated) t) :
    ∃ hfree, Represents (L.take b hb hfree) t.table := by
  have hfree : ∀ x, b.Contains x → L.typeAt x = some memoryFree := fun x hx => by
    rw [← hL.typeAt]
    exact h.was_free hb hx
  obtain ⟨hsize, htype⟩ := hb.range_parts (by decide : memoryAllocated < 2)
  refine ⟨hfree, h.updates.wellFormed, ?_, List.forall_mem_cons.mpr ⟨?_, fun c hc => ?_⟩⟩
  · funext x
    rw [h.updates.typeAt, L.take_typeAt, htype, hL.typeAt]
    simp only [hb.range_contains (by decide : memoryAllocated < 2) x]
  · have := h.updates.within
    rwa [hsize] at this
  · have hcv := (L.valid c hc).bytes_pos
    have hbv := hb.bytes_pos
    refine h.updates.within_beside _ _ (by omega) ?_ (hL.within c hc)
    rw [hsize]
    change c.address + c.bytes ≤ b.address ∨ b.address + b.bytes ≤ c.address
    -- two blocks that are not side by side share an address
    by_contra hside
    have hshared := (L.free_iff (max b.address c.address)).mp
      (hfree _ ⟨by omega, by omega⟩)
    exact hshared.1 ⟨c, hc, by omega, by omega⟩

/-- **Freeing a block takes it back.** -/
theorem Represents.give (hL : Represents L s.table) (hb : b ∈ L.blocks)
    (h : Edited s (b.range memoryFree) t) : Represents (L.give b) t.table := by
  have hv := L.valid b hb
  obtain ⟨hsize, htype⟩ := hv.range_parts (by decide : memoryFree < 2)
  refine ⟨h.updates.wellFormed, ?_, fun c hc => ?_⟩
  · funext x
    rw [h.updates.typeAt, L.give_typeAt hb, htype, hL.typeAt]
    simp only [hv.range_contains (by decide : memoryFree < 2) x]
  · have hcb := List.mem_of_mem_erase hc
    have hcv := (L.valid c hcb).bytes_pos
    have hbv := hv.bytes_pos
    refine h.updates.within_beside _ _ (by omega) ?_ (hL.within c hcb)
    rw [hsize]
    change c.address + c.bytes ≤ b.address ∨ b.address + b.bytes ≤ c.address
    by_contra hside
    have hnot := (L.taken_give hb (max b.address c.address)).mp ⟨c, hc, by omega, by omega⟩
    exact hnot.2 ⟨by omega, by omega⟩

end Simulation

end UltraKernel.BootAlloc
