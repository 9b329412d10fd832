import UltraKernel.Lib.Word
import Mathlib.Logic.Function.Basic

/-!
# Page tables, as `page_table.h` and `memory.c` keep them

A pointer to an entry is its address, and memory gives the 8 bytes at every address.  The macros
that make the functions of each level are definitions with parameters.

* `masked_populated`: what the mask of a level leaves of an entry;
* `toVirt_iff`: which child tables the entries of a level point back to;
* `page_tables_iff`: that, and in which tables a walk lands.
-/

namespace UltraKernel.X86

open Word

abbrev Memory := BitVec 64 → BitVec 64

/-- The global variables: `g_la57`, `g_pt4_num_entries` and `g_direct_map_base`. -/
structure Paging where
  la57 : Bool
  pt4NumEntries : BitVec 64
  directMapBase : BitVec 64

def Paging.virtToPhys (g : Paging) (virt : BitVec 64) : BitVec 64 := virt - g.directMapBase

def Paging.physToVirt (g : Paging) (phys : BitVec 64) : BitVec 64 := phys + g.directMapBase

/-! ### Masks -/

/-- `PAGE_SHIFT` -/
def pageShift : ℕ := 12

/-- `X86_MAX_PHYS_BITS` -/
def maxPhysBits : ℕ := 52

/-- `X86_PHYS_MASK` -/
def physMask : BitVec 64 := ((1 : BitVec 64) <<< maxPhysBits) - 1

/-- `X86_PT_PRESENT` -/
def ptPresentBit : BitVec 64 := (1 : BitVec 64) <<< 0

/-- `X86_PT_WRITE` -/
def ptWriteBit : BitVec 64 := (1 : BitVec 64) <<< 1

/-- `X86_PT_USER` -/
def ptUserBit : BitVec 64 := (1 : BitVec 64) <<< 2

/-- `X86_PT_MASK` -/
def ptMask : BitVec 64 := ptPresentBit ||| ptWriteBit ||| ptUserBit

/-- `X86_PT_LVL_SHIFT` -/
def ptLvlShift : ℕ := 9

/-- `X86_PT_LVL_ENTRIES` -/
def ptLvlEntries : BitVec 64 := (1 : BitVec 64) <<< ptLvlShift

def pt1Shift : ℕ := pageShift

def pt2Shift : ℕ := pt1Shift + ptLvlShift

def pt3Shift : ℕ := pt2Shift + ptLvlShift

def pt4Shift : ℕ := pt3Shift + ptLvlShift

/-- The physical addresses whose bits below a shift are clear. -/
def maskAbove (shift : ℕ) : BitVec 64 := physMask &&& ~~~(((1 : BitVec 64) <<< shift) - 1)

/-- `X86_PAGE_MASK` -/
def pageMask : BitVec 64 := maskAbove pageShift

def pt5PfnMask : BitVec 64 := pageMask

def pt4PfnMask : BitVec 64 := pageMask

/-- `X86_PT3_MASK` -/
def pt3PfnMask : BitVec 64 := maskAbove pt3Shift

/-- `X86_PT2_MASK` -/
def pt2PfnMask : BitVec 64 := maskAbove pt2Shift

/-! ### Entries -/

/-- `ptN_present` -/
def ptPresent (mem : Memory) (pt : BitVec 64) : Bool := mem pt &&& ptPresentBit ≠ 0

/-- `ptN_to_virt` -/
def ptToVirt (g : Paging) (pfnMask : BitVec 64) (mem : Memory) (pt : BitVec 64) : BitVec 64 :=
  g.physToVirt (mem pt &&& pfnMask)

/-- `ptN_populate` -/
def ptPopulate (g : Paging) (mem : Memory) (parent child : BitVec 64) : Memory :=
  Function.update mem parent (g.virtToPhys child ||| ptMask)

def pt2Present := ptPresent
def pt3Present := ptPresent
def pt4Present := ptPresent

def pt5Present (g : Paging) (mem : Memory) (pt : BitVec 64) : Bool :=
  if !g.la57 then true else mem pt &&& ptPresentBit ≠ 0

def pt2ToVirt (g : Paging) := ptToVirt g pt2PfnMask
def pt3ToVirt (g : Paging) := ptToVirt g pt3PfnMask
def pt4ToVirt (g : Paging) := ptToVirt g pt4PfnMask
def pt5ToVirt (g : Paging) := ptToVirt g pt5PfnMask

def pt2Populate := ptPopulate
def pt3Populate := ptPopulate
def pt4Populate := ptPopulate

def pt5Populate (g : Paging) (mem : Memory) (parent child : BitVec 64) : Memory :=
  if !g.la57 then mem else Function.update mem parent (g.virtToPhys child ||| ptMask)

/-- The levels whose entries point to tables. -/
inductive Level where
  | pt2
  | pt3
  | pt4
  | pt5
  deriving DecidableEq, Repr

namespace Level

def present (g : Paging) : Level → Memory → BitVec 64 → Bool
  | pt2 => pt2Present
  | pt3 => pt3Present
  | pt4 => pt4Present
  | pt5 => pt5Present g

def toVirt (g : Paging) : Level → Memory → BitVec 64 → BitVec 64
  | pt2 => pt2ToVirt g
  | pt3 => pt3ToVirt g
  | pt4 => pt4ToVirt g
  | pt5 => pt5ToVirt g

def populate (g : Paging) : Level → Memory → BitVec 64 → BitVec 64 → Memory
  | pt2 => pt2Populate g
  | pt3 => pt3Populate g
  | pt4 => pt4Populate g
  | pt5 => pt5Populate g

end Level

/-! ### Walks -/

/-- `ptN_index` -/
def ptIndex (shift : ℕ) (numEntries addr : BitVec 64) : BitVec 64 :=
  (addr >>> shift) &&& (numEntries - 1)

def pt1Index : BitVec 64 → BitVec 64 := ptIndex pt1Shift ptLvlEntries
def pt2Index : BitVec 64 → BitVec 64 := ptIndex pt2Shift ptLvlEntries
def pt3Index : BitVec 64 → BitVec 64 := ptIndex pt3Shift ptLvlEntries
def pt4Index (g : Paging) : BitVec 64 → BitVec 64 := ptIndex pt4Shift g.pt4NumEntries

/-- `&pt[index]` -/
def entryAt (pt index : BitVec 64) : BitVec 64 := pt + 8 * index

def pt4FromPt5 (g : Paging) (mem : Memory) (pt5 addr : BitVec 64) : BitVec 64 :=
  if !g.la57 then pt5 else entryAt (pt5ToVirt g mem pt5) (pt4Index g addr)

def pt3FromPt4 (g : Paging) (mem : Memory) (pt4 addr : BitVec 64) : BitVec 64 :=
  entryAt (pt4ToVirt g mem pt4) (pt3Index addr)

def pt2FromPt3 (g : Paging) (mem : Memory) (pt3 addr : BitVec 64) : BitVec 64 :=
  entryAt (pt3ToVirt g mem pt3) (pt2Index addr)

def pt1FromPt2 (g : Paging) (mem : Memory) (pt2 addr : BitVec 64) : BitVec 64 :=
  entryAt (pt2ToVirt g mem pt2) (pt1Index addr)

/-- The tables for an address: the entry that the walk starts at, and a table at each level below. -/
structure Tables where
  pt5 : BitVec 64
  pt4 : BitVec 64
  pt3 : BitVec 64
  pt2 : BitVec 64
  pt1 : BitVec 64
  deriving DecidableEq, Repr

namespace Tables

variable (g : Paging) (t : Tables) (addr : BitVec 64)

/-- The entry of the level 4 table; without `g_la57` there are 4 levels. -/
def pt4Entry : BitVec 64 := if !g.la57 then t.pt5 else entryAt t.pt4 (pt4Index g addr)

def pt3Entry : BitVec 64 := entryAt t.pt3 (pt3Index addr)

def pt2Entry : BitVec 64 := entryAt t.pt2 (pt2Index addr)

def pt1Entry : BitVec 64 := entryAt t.pt1 (pt1Index addr)

/-- The entries that are populated, from the top. -/
def populated : List (BitVec 64) :=
  if !g.la57 then [t.pt4Entry g addr, t.pt3Entry addr, t.pt2Entry addr]
  else [t.pt5, t.pt4Entry g addr, t.pt3Entry addr, t.pt2Entry addr]

/-- Every entry is populated with the table below it. -/
def install (mem : Memory) : Memory :=
  let mem := pt5Populate g mem t.pt5 t.pt4
  let mem := pt4Populate g mem (t.pt4Entry g addr) t.pt3
  let mem := pt3Populate g mem (t.pt3Entry addr) t.pt2
  pt2Populate g mem (t.pt2Entry addr) t.pt1

/-- The entries that a walk goes through. -/
def walk (mem : Memory) : List (BitVec 64) :=
  let pt4 := pt4FromPt5 g mem t.pt5 addr
  let pt3 := pt3FromPt4 g mem pt4 addr
  let pt2 := pt2FromPt3 g mem pt3 addr
  let pt1 := pt1FromPt2 g mem pt2 addr
  [pt4, pt3, pt2, pt1]

/-- The entries of the tables. -/
def entries : List (BitVec 64) :=
  [t.pt4Entry g addr, t.pt3Entry addr, t.pt2Entry addr, t.pt1Entry addr]

end Tables

/-! ### What is read back -/

/-- A page-aligned table that is in the physical memory. -/
structure Paging.IsTable (g : Paging) (child : BitVec 64) : Prop where
  aligned : 2 ^ pageShift ∣ (g.virtToPhys child).toNat
  lt : (g.virtToPhys child).toNat < 2 ^ maxPhysBits

/-- The number of bits that the mask of a level clears. -/
def Level.clearedBits : Level → ℕ
  | .pt2 => pt2Shift
  | .pt3 => pt3Shift
  | .pt4 => pageShift
  | .pt5 => pageShift

/-- The table is aligned as the level wants it. -/
def Level.Aligned (g : Paging) (level : Level) (child : BitVec 64) : Prop :=
  2 ^ level.clearedBits ∣ (g.virtToPhys child).toNat

section ReadBack

variable {g : Paging} {level : Level} {mem : Memory} {parent child : BitVec 64}

theorem Paging.physToVirt_virtToPhys (g : Paging) (virt : BitVec 64) :
    g.physToVirt (g.virtToPhys virt) = virt := BitVec.sub_add_cancel virt g.directMapBase

theorem Paging.physToVirt_eq_iff {phys virt : BitVec 64} :
    g.physToVirt phys = virt ↔ phys = g.virtToPhys virt := by
  constructor
  · intro h
    rw [← h]
    exact (BitVec.add_sub_cancel phys g.directMapBase).symm
  · intro h
    rw [h]
    exact g.physToVirt_virtToPhys virt

/-- An entry that is populated, as a number. -/
theorem populated_toNat (h : g.IsTable child) :
    (g.virtToPhys child ||| ptMask).toNat = (g.virtToPhys child).toNat + 7 := by
  obtain ⟨k, hk⟩ := (show 2 ^ 3 ∣ 2 ^ pageShift by decide).trans h.aligned
  have hmask : ptMask.toNat = 7 := by decide
  rw [BitVec.toNat_or, hmask, hk, ← Nat.two_pow_add_eq_or_of_lt (show 7 < 2 ^ 3 by decide)]

theorem maskAbove_toNat (level : Level) :
    (maskAbove level.clearedBits).toNat = 2 ^ maxPhysBits - 2 ^ level.clearedBits := by
  cases level <;> decide

/-- **The mask of a level** clears the low bits of the table's address with the flags. -/
theorem masked_populated (h : g.IsTable child) (level : Level) :
    ((g.virtToPhys child ||| ptMask) &&& maskAbove level.clearedBits).toNat =
      (g.virtToPhys child).toNat - (g.virtToPhys child).toNat % 2 ^ level.clearedBits := by
  have haligned := h.aligned
  have hlt := h.lt
  have hbits : pageShift ≤ level.clearedBits ∧ level.clearedBits ≤ maxPhysBits := by
    cases level <;> decide
  have hword : (g.virtToPhys child).toNat + 7 < 2 ^ maxPhysBits := by
    rw [pageShift] at haligned
    rw [maxPhysBits] at hlt ⊢
    omega
  rw [BitVec.toNat_and, populated_toNat h, maskAbove_toNat, Word.and_high_mask hword hbits.2]
  cases level <;>
    simp only [Level.clearedBits, pageShift, pt2Shift, pt3Shift, pt1Shift, ptLvlShift] at haligned ⊢ <;>
    omega

/-- What is read at an entry is what the level's mask leaves of it. -/
theorem Level.toVirt_eq (g : Paging) (level : Level) (mem : Memory) (pt : BitVec 64) :
    level.toVirt g mem pt = g.physToVirt (mem pt &&& maskAbove level.clearedBits) := by
  cases level <;> rfl

/-- **What populates** an entry, if there is such a level. -/
theorem Level.populate_self (hla57 : level = .pt5 → g.la57 = true) (mem : Memory)
    (parent child : BitVec 64) :
    level.populate g mem parent child parent = g.virtToPhys child ||| ptMask := by
  cases level with
  | pt2 => exact Function.update_self parent _ mem
  | pt3 => exact Function.update_self parent _ mem
  | pt4 => exact Function.update_self parent _ mem
  | pt5 =>
    rw [Level.populate, pt5Populate, hla57 rfl]
    exact Function.update_self parent _ mem

/-- **An entry points back** to the tables that are aligned as the level wants them. -/
theorem toVirt_iff (h : g.IsTable child) (level : Level)
    (hmem : mem parent = g.virtToPhys child ||| ptMask) :
    level.toVirt g mem parent = child ↔ level.Aligned g child := by
  have hmasked := masked_populated h level
  have hle := Nat.mod_le (g.virtToPhys child).toNat (2 ^ level.clearedBits)
  rw [level.toVirt_eq, Paging.physToVirt_eq_iff, hmem, ← BitVec.toNat_inj, hmasked, Level.Aligned,
    Nat.dvd_iff_mod_eq_zero]
  omega

theorem flags_present (phys : BitVec 64) : (phys ||| ptMask) &&& ptPresentBit ≠ 0 := by
  intro hzero
  have hbit := congrArg (fun w => w.getLsbD 0) hzero
  simp [ptMask, ptPresentBit, ptWriteBit, ptUserBit] at hbit

theorem present_populate (hla57 : level = .pt5 → g.la57 = true) (mem : Memory)
    (parent child : BitVec 64) :
    level.present g (level.populate g mem parent child) parent = true := by
  have hself := level.populate_self hla57 mem parent child
  have hpresent : ptPresent (level.populate g mem parent child) parent = true := by
    rw [ptPresent, hself]
    exact decide_eq_true (flags_present _)
  cases level with
  | pt2 => exact hpresent
  | pt3 => exact hpresent
  | pt4 => exact hpresent
  | pt5 =>
    rw [Level.present, pt5Present, hla57 rfl]
    exact hpresent

end ReadBack

/-! ### Where a walk lands -/

section Walk

variable {g : Paging} {t : Tables} {addr : BitVec 64} {mem : Memory}

theorem entryAt_inj {pt pt' index : BitVec 64} : entryAt pt index = entryAt pt' index ↔ pt = pt' :=
  BitVec.add_left_inj _

/-- **The entries hold** what they were populated with: a later one does not overwrite them. -/
theorem install_holds (hnodup : (t.populated g addr).Nodup) (mem : Memory) :
    (g.la57 = true → t.install g addr mem t.pt5 = g.virtToPhys t.pt4 ||| ptMask) ∧
      t.install g addr mem (t.pt4Entry g addr) = g.virtToPhys t.pt3 ||| ptMask ∧
      t.install g addr mem (t.pt3Entry addr) = g.virtToPhys t.pt2 ||| ptMask ∧
      t.install g addr mem (t.pt2Entry addr) = g.virtToPhys t.pt1 ||| ptMask := by
  have hlower : [t.pt4Entry g addr, t.pt3Entry addr, t.pt2Entry addr].Nodup := by
    rw [Tables.populated] at hnodup
    cases hla57 : g.la57 with
    | false => rwa [hla57] at hnodup
    | true =>
      rw [hla57] at hnodup
      exact (List.nodup_cons.mp hnodup).2
  simp only [List.nodup_cons, List.mem_cons, List.not_mem_nil, or_false, not_or] at hlower
  obtain ⟨⟨h43, h42⟩, h32, -⟩ := hlower
  refine ⟨?_, ?_, ?_, Function.update_self _ _ _⟩
  · intro hla57
    rw [Tables.populated, hla57] at hnodup
    simp only [Bool.not_true, Bool.false_eq_true, if_false, List.nodup_cons, List.mem_cons,
      List.not_mem_nil, or_false, not_or] at hnodup
    obtain ⟨⟨h54, h53, h52⟩, -⟩ := hnodup
    rw [Tables.install, pt2Populate, ptPopulate, Function.update_of_ne h52, pt3Populate, ptPopulate,
      Function.update_of_ne h53, pt4Populate, ptPopulate, Function.update_of_ne h54, pt5Populate,
      hla57]
    exact Function.update_self _ _ _
  · rw [Tables.install, pt2Populate, ptPopulate, Function.update_of_ne h42, pt3Populate, ptPopulate,
      Function.update_of_ne h43]
    exact Function.update_self _ _ _
  · rw [Tables.install, pt2Populate, ptPopulate, Function.update_of_ne h32]
    exact Function.update_self _ _ _

/-- The step to level 4 finds the table that was installed. -/
theorem pt4FromPt5_install (hnodup : (t.populated g addr).Nodup)
    (h4 : g.la57 = true → g.IsTable t.pt4) (mem : Memory) :
    pt4FromPt5 g (t.install g addr mem) t.pt5 addr = t.pt4Entry g addr := by
  rw [pt4FromPt5, Tables.pt4Entry]
  cases hla57 : g.la57 with
  | false => rfl
  | true =>
    have hback := (toVirt_iff (h4 hla57) .pt5 ((install_holds hnodup mem).1 hla57)).mpr
      (h4 hla57).aligned
    have hread : pt5ToVirt g (t.install g addr mem) t.pt5 = t.pt4 := hback
    rw [hread]

/-- **A walk lands** in the tables that were installed if and only if the two lower of them are
aligned as the masks of their levels want it. -/
theorem walk_iff (hnodup : (t.populated g addr).Nodup) (h4 : g.la57 = true → g.IsTable t.pt4)
    (h3 : g.IsTable t.pt3) (h2 : g.IsTable t.pt2) (h1 : g.IsTable t.pt1) (mem : Memory) :
    t.walk g addr (t.install g addr mem) = t.entries g addr ↔
      Level.pt3.Aligned g t.pt2 ∧ Level.pt2.Aligned g t.pt1 := by
  obtain ⟨-, hmem4, hmem3, hmem2⟩ := install_holds hnodup mem
  have hread4 : pt4ToVirt g (t.install g addr mem) (t.pt4Entry g addr) = t.pt3 :=
    (toVirt_iff h3 .pt4 hmem4).mpr h3.aligned
  have hread3 : pt3ToVirt g (t.install g addr mem) (t.pt3Entry addr) = t.pt2 ↔
      Level.pt3.Aligned g t.pt2 := toVirt_iff h2 .pt3 hmem3
  have hread2 : pt2ToVirt g (t.install g addr mem) (t.pt2Entry addr) = t.pt1 ↔
      Level.pt2.Aligned g t.pt1 := toVirt_iff h1 .pt2 hmem2
  have hstep4 := pt4FromPt5_install hnodup h4 mem
  have hstep3 : pt3FromPt4 g (t.install g addr mem) (t.pt4Entry g addr) addr = t.pt3Entry addr := by
    rw [pt3FromPt4, hread4]
    rfl
  have hstep2 : pt2FromPt3 g (t.install g addr mem) (t.pt3Entry addr) addr = t.pt2Entry addr ↔
      Level.pt3.Aligned g t.pt2 := by
    rw [pt2FromPt3, Tables.pt2Entry, entryAt_inj, hread3]
  have hstep1 : pt1FromPt2 g (t.install g addr mem) (t.pt2Entry addr) addr = t.pt1Entry addr ↔
      Level.pt2.Aligned g t.pt1 := by
    rw [pt1FromPt2, Tables.pt1Entry, entryAt_inj, hread2]
  simp only [Tables.walk, Tables.entries, hstep4, hstep3, List.cons.injEq, true_and, and_true]
  constructor
  · intro h
    have hlast := h.2
    rw [h.1, hstep1] at hlast
    exact ⟨hstep2.mp h.1, hlast⟩
  · intro h
    have hpt2 := hstep2.mpr h.1
    rw [hpt2]
    exact ⟨rfl, hstep1.mpr h.2⟩

end Walk

/-- **The entries are present** once populated.  **They point back** to a table if and only if it is
aligned as their level wants it, to `2 ^ 21` bytes at level 2 and to `2 ^ 30` bytes at level 3; and
**a walk lands** in the tables that were installed if and only if the two lower of them are. -/
theorem page_tables_iff (g : Paging) :
    (∀ (level : Level) (mem : Memory) (parent child : BitVec 64),
      (level = .pt5 → g.la57 = true) → g.IsTable child →
        level.present g (level.populate g mem parent child) parent = true ∧
          (level.toVirt g (level.populate g mem parent child) parent = child ↔
            level.Aligned g child)) ∧
      ∀ (t : Tables) (addr : BitVec 64) (mem : Memory),
        (t.populated g addr).Nodup → (g.la57 = true → g.IsTable t.pt4) → g.IsTable t.pt3 →
          g.IsTable t.pt2 → g.IsTable t.pt1 →
            (t.walk g addr (t.install g addr mem) = t.entries g addr ↔
              Level.pt3.Aligned g t.pt2 ∧ Level.pt2.Aligned g t.pt1) := by
  constructor
  · intro level mem parent child hla57 h
    exact ⟨present_populate hla57 mem parent child,
      toVirt_iff h level (level.populate_self hla57 mem parent child)⟩
  · intro t addr mem hnodup h4 h3 h2 h1
    exact walk_iff hnodup h4 h3 h2 h1 mem

/-- Five levels, with the direct map at the start of the upper half. -/
def fiveLevels : Paging := ⟨true, 512, 0xFF00000000000000⟩

/-- Tables whose two lower ones are at 1 GiB and 2 MiB. -/
def alignedTables : Tables :=
  ⟨0xFF00000000001000, 0xFF00000000002000, 0xFF00000000003000, 0xFF00000040000000, 0xFF00000000200000⟩

/-- The walk for the address 0 through such tables. -/
theorem page_tables_iff_aligned :
    alignedTables.walk fiveLevels 0 (alignedTables.install fiveLevels 0 fun _ => 0) =
      alignedTables.entries fiveLevels 0 :=
  ((page_tables_iff fiveLevels).2 alignedTables 0 (fun _ => 0) (by decide)
    (fun _ => ⟨by decide, by decide⟩) ⟨by decide, by decide⟩ ⟨by decide, by decide⟩
    ⟨by decide, by decide⟩).mpr ⟨by unfold Level.Aligned; decide, by unfold Level.Aligned; decide⟩

/-- A table at the page `0x1000` for level 2: the entry points to the start of the memory. -/
theorem page_tables_lose_low_bits :
    Level.pt2.toVirt fiveLevels (Level.pt2.populate fiveLevels (fun _ => 0) 0 0xFF00000000001000) 0 =
        0xFF00000000000000 ∧
      ¬ ∀ (g : Paging) (level : Level) (mem : Memory) (parent child : BitVec 64),
        (level = .pt5 → g.la57 = true) → g.IsTable child →
          level.present g (level.populate g mem parent child) parent = true ∧
            level.toVirt g (level.populate g mem parent child) parent = child := by
  have hread : Level.pt2.toVirt fiveLevels
      (Level.pt2.populate fiveLevels (fun _ => 0) 0 0xFF00000000001000) 0 = 0xFF00000000000000 := by
    decide
  constructor
  · exact hread
  · intro h
    have hback := (h fiveLevels .pt2 (fun _ => 0) 0 0xFF00000000001000 (by decide)
      ⟨by decide, by decide⟩).2
    rw [hread] at hback
    exact absurd hback (by decide)

end UltraKernel.X86
