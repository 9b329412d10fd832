import Mathlib.Data.List.Basic
import Mathlib.Tactic.IntervalCases

/-!
# Segments and interrupt gates, as `descriptors.h` lays them out

A descriptor is a 64-bit number.  What the processor takes out of it is a definition of its own.

* `gateOf_interruptDescriptor`: the processor reads out of a gate what it was made of.
-/

namespace UltraKernel.X86

/-! ### Selectors -/

/-- `DESC_SIZE` -/
def descSize : ℕ := 8

/-- `DESC_AFTER` -/
def descAfter (x : ℕ) : ℕ := x + descSize

/-- `DESC_IDX` -/
def descIdx (x : ℕ) : ℕ := x / descSize

/-- `KERNEL_CS` -/
def kernelCs : ℕ := descAfter 0

/-- `KERNEL_SS` -/
def kernelSs : ℕ := descAfter kernelCs

/-- `USER_CS_COMPAT` -/
def userCsCompat : ℕ := descAfter kernelSs

/-- `USER_SS` -/
def userSs : ℕ := descAfter userCsCompat

/-- `USER_CS` -/
def userCs : ℕ := descAfter userSs

/-- `NUM_GDT_ENTRIES` -/
def numGdtEntries : ℕ := descIdx (descAfter userCs)

/-! ### The bits of a descriptor -/

/-- `DESC_PRESENT` -/
def descPresent : BitVec 64 := (1 : BitVec 64) <<< 47

/-- `DESC_DPL` -/
def descDpl (x : BitVec 64) : BitVec 64 := x <<< 45

/-- `DESC_ACCESSED` -/
def descAccessed : BitVec 64 := (1 : BitVec 64) <<< 40

/-- `DESC_DATA_WRITABLE` -/
def descDataWritable : BitVec 64 := (1 : BitVec 64) <<< 41

/-- `DESC_CODE_READABLE` -/
def descCodeReadable : BitVec 64 := (1 : BitVec 64) <<< 41

/-- `DESC_EXECUTABLE` -/
def descExecutable : BitVec 64 := (1 : BitVec 64) <<< 43

/-- `DESC_CODE_OR_DATA` -/
def descCodeOrData : BitVec 64 := (1 : BitVec 64) <<< 44

/-- `DESC_64` -/
def desc64 : BitVec 64 := (1 : BitVec 64) <<< 53

/-- `DESC_DEFAULT` -/
def descDefault : BitVec 64 := (1 : BitVec 64) <<< 54

/-- `DESC_BIG` -/
def descBig : BitVec 64 := (1 : BitVec 64) <<< 54

/-- `DESC_GRANULARITY_4K` -/
def descGranularity4k : BitVec 64 := (1 : BitVec 64) <<< 55

/-- `DESC_IST` -/
def descIst (x : BitVec 64) : BitVec 64 := x <<< 32

/-- `DESC_INTERRUPT_GATE` -/
def descInterruptGate : BitVec 64 := (0b1110 : BitVec 64) <<< 40

/-! ### Segments -/

/-- `SEGMENT_LIMIT_MAX` -/
def segmentLimitMax : BitVec 64 := ((1 : BitVec 64) <<< 20) - 1

/-- `SEGMENT_LIMIT0` -/
def segmentLimit0 (x : BitVec 64) : BitVec 64 := (x &&& 0xFFFF) <<< 0

/-- `SEGMENT_LIMIT1`, which takes bits 0 to 3 of the limit. -/
def segmentLimit1 (x : BitVec 64) : BitVec 64 := (x &&& 0xF) <<< 48

/-- `SEGMENT_DESCRIPTOR` -/
def segmentDescriptor (flags : BitVec 64) : BitVec 64 :=
  segmentLimit0 segmentLimitMax ||| segmentLimit1 segmentLimitMax ||| flags

/-- `SEGMENT_CODE_OR_DATA_TEMPLATE` -/
def segmentCodeOrDataTemplate : BitVec 64 :=
  descPresent ||| descCodeOrData ||| descAccessed ||| descGranularity4k

/-- `SEGMENT_KERNEL_CODE_TEMPLATE` -/
def segmentKernelCodeTemplate : BitVec 64 :=
  segmentCodeOrDataTemplate ||| descCodeReadable ||| descExecutable

/-- `SEGMENT_KERNEL_CODE32` -/
def segmentKernelCode32 : BitVec 64 := segmentDescriptor (segmentKernelCodeTemplate ||| descDefault)

/-- `SEGMENT_KERNEL_CODE64` -/
def segmentKernelCode64 : BitVec 64 := segmentDescriptor (segmentKernelCodeTemplate ||| desc64)

/-- `SEGMENT_KERNEL_DATA64`, which is `SEGMENT_KERNEL_DATA32`. -/
def segmentKernelData64 : BitVec 64 :=
  segmentDescriptor (segmentCodeOrDataTemplate ||| descDataWritable ||| descBig)

/-- `SEGMENT_USER_CODE32` -/
def segmentUserCode32 : BitVec 64 := segmentDescriptor (segmentKernelCode32 ||| descDpl 3)

/-- `SEGMENT_USER_CODE64` -/
def segmentUserCode64 : BitVec 64 := segmentDescriptor (segmentKernelCode64 ||| descDpl 3)

/-- `SEGMENT_USER_DATA64` -/
def segmentUserData64 : BitVec 64 := segmentDescriptor (segmentKernelData64 ||| descDpl 3)

/-- `g_gdt` -/
def gdt : List (BitVec 64) :=
  [0, segmentKernelCode64, segmentKernelData64, segmentUserCode32, segmentUserData64,
    segmentUserCode64]

/-- A segment of 64-bit code that privilege level 0 runs, as the processor reads its descriptor. -/
def IsKernelCode64 (descriptor : BitVec 64) : Prop :=
  descriptor.getLsbD 44 ∧ descriptor.getLsbD 43 ∧ descriptor.getLsbD 47 ∧ descriptor.getLsbD 53 ∧
    ¬ descriptor.getLsbD 54 ∧ descriptor.extractLsb' 45 2 = 0

instance (descriptor : BitVec 64) : Decidable (IsKernelCode64 descriptor) :=
  inferInstanceAs (Decidable (_ ∧ _))

example : gdt.length = numGdtEntries ∧ gdt[descIdx kernelCs]? = some segmentKernelCode64 ∧
    gdt[descIdx kernelSs]? = some segmentKernelData64 ∧
    gdt[descIdx userCsCompat]? = some segmentUserCode32 ∧
    gdt[descIdx userSs]? = some segmentUserData64 ∧
    gdt[descIdx userCs]? = some segmentUserCode64 := ⟨rfl, rfl, rfl, rfl, rfl, rfl⟩

/-! ### Gates -/

/-- `INTERRUPT_DESCRIPTOR_LOW` -/
def interruptDescriptorLow (addr ist dpl : BitVec 64) : BitVec 64 :=
  (BitVec.ofNat 64 kernelCs <<< 16) ||| (addr &&& 0xFFFF) ||| descIst ist ||| descInterruptGate |||
    descDpl dpl ||| descPresent ||| (((addr >>> 16) &&& 0xFFFF) <<< 48)

/-- `INTERRUPT_DESCRIPTOR_HIGH` -/
def interruptDescriptorHigh (addr : BitVec 64) : BitVec 64 := addr >>> 32

/-- `struct interrupt_descriptor` -/
structure InterruptDescriptor where
  low : BitVec 64
  high : BitVec 64
  deriving DecidableEq, Repr

/-- What the processor takes out of the 16 bytes of a gate. -/
structure Gate where
  offset : BitVec 64
  selector : BitVec 16
  ist : BitVec 3
  type : BitVec 4
  dpl : BitVec 2
  present : Bool
  deriving DecidableEq, Repr

/-- The fields of a gate, as the processor reads them. -/
def gateOf (d : InterruptDescriptor) : Gate where
  offset := d.high.extractLsb' 0 32 ++ d.low.extractLsb' 48 16 ++ d.low.extractLsb' 0 16
  selector := d.low.extractLsb' 16 16
  ist := d.low.extractLsb' 32 3
  type := d.low.extractLsb' 40 4
  dpl := d.low.extractLsb' 45 2
  present := d.low.getLsbD 47

theorem low_getLsbD (addr : BitVec 64) (ist : BitVec 3) (dpl : BitVec 2) {i : ℕ} (hi : i < 64) :
    (interruptDescriptorLow addr (ist.setWidth 64) (dpl.setWidth 64)).getLsbD i =
      if i < 16 then addr.getLsbD i
      else if i < 32 then (BitVec.ofNat 16 kernelCs).getLsbD (i - 16)
      else if i < 35 then ist.getLsbD (i - 32)
      else if i < 40 then false
      else if i < 44 then (0b1110 : BitVec 4).getLsbD (i - 40)
      else if i < 45 then false
      else if i < 47 then dpl.getLsbD (i - 45)
      else if i = 47 then true
      else addr.getLsbD (i - 32) := by
  interval_cases i <;>
    simp [interruptDescriptorLow, kernelCs, descAfter, descSize, descIst, descInterruptGate, descDpl,
      descPresent]

/-- **A gate is read back**: the processor finds the address, the table and the level that the gate was
made of, on the code segment of the kernel. -/
theorem gateOf_interruptDescriptor (addr : BitVec 64) (ist : BitVec 3) (dpl : BitVec 2) :
    gateOf ⟨interruptDescriptorLow addr (ist.setWidth 64) (dpl.setWidth 64),
        interruptDescriptorHigh addr⟩ =
      ⟨addr, BitVec.ofNat 16 kernelCs, ist, 0b1110, dpl, true⟩ := by
  have hlow := @low_getLsbD addr ist dpl
  rw [gateOf, Gate.mk.injEq]
  refine ⟨?_, ?_, ?_, ?_, ?_, ?_⟩
  · apply BitVec.eq_of_getLsbD_eq
    intro i hi
    rw [BitVec.getLsbD_append, BitVec.getLsbD_append, BitVec.getLsbD_extractLsb',
      BitVec.getLsbD_extractLsb', BitVec.getLsbD_extractLsb']
    rcases Nat.lt_or_ge i 16 with hbyte | hbyte
    · rw [if_pos hbyte, hlow (by omega), if_pos (by omega)]
      simp [hbyte]
    · rw [if_neg (by omega)]
      rcases Nat.lt_or_ge i 32 with hword | hword
      · rw [if_pos (by omega), hlow (by omega), if_neg (by omega), if_neg (by omega),
          if_neg (by omega), if_neg (by omega), if_neg (by omega), if_neg (by omega),
          if_neg (by omega), if_neg (by omega), show 48 + (i - 16) - 32 = i by omega]
        simp [show i - 16 < 16 by omega]
      · rw [if_neg (by omega), interruptDescriptorHigh, BitVec.getLsbD_ushiftRight,
          show 32 + (0 + (i - 16 - 16)) = i by omega]
        simp [show i - 16 - 16 < 32 by omega]
  · apply BitVec.eq_of_getLsbD_eq
    intro i hi
    rw [BitVec.getLsbD_extractLsb', hlow (by omega), if_neg (by omega), if_pos (by omega),
      Nat.add_sub_cancel_left]
    simp [hi]
  · apply BitVec.eq_of_getLsbD_eq
    intro i hi
    rw [BitVec.getLsbD_extractLsb', hlow (by omega), if_neg (by omega), if_neg (by omega),
      if_pos (by omega), Nat.add_sub_cancel_left]
    simp [hi]
  · apply BitVec.eq_of_getLsbD_eq
    intro i hi
    rw [BitVec.getLsbD_extractLsb', hlow (by omega), if_neg (by omega), if_neg (by omega),
      if_neg (by omega), if_neg (by omega), if_pos (by omega), Nat.add_sub_cancel_left]
    simp [hi]
  · apply BitVec.eq_of_getLsbD_eq
    intro i hi
    rw [BitVec.getLsbD_extractLsb', hlow (by omega), if_neg (by omega), if_neg (by omega),
      if_neg (by omega), if_neg (by omega), if_neg (by omega), if_neg (by omega), if_pos (by omega),
      Nat.add_sub_cancel_left]
    simp [hi]
  · rw [hlow (by omega)]
    rfl

end UltraKernel.X86
