import UltraKernel.Lib.WordStack
import UltraKernel.X86.Descriptors
import UltraKernel.X86.PageTable

/-!
# The entry and the exit of an interrupt, as `interrupts.S` writes them

The code is a list of lines, which are instructions or hints for the unwinder.  The assembler puts
down the instructions, each with the row of the unwinding table that the hints before it lead to
(`assemble`).  The processor runs them from wherever they were placed; it is modelled as far as this
code uses it, with the C functions it calls as a parameter.

All accesses to the stack are to words of 8 bytes at multiples of 8 from each other, so memory gives
a word at every address.
-/

namespace UltraKernel.X86.Interrupts

/-! ### Registers -/

/-- The general registers, in the order of their DWARF numbers. -/
inductive Reg where
  | rax | rdx | rcx | rbx | rsi | rdi | rbp | rsp
  | r8 | r9 | r10 | r11 | r12 | r13 | r14 | r15
  deriving DecidableEq, Repr

/-- What a row of the unwinding table has a rule for. -/
inductive Column where
  | gp (reg : Reg)
  | rip
  | rflags
  | cs
  | ss
  deriving DecidableEq, Repr

/-- `ULTRA_ARCH_WIDTH` -/
def ultraArchWidth : ℕ := 8

/-- `REG_AFTER` -/
def regAfter (x : ℕ) : ℕ := x + ultraArchWidth

def r15Offset : ℕ := 0
def r14Offset : ℕ := regAfter r15Offset
def r13Offset : ℕ := regAfter r14Offset
def r12Offset : ℕ := regAfter r13Offset
def rbpOffset : ℕ := regAfter r12Offset
def rbxOffset : ℕ := regAfter rbpOffset
def r11Offset : ℕ := regAfter rbxOffset
def r10Offset : ℕ := regAfter r11Offset
def r9Offset : ℕ := regAfter r10Offset
def r8Offset : ℕ := regAfter r9Offset
def raxOffset : ℕ := regAfter r8Offset
def rcxOffset : ℕ := regAfter raxOffset
def rdxOffset : ℕ := regAfter rcxOffset
def rsiOffset : ℕ := regAfter rdxOffset
def rdiOffset : ℕ := regAfter rsiOffset
def gpRegsEndOffset : ℕ := regAfter rdiOffset
def auxOffset : ℕ := gpRegsEndOffset
def iretqFrameOffset : ℕ := regAfter auxOffset
def ripOffset : ℕ := iretqFrameOffset
def csOffset : ℕ := regAfter ripOffset
def flagsOffset : ℕ := regAfter csOffset
def rspOffset : ℕ := regAfter flagsOffset
def ssOffset : ℕ := regAfter rspOffset
def iretqFrameEndOffset : ℕ := regAfter ssOffset

/-- `INTERRUPT_FRAME_OFFSET` -/
def interruptFrameOffset (x : ℕ) : ℕ := x - iretqFrameOffset

/-- `INTERRUPT_FRAME_SIZE` -/
def interruptFrameSize : ℕ := iretqFrameEndOffset - iretqFrameOffset

/-- `struct registers`; `aux` is its union. -/
structure Registers where
  r15 : BitVec 64
  r14 : BitVec 64
  r13 : BitVec 64
  r12 : BitVec 64
  rbp : BitVec 64
  rbx : BitVec 64
  r11 : BitVec 64
  r10 : BitVec 64
  r9 : BitVec 64
  r8 : BitVec 64
  rax : BitVec 64
  rcx : BitVec 64
  rdx : BitVec 64
  rsi : BitVec 64
  rdi : BitVec 64
  aux : BitVec 64
  rip : BitVec 64
  cs : BitVec 64
  flags : BitVec 64
  rsp : BitVec 64
  ss : BitVec 64
  deriving DecidableEq, Repr

/-- `interrupt_idx`, a `u8`. -/
def Registers.interruptIdx (regs : Registers) : BitVec 8 := regs.aux.setWidth 8

/-- The fields of the `struct registers` at an address. -/
def registersAt (mem : Memory) (regs : BitVec 64) : Registers :=
  let field (offset : ℕ) := mem (regs + BitVec.ofNat 64 offset)
  { r15 := field r15Offset, r14 := field r14Offset, r13 := field r13Offset, r12 := field r12Offset
    rbp := field rbpOffset, rbx := field rbxOffset, r11 := field r11Offset, r10 := field r10Offset
    r9 := field r9Offset, r8 := field r8Offset, rax := field raxOffset, rcx := field rcxOffset
    rdx := field rdxOffset, rsi := field rsiOffset, rdi := field rdiOffset, aux := field auxOffset
    rip := field ripOffset, cs := field csOffset, flags := field flagsOffset
    rsp := field rspOffset, ss := field ssOffset }

/-! ### Functions -/

/-- The exceptions, by the names that `idt.h` gives to their numbers. -/
inductive Exception where
  | divisionError | debug | nmi | breakpoint | overflow | boundRangeExceeded | invalidOpcode
  | deviceNotAvailable | doubleFault | coprocessorSegmentOverrun | invalidTss | segmentNotPreset
  | stackSegmentFault | generalProtectionFault | pageFault | fpuException | alignmentCheck | mce
  | simdFpuException | virtualizationException | controlProtection | hypervisorInjectionException
  | vmmCommunicationException | securityException | reservedException
  deriving DecidableEq, Repr

/-- The C functions that are called: `irq_dispatch` and `handle_<exception>`. -/
inductive Handler where
  | irqDispatch
  | handle (exception : Exception)
  deriving DecidableEq, Repr

/-- `NUM_IDT_ENTRIES` -/
def numIdtEntries : ℕ := 256

/-- `NUM_X86_EXCEPTIONS` -/
def numExceptions : ℕ := 32

/-- `IDT_THUNK_SIZE` -/
def idtThunkSize : ℕ := 8

/-- The functions of `interrupts.S`: `interrupt_begin`, `interrupt_end`, `<handler>_asm` and the thunks. -/
inductive Fn where
  | interruptBegin
  | interruptEnd
  | trampoline (handler : Handler)
  | thunk (vector : Fin numIdtEntries)
  deriving DecidableEq, Repr

inductive Instr where
  | cld
  | push (reg : Reg)
  | pushImm8 (value : BitVec 8)
  | pop (reg : Reg)
  | movLoad (dst : Reg) (disp : ℕ)
  | movStore (disp : ℕ) (src : Reg)
  | mov (dst src : Reg)
  | addRsp (value : ℕ)
  | call (f : Fn)
  | callHandler (handler : Handler)
  | jmp (f : Fn)
  | ret
  | iretq
  deriving DecidableEq, Repr

/-! ### Hints for the unwinder -/

/-- A row of the unwinding table: the CFA is `cfaOffset` above `rsp`, and a column is saved at an offset
from the CFA, or not saved. -/
structure FrameRow where
  cfaOffset : ℤ
  saved : Column → Option ℤ
  signalFrame : Bool

/-- The `.cfi_` directives. -/
inductive Hint where
  | startproc
  | endproc
  | signalFrame
  | defCfaRsp (offset : ℤ)
  | adjustCfaOffset (offset : ℤ)
  | relOffset (column : Column) (offset : ℤ)
  | restore (column : Column)
  deriving DecidableEq, Repr

/-- The row that a function starts with: only the return address has been pushed. -/
def FrameRow.initial : FrameRow where
  cfaOffset := ultraArchWidth
  saved := Function.update (fun _ => none) .rip (some (-ultraArchWidth))
  signalFrame := false

/-- What a directive does to the row. -/
def Hint.apply (row : FrameRow) : Hint → FrameRow
  | startproc => .initial
  | endproc => row
  | signalFrame => { row with signalFrame := true }
  | defCfaRsp offset => { row with cfaOffset := offset }
  | adjustCfaOffset offset => { row with cfaOffset := row.cfaOffset + offset }
  | relOffset column offset =>
    -- the offset is from the register of the CFA
    { row with saved := Function.update row.saved column (some (offset - row.cfaOffset)) }
  | restore column =>
    { row with saved := Function.update row.saved column (FrameRow.initial.saved column) }

/-- A line of the source. -/
inductive Line where
  | instr (i : Instr)
  | hint (h : Hint)
  deriving DecidableEq, Repr

/-- The instructions, each with the row that the hints before it lead to. -/
def assemble (row : FrameRow) : List Line → List (FrameRow × Instr)
  | [] => []
  | .hint h :: lines => assemble (h.apply row) lines
  | .instr i :: lines => (row, i) :: assemble row lines

/-- `UNWIND_HINT_AFTER_PUSH` -/
def unwindHintAfterPush : Line := .hint (.adjustCfaOffset ultraArchWidth)

/-- `UNWIND_HINT_AFTER_POP` -/
def unwindHintAfterPop : Line := .hint (.adjustCfaOffset (-ultraArchWidth))

/-- `UNWIND_HINT_REG_OFFSET` -/
def unwindHintRegOffset (reg : Reg) (offset : ℕ) : Line := .hint (.relOffset (.gp reg) offset)

/-- `UNWIND_HINT_AFTER_REG_PUSH` -/
def unwindHintAfterRegPush (reg : Reg) : List Line := [unwindHintRegOffset reg 0, unwindHintAfterPush]

/-- `UNWIND_HINT_AFTER_REG_POP` -/
def unwindHintAfterRegPop (reg : Reg) : List Line := [.hint (.restore (.gp reg)), unwindHintAfterPop]

/-- `PUSH_WITH_UNWIND_HINT` -/
def pushWithUnwindHint (reg : Reg) : List Line := [.instr (.push reg), unwindHintAfterPush]

/-- `PUSH_REG_WITH_UNWIND_HINT` -/
def pushRegWithUnwindHint (reg : Reg) : List Line := .instr (.push reg) :: unwindHintAfterRegPush reg

/-- `POP_REG_WITH_UNWIND_HINT` -/
def popRegWithUnwindHint (reg : Reg) : List Line := .instr (.pop reg) :: unwindHintAfterRegPop reg

/-- `UNWIND_HINT_INTERRUPT_FRAME` -/
def unwindHintInterruptFrame (extraOffset : ℕ) : List Line :=
  [.hint .startproc, .hint .signalFrame, .hint (.defCfaRsp (interruptFrameSize + extraOffset)),
    .hint (.relOffset .ss (interruptFrameOffset ssOffset + extraOffset)),
    .hint (.relOffset (.gp .rsp) (interruptFrameOffset rspOffset + extraOffset)),
    .hint (.relOffset .rflags (interruptFrameOffset flagsOffset + extraOffset)),
    .hint (.relOffset .cs (interruptFrameOffset csOffset + extraOffset)),
    .hint (.relOffset .rip (interruptFrameOffset ripOffset + extraOffset))]

/-! ### The source -/

/-- The registers that `PUSH_GP_REGS` pushes between `rsi` and the return address. -/
def pushedRegs : List Reg :=
  [.rdx, .rcx, .rax, .r8, .r9, .r10, .r11, .rbx, .rbp, .r12, .r13, .r14, .r15]

/-- `PUSH_GP_REGS` -/
def pushGpRegs (preserveRetAddr : Bool) : List Line :=
  (if preserveRetAddr then
    pushRegWithUnwindHint .rsi ++
      [.instr (.movLoad .rsi ultraArchWidth), .instr (.movStore ultraArchWidth .rdi)]
  else pushWithUnwindHint .rdi ++ pushWithUnwindHint .rsi) ++
    pushedRegs.flatMap pushWithUnwindHint ++
    if preserveRetAddr then pushWithUnwindHint .rsi else []

/-- The registers in the order in which `POP_GP_REGS` pops them. -/
def poppedRegs : List Reg :=
  [.r15, .r14, .r13, .r12, .rbp, .rbx, .r11, .r10, .r9, .r8, .rax, .rcx, .rdx, .rsi, .rdi]

/-- `POP_GP_REGS` -/
def popGpRegs : List Line := poppedRegs.flatMap popRegWithUnwindHint

/-- `UNWIND_HINT_GP_REGS` -/
def unwindHintGpRegs (baseOffset : ℕ) (adjustCfa : Bool) : List Line :=
  (if adjustCfa then [.hint (.adjustCfaOffset gpRegsEndOffset)] else []) ++
    [unwindHintRegOffset .r15 (r15Offset + baseOffset),
      unwindHintRegOffset .r14 (r14Offset + baseOffset),
      unwindHintRegOffset .r13 (r13Offset + baseOffset),
      unwindHintRegOffset .r12 (r12Offset + baseOffset),
      unwindHintRegOffset .rbp (rbpOffset + baseOffset),
      unwindHintRegOffset .rbx (rbxOffset + baseOffset),
      unwindHintRegOffset .r11 (r11Offset + baseOffset),
      unwindHintRegOffset .r10 (r10Offset + baseOffset),
      unwindHintRegOffset .r9 (r9Offset + baseOffset),
      unwindHintRegOffset .r8 (r8Offset + baseOffset),
      unwindHintRegOffset .rax (raxOffset + baseOffset),
      unwindHintRegOffset .rcx (rcxOffset + baseOffset),
      unwindHintRegOffset .rdx (rdxOffset + baseOffset),
      unwindHintRegOffset .rsi (rsiOffset + baseOffset),
      unwindHintRegOffset .rdi (rdiOffset + baseOffset)]

/-- `interrupt_begin` -/
def interruptBegin : List Line :=
  unwindHintInterruptFrame (ultraArchWidth * 2) ++ [.instr .cld] ++ pushGpRegs true ++
    unwindHintGpRegs ultraArchWidth false ++ [.instr .ret, .hint .endproc]

/-- `interrupt_end` -/
def interruptEnd : List Line :=
  unwindHintInterruptFrame iretqFrameOffset ++ unwindHintGpRegs 0 false ++ popGpRegs ++
    [.instr (.addRsp ultraArchWidth), unwindHintAfterPop, .instr .iretq, .hint .endproc]

/-- `MAKE_EXCEPTION_TRAMPOLINE`, and `X86_IRQ_DISPATCH_ASM`, which is written like it. -/
def makeTrampoline (handler : Handler) : List Line :=
  unwindHintInterruptFrame ultraArchWidth ++ [.instr (.call .interruptBegin)] ++
    unwindHintGpRegs 0 true ++
    [.instr (.mov .rdi .rsp), .instr (.callHandler handler), .instr (.jmp .interruptEnd),
      .hint .endproc]

/-- What a thunk is made of: the handler it goes to, and the value it pushes if the processor has not
pushed an error code. -/
structure Thunk where
  handler : Handler
  aux : Option (BitVec 8)
  deriving DecidableEq, Repr

/-- `MAKE_IDT_THUNK` -/
def Thunk.lines (thunk : Thunk) : List Line :=
  (match thunk.aux with
    | some aux => unwindHintInterruptFrame 0 ++ [.instr (.pushImm8 aux), unwindHintAfterPush]
    | none => unwindHintInterruptFrame ultraArchWidth) ++
    [.instr (.jmp (.trampoline thunk.handler)), .hint .endproc]

/-- `MAKE_EXCEPTION_HANDLER` -/
def makeExceptionHandler (exception : Exception) (pushesErrorCode : Bool) : Thunk :=
  ⟨.handle exception, if pushesErrorCode then none else some 0xFF⟩

/-- `MAKE_RESERVED_EXCEPTION_THUNK` -/
def makeReservedExceptionThunk (number : ℕ) : Thunk :=
  ⟨.handle .reservedException, some (BitVec.ofNat 8 number)⟩

/-- `MAKE_IRQ_THUNK` -/
def makeIrqThunk (irqNum : ℕ) : Thunk := ⟨.irqDispatch, some (BitVec.ofNat 8 irqNum)⟩

/-- The thunks of the exceptions, in the order of the source. -/
def exceptionThunks : List Thunk :=
  [makeExceptionHandler .divisionError false,
    makeExceptionHandler .debug false,
    makeExceptionHandler .nmi false,
    makeExceptionHandler .breakpoint false,
    makeExceptionHandler .overflow false,
    makeExceptionHandler .boundRangeExceeded false,
    makeExceptionHandler .invalidOpcode false,
    makeExceptionHandler .deviceNotAvailable false,
    makeExceptionHandler .doubleFault true,
    makeExceptionHandler .coprocessorSegmentOverrun false,
    makeExceptionHandler .invalidTss true,
    makeExceptionHandler .segmentNotPreset true,
    makeExceptionHandler .stackSegmentFault true,
    makeExceptionHandler .generalProtectionFault true,
    makeExceptionHandler .pageFault true,
    makeReservedExceptionThunk 15,
    makeExceptionHandler .fpuException false,
    makeExceptionHandler .alignmentCheck true,
    makeExceptionHandler .mce false,
    makeExceptionHandler .simdFpuException false,
    makeExceptionHandler .virtualizationException false,
    makeExceptionHandler .controlProtection true,
    makeReservedExceptionThunk 22,
    makeReservedExceptionThunk 23,
    makeReservedExceptionThunk 24,
    makeReservedExceptionThunk 25,
    makeReservedExceptionThunk 26,
    makeReservedExceptionThunk 27,
    makeExceptionHandler .hypervisorInjectionException false,
    makeExceptionHandler .vmmCommunicationException true,
    makeExceptionHandler .securityException true,
    makeReservedExceptionThunk 31]

/-- The thunks in the order of their section. -/
def thunks : List Thunk :=
  exceptionThunks ++ (List.range (numIdtEntries - numExceptions)).map makeIrqThunk

theorem thunks_length : thunks.length = numIdtEntries := by
  rw [thunks, List.length_append, List.length_map, List.length_range]
  rfl

def thunkOf (vector : Fin numIdtEntries) : Thunk := thunks.get (vector.cast thunks_length.symm)

/-- The lines of a function. -/
def Fn.lines : Fn → List Line
  | interruptBegin => Interrupts.interruptBegin
  | interruptEnd => Interrupts.interruptEnd
  | trampoline handler => makeTrampoline handler
  | thunk vector => (thunkOf vector).lines

/-- What a function is assembled to. -/
def Fn.listing (f : Fn) : List (FrameRow × Instr) := assemble .initial f.lines

/-! ### The processor -/

/-- The registers and the memory. -/
structure Cpu where
  reg : Reg → BitVec 64
  rip : BitVec 64
  rflags : BitVec 64
  cs : BitVec 16
  ss : BitVec 16
  mem : Memory

/-- Where the assembled code is, and what the C functions do from their first instruction to after
their return. -/
structure System where
  address : Fn → ℕ → BitVec 64
  locate : BitVec 64 → Option (Fn × ℕ)
  locate_address : ∀ f k, k < f.listing.length → locate (address f k) = some (f, k)
  idtThunks : BitVec 64
  address_thunk : ∀ vector : Fin numIdtEntries,
    address (.thunk vector) 0 = idtThunks + BitVec.ofNat 64 (idtThunkSize * vector)
  run : Handler → Cpu → Cpu

/-- The flags that an addition sets: CF, PF, AF, ZF, SF and OF. -/
def addFlags (a b flags : BitVec 64) : BitVec 64 :=
  let sum := a + b
  let bit (n : ℕ) (value : Bool) : BitVec 64 := (BitVec.ofBool value).setWidth 64 <<< n
  let even := (List.range 8).foldl (fun p i => Bool.xor p (sum.getLsbD i)) true
  (flags &&& ~~~(0x8D5 : BitVec 64)) ||| bit 0 (BitVec.carry 64 a b false) ||| bit 2 even |||
    bit 4 (BitVec.carry 4 a b false) ||| bit 6 (sum == 0) ||| bit 7 sum.msb |||
    bit 11 (a.msb == b.msb && sum.msb != a.msb)

/-- `DF` -/
def directionFlag : BitVec 64 := (1 : BitVec 64) <<< 10

def Cpu.setReg (c : Cpu) (reg : Reg) (value : BitVec 64) : Cpu :=
  { c with reg := Function.update c.reg reg value }

/-- A word is pushed. -/
def Cpu.push (c : Cpu) (value : BitVec 64) : Cpu :=
  { c with
    reg := Function.update c.reg .rsp (c.reg .rsp - 8)
    mem := Function.update c.mem (c.reg .rsp - 8) value }

/-- The word at a displacement from the stack pointer. -/
def Cpu.stack (c : Cpu) (disp : ℕ) : BitVec 64 := c.mem (c.reg .rsp + BitVec.ofNat 64 disp)

/-- What an instruction does; `next` is the address of the one behind it. -/
def Instr.exec (sys : System) (next : BitVec 64) (c : Cpu) : Instr → Cpu
  | cld => { c with rflags := c.rflags &&& ~~~directionFlag, rip := next }
  | push reg => { c.push (c.reg reg) with rip := next }
  | pushImm8 value => { c.push (value.signExtend 64) with rip := next }
  | pop reg => { (c.setReg .rsp (c.reg .rsp + 8)).setReg reg (c.stack 0) with rip := next }
  | movLoad dst disp => { c.setReg dst (c.stack disp) with rip := next }
  | movStore disp src =>
    { c with
      mem := Function.update c.mem (c.reg .rsp + BitVec.ofNat 64 disp) (c.reg src)
      rip := next }
  | mov dst src => { c.setReg dst (c.reg src) with rip := next }
  | addRsp value =>
    { c.setReg .rsp (c.reg .rsp + BitVec.ofNat 64 value) with
      rflags := addFlags (c.reg .rsp) (BitVec.ofNat 64 value) c.rflags
      rip := next }
  | call f => { c.push next with rip := sys.address f 0 }
  | callHandler handler => sys.run handler (c.push next)
  | jmp f => { c with rip := sys.address f 0 }
  | ret => { c.setReg .rsp (c.reg .rsp + 8) with rip := c.stack 0 }
  | iretq =>
    { c.setReg .rsp (c.stack 24) with
      rip := c.stack 0
      cs := (c.stack 8).setWidth 16
      rflags := c.stack 16
      ss := (c.stack 32).setWidth 16 }

/-- The instruction at `rip`, with its row. -/
def System.fetch (sys : System) (c : Cpu) : Option (FrameRow × Instr) :=
  (sys.locate c.rip).bind fun point => point.1.listing[point.2]?

/-- One instruction; a call of a handler runs it to its return. -/
def System.step (sys : System) (c : Cpu) : Option Cpu := do
  let (f, k) ← sys.locate c.rip
  let (_, i) ← f.listing[k]?
  return i.exec sys (sys.address f (k + 1)) c

/-! ### The delivery of an interrupt -/

/-- `idt_init`, from the table `idt`, whose entries are written in order. -/
def idtInit (idtThunks : BitVec 64) (idt : List InterruptDescriptor) : List InterruptDescriptor :=
  (List.range numIdtEntries).foldl
    (fun idt i =>
      let thisThunk := idtThunks + BitVec.ofNat 64 (idtThunkSize * i)
      idt.set i ⟨interruptDescriptorLow thisThunk 0 0, interruptDescriptorHigh thisThunk⟩)
    idt

/-- The table before it is written. -/
def zeroIdt : List InterruptDescriptor := List.replicate numIdtEntries ⟨0, 0⟩

/-- The exceptions for which the processor pushes an error code. -/
def pushesErrorCode (vector : Fin numIdtEntries) : Bool :=
  [8, 10, 11, 12, 13, 14, 17, 21, 29, 30].contains vector.val

/-- The flags that an interrupt gate clears: TF, IF, NT, RF and VM. -/
def gateClearedFlags : BitVec 64 := 0x34300

/-- What the processor pushes on the stack that it is on, which it aligns. -/
def Cpu.pushFrame (c : Cpu) (vector : Fin numIdtEntries) (errorCode : BitVec 64) : Cpu :=
  let aligned := c.setReg .rsp (c.reg .rsp &&& ~~~(0xF : BitVec 64))
  let frame := ((((aligned.push (c.ss.setWidth 64)).push (c.reg .rsp)).push c.rflags).push
    (c.cs.setWidth 64)).push c.rip
  if pushesErrorCode vector then frame.push errorCode else frame

/-- The processor takes an interrupt of code of privilege level 0: it goes through the gate if that is
an interrupt gate to a segment of 64-bit code of that level, without a stack of its own. -/
def deliver (gdt : List (BitVec 64)) (idt : List InterruptDescriptor) (vector : Fin numIdtEntries)
    (errorCode : BitVec 64) (c : Cpu) : Option Cpu := do
  let gate := gateOf (← idt[vector.val]?)
  let descriptor ← gdt[gate.selector.toNat / 8]?
  if gate.present ∧ gate.type = 0b1110 ∧ gate.ist = 0 ∧ IsKernelCode64 descriptor then
    return { c.pushFrame vector errorCode with
      rip := gate.offset
      rflags := c.rflags &&& ~~~gateClearedFlags
      cs := gate.selector }
  else none

end UltraKernel.X86.Interrupts
