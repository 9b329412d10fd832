import UltraKernel.Common.Strings
import UltraKernel.Lib.Program
import UltraKernel.Lib.Word

/-!
# Reading unwind data, as `unwind.c` does

`eh_data` is a pointer to the bytes that are left and their number.  Every read goes through
`consumeRaw`, which stops where the source would read past them.  What the language leaves
undefined (a shift by the width of its operand or more, a variable that was never set) is left
open as part of the machine.
-/

namespace UltraKernel.Unwind

open Word Program

/-- The registers of an architecture in DWARF terms: `ARCH_NUM_DWARF_REGISTERS`, `DWARF_SP_REG` and
`ARCH_DWARF_PC_REG`. -/
structure Arch where
  numRegisters : ℕ
  spReg : ℕ
  pcReg : ℕ
  spReg_lt : spReg < numRegisters
  pcReg_lt : pcReg < numRegisters
  numRegisters_le : numRegisters ≤ 256

def Arch.x86 : Arch := ⟨17, 7, 16, by decide, by decide, by decide⟩

def Arch.arm : Arch := ⟨33, 31, 32, by decide, by decide, by decide⟩

/-- What the language does not define: the shifts that are too wide, and the values of variables
that are read without having been set. -/
structure Undefined where
  shift32 : BitVec 32 → ℕ → BitVec 32
  shift64 : BitVec 64 → ℕ → BitVec 64
  numBytes : ℕ
  ruleOffset : ℕ → ℕ

/-- The machine, its memory, the symbols of the linker and the variables that `unwind_init` sets. -/
structure Machine where
  arch : Arch
  undefined : Undefined
  mem : ℕ → BitVec 8
  textBegin : ℕ
  ehFrameHdrBegin : ℕ
  unwinderAvailable : Bool
  fdeBinarySearchTable : ℕ
  fdeTableEncoding : ℕ
  fdeTableEntryWidth : ℕ
  numFdes : ℕ

/-- What a run may not do: read past the bytes that are left, or use, store or write at the index of
a register that there is not. -/
inductive UnwindBug where
  | overread
  | index
  deriving DecidableEq, Repr

/-- `struct eh_data` -/
structure EhData where
  cursor : ℕ
  bytesLeft : ℕ
  deriving DecidableEq, Repr

/-- What `unwind.c` warns of before it gives up with `ENOSYS`: the code that it does not handle. -/
inductive Warning where
  | format (format : BitVec 8)
  | scaling (scaling : BitVec 8)
  | augmentation (augIdx : BitVec 64) (augCh : BitVec 8)
  | opcode (opcode : BitVec 8)
  deriving DecidableEq, Repr

/-- The error code that a function returns, and the warning it gave on the way. -/
structure Returned where
  value : ErrorT
  warning : Option Warning
  deriving DecidableEq, Repr

/-- Most errors are returned without a word. -/
instance : Coe ErrorT Returned := ⟨fun value => ⟨value, none⟩⟩

/-- A program that reads unwind data. -/
abbrev Reader (α : Type) := Program UnwindBug Returned EhData α

/-- `ENOSYS`, with a warning. -/
def unhandled {σ α : Type} (warning : Warning) : Program UnwindBug Returned σ α :=
  fail ⟨enosys, some warning⟩

@[simp] theorem unhandled_run {σ α : Type} (warning : Warning) (s : σ) :
    (unhandled warning : Program UnwindBug Returned σ α) s =
      .done (.error ⟨enosys, some warning⟩, s) := rfl

/-- `memcpy` of `numBytes` bytes into a zeroed variable. -/
def readBytes (mem : ℕ → BitVec 8) : ℕ → ℕ → ℕ
  | _, 0 => 0
  | address, numBytes + 1 => (mem address).toNat + 256 * readBytes mem (address + 1) numBytes

/-- `EH_CONSUME_RAW_UNSAFE` into a zeroed variable. -/
def consumeRaw (m : Machine) (numBytes : ℕ) : Reader ℕ := fun data =>
  if data.bytesLeft < numBytes then .halt .overread
  else .done (.ok (readBytes m.mem data.cursor numBytes),
    ⟨data.cursor + numBytes, data.bytesLeft - numBytes⟩)

/-- A read that fails where too few bytes are left. -/
def consumeChecked (m : Machine) (numBytes : ℕ) (ret : ErrorT) : Reader ℕ := do
  let data ← get
  refuse (data.bytesLeft < numBytes) ret
  consumeRaw m numBytes

/-- `eh_consume` into a variable of the given size. -/
def ehConsume (m : Machine) (size : ℕ) : Reader ℕ := consumeChecked m size erange

/-- The length word at `cursor`, which is not part of the data. -/
def ehDataInit (m : Machine) (cursor : ℕ) : EhData :=
  let bytesLeft := readBytes m.mem cursor 4
  if bytesLeft = 0xFFFFFFFF then ⟨cursor + 12, readBytes m.mem (cursor + 4) 8⟩
  else ⟨cursor + 4, bytesLeft⟩

/-! ### Encoded values -/

/-- A shift of an `int`. -/
def shiftInt (m : Machine) (value : BitVec 32) (numBits : ℕ) : BitVec 32 :=
  if numBits < 32 then value <<< numBits else m.undefined.shift32 value numBits

/-- A shift of an `unsigned long long`. -/
def shiftU64 (m : Machine) (value : BitVec 64) (numBits : ℕ) : BitVec 64 :=
  if numBits < 64 then value <<< numBits else m.undefined.shift64 value numBits

/-- The loop over the bytes of a LEB128 number: the value and `num_bits`, a `u8`. -/
def leb128Loop (m : Machine) : ℕ → BitVec 64 → ℕ → Reader (BitVec 64 × ℕ)
  | 0, _, _ => outOfFuel
  | fuel + 1, value, numBits => do
    let byte ← ehConsume m 1
    let value := value ||| (shiftInt m (BitVec.ofNat 32 (byte % 128)) numBits).signExtend 64
    let numBits := (numBits + 7) % 256
    if 128 ≤ byte then leb128Loop m fuel value numBits else return (value, numBits)

/-- `DW_EH_PE_uleb128` -/
def dwEhPeUleb128 : ℕ := 0x01

/-- `DW_EH_PE_sleb128` -/
def dwEhPeSleb128 : ℕ := 0x09

/-- The sign extension at `out_no_copy`; `numBits` is 0 if the value was copied. -/
def signExtendValue (m : Machine) (format : ℕ) (value : BitVec 64) (numBits numBytes : ℕ) :
    BitVec 64 :=
  if format.testBit 3 then
    let numBits := if numBits = 0 then numBytes * 8 % 256 else numBits
    let numBits := (numBits + 255) % 256
    if value &&& shiftU64 m 1 numBits ≠ 0 then
      value ||| shiftU64 m (BitVec.allOnes 64) numBits
    else value
  else value

/-- The label `out_copy_data`. -/
def copyData (m : Machine) (format numBytes outValue : ℕ) : Reader ℕ := do
  let value ← consumeChecked m numBytes einval
  return add64 outValue (signExtendValue m format (BitVec.ofNat 64 value) 0 numBytes).toNat

/-- The value that is added to `outValue`. -/
def decodeFormat (m : Machine) (fuel format outValue : ℕ) : Reader ℕ :=
  if format = 0x00 then copyData m format 8 outValue
  else if format = dwEhPeSleb128 ∨ format = dwEhPeUleb128 then do
    let (value, numBits) ← leb128Loop m fuel 0 0
    return add64 outValue
      (signExtendValue m format value numBits m.undefined.numBytes).toNat
  else if format = 0x04 ∨ format = 0x0C then copyData m format 8 outValue
  else if format = 0x03 ∨ format = 0x0B then copyData m format 4 outValue
  else if format = 0x02 ∨ format = 0x0A then copyData m format 2 outValue
  else unhandled (.format (BitVec.ofNat 8 format))

/-- What a value is relative to, by the upper 4 bits of its encoding. -/
def scalingBase (m : Machine) (encoding : ℕ) : Reader ℕ := do
  let data ← get
  if encoding / 16 = 0 then return 0
  else if encoding / 16 = 1 then return data.cursor % 2 ^ 64
  else if encoding / 16 = 2 then return m.textBegin
  else if encoding / 16 = 3 then return m.ehFrameHdrBegin
  else unhandled (.scaling (BitVec.ofNat 8 (encoding / 16 * 16)))

/-- `decode_value` into a variable that is read only when it returns `EOK`. -/
def decodeValue (m : Machine) (fuel encoding : ℕ) : Reader ℕ := do
  let base ← scalingBase m encoding
  decodeFormat m fuel (encoding % 16) base

/-! ### The search table -/

/-- The search of `find_fde` in the entries from `begin` up to `end`. -/
def searchTable (m : Machine) (fuel pc : ℕ) :
    ℕ → ℕ → ℕ → Outcome UnwindBug (Except Returned ℕ)
  | 0, _, _ => .outOfFuel
  | rounds + 1, first, last =>
    if last - first > 1 then do
      let i := first + (last - first) / 2
      let (symAddr, _) ← decodeValue m fuel m.fdeTableEncoding
        ⟨m.fdeBinarySearchTable + i * m.fdeTableEntryWidth, m.fdeTableEntryWidth⟩
      match symAddr with
      | .error ret => return .error ret
      | .ok symAddr =>
        if symAddr ≤ pc then searchTable m fuel pc rounds i last
        else searchTable m fuel pc rounds first i
    else return .ok first

/-- The address of an FDE, or an error code in its place. -/
def findFde (m : Machine) (fuel pc : ℕ) : Outcome UnwindBug Returned := do
  match ← searchTable m fuel pc fuel 0 m.numFdes with
  | .error ret => return ret
  | .ok first =>
    let (fdeAddr, _) ← decodeValue m fuel m.fdeTableEncoding
      ⟨m.fdeBinarySearchTable + first * m.fdeTableEntryWidth + m.fdeTableEntryWidth / 2,
        m.fdeTableEntryWidth / 2⟩
    match fdeAddr with
    | .error ret => return ret
    | .ok fdeAddr => return fdeAddr

end UltraKernel.Unwind
