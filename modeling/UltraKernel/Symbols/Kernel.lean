import UltraKernel.Symbols.Generator
import Mathlib.Algebra.Group.Int.Defs
import Mathlib.Algebra.Group.Nat.Defs

/-!
# Reading symbol names, as `symbols.c` does

A pointer into one of the emitted arrays is an index.  A read outside its array, or a write past
the end of `out_buf`, ends the run.
-/

namespace UltraKernel.Symbols

/-- What the kernel may not do. -/
inductive KernelBug where
  | readOutside
  | writeOutside
  deriving DecidableEq, Repr

/-- `MAX_SYMBOL_LENGTH`, the NUL included. -/
def maxSymbolLength : ℕ := 127 + 1

/-- `LEB128_MAX_PER_BYTE` -/
def leb128MaxPerByte : ℕ := (1 <<< leb128BitsPerByte) - 1

def readAt (array : List ℕ) (i : ℕ) : Outcome KernelBug ℕ :=
  match array[i]? with
  | some value => .done value
  | none => .halt .readOutside

/-- The length at the cursor, and the cursor after it. -/
def getCompressedSymbolLength (tables : NameTables) (cursor : ℕ) : Outcome KernelBug (ℕ × ℕ) := do
  let len ← readAt tables.compressedNames cursor
  if len &&& leb128HasNextByte ≠ 0 then
    let next ← readAt tables.compressedNames (cursor + 1)
    return ((len &&& leb128MaxPerByte) ||| (next <<< leb128BitsPerByte), cursor + 2)
  else
    return (len, cursor + 1)

/-- `*out_cursor++ = c`, where `out` is what was written so far. -/
def putChar (out : List ℕ) (c : ℕ) : Outcome KernelBug (List ℕ) :=
  if out.length < maxSymbolLength then .done (out ++ [c]) else .halt .writeOutside

/-- The loop `while (*token)`, over the token table from `token` on. -/
def copyToken : List ℕ → List ℕ → Outcome KernelBug (List ℕ)
  | [], _ => .halt .readOutside
  | c :: token, out => if c = 0 then .done out else putChar out c >>= copyToken token

/-- The loop `while (len--)`. -/
def uncompressLoop (tables : NameTables) : ℕ → ℕ → List ℕ → Outcome KernelBug (List ℕ)
  | 0, _, out => .done out
  | len + 1, cursor, out => do
    let token ← readAt tables.compressedNames cursor
    let offset ← readAt tables.tokenOffsets token
    let out ← copyToken (tables.tokenTable.drop offset) out
    uncompressLoop tables len (cursor + 1) out

/-- The bytes written to `out_buf`. -/
def uncompressSymbol (tables : NameTables) (compressedCursor : ℕ) :
    Outcome KernelBug (List ℕ) := do
  let (len, cursor) ← getCompressedSymbolLength tables compressedCursor
  let out ← uncompressLoop tables len cursor []
  putChar out 0

/-- The loop over the symbols before the one looked for. -/
def skipNames (tables : NameTables) : ℕ → ℕ → Outcome KernelBug ℕ
  | 0, cursor => .done cursor
  | n + 1, cursor => do
    let (len, cursor) ← getCompressedSymbolLength tables cursor
    skipNames tables n (cursor + len)

def getCompressedSymbolNameCursor (tables : NameTables) (index : ℕ) : Outcome KernelBug ℕ := do
  let cursor ← readAt tables.nameOffsets (index >>> 8)
  skipNames tables (index &&& 0xFF) cursor

/-! ### Looking up an address -/

/-- The bounds of the kernel's text, as the linker sets them. -/
structure TextSection where
  textBegin : ℕ
  textEnd : ℕ

def addressIsKernelCode (text : TextSection) (address : ℕ) : Bool :=
  text.textBegin ≤ address ∧ address ≤ text.textEnd

/-- `g_symbol_base` -/
def symbolBase (text : TextSection) (tables : SymbolTables) : ℤ :=
  tables.firstSymbolOffset + text.textBegin

/-- The loop of the binary search, which ends with `begin`. -/
def searchLoop (tables : SymbolTables) (relAddress : ℕ) : ℕ → ℕ → ℕ → Outcome KernelBug ℕ
  | 0, _, _ => .outOfFuel
  | fuel + 1, begin, stop =>
    if stop - begin > 1 then do
      let i := begin + (stop - begin) / 2
      let value ← readAt tables.relativeAddresses i
      if value ≤ relAddress then searchLoop tables relAddress fuel i stop
      else searchLoop tables relAddress fuel begin i
    else .done begin

/-- What is reported: the index of the symbol, the bytes of its name, and `*out_offset_within`. -/
structure Lookup where
  symbol : ℕ
  name : List ℕ
  offsetWithin : ℕ

def symbolLookupByAddress (fuel : ℕ) (text : TextSection) (tables : SymbolTables) (address : ℕ) :
    Outcome KernelBug (Except ErrorT Lookup) :=
  if ¬ addressIsKernelCode text address then .done (.error einval)
  else if tables.symbolCount = 0 then .done (.error enosys)
  else do
    let relAddress := ((address - symbolBase text tables) % 2 ^ 32).toNat
    let symbol ← searchLoop tables relAddress fuel 0 tables.symbolCount
    let symbolBase ← readAt tables.relativeAddresses symbol
    let cursor ← getCompressedSymbolNameCursor tables.toNameTables symbol
    let name ← uncompressSymbol tables.toNameTables cursor
    return .ok ⟨symbol, name, (relAddress + 2 ^ 32 - symbolBase) % 2 ^ 32⟩

end UltraKernel.Symbols
