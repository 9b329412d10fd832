import UltraKernel.Format.Model

/-!
# Setting and getting parameters, as `param.c` does

A parameter of an integer type is printed with `%d` or `%u`, after the promotion of its type, or
with their `ll` forms, and read back by the conversion of its type, which detects the base.
-/

namespace UltraKernel.Param

open Word Format

/-- A `struct string` whose text is written to; the text is the memory from the pointer on. -/
structure OutString where
  mutableText : ℕ → Char
  size : ℕ
  size_lt : size < 2 ^ 64

/-- The string that an output string holds. -/
def OutString.text (outStr : OutString) : List Char :=
  (List.range outStr.size).map outStr.mutableText

/-- What a `set` operation does with a conversion of the string: only a success is stored. -/
def store {α : Type} (value : α) : Except ErrorT α → ErrorT × α
  | .ok value => (eok, value)
  | .error code => (code, value)

/-- `PARAM_GET_OPS_TEMPLATE`: the value is passed as `arg`. -/
def paramGetWithFmt (fmt : List Char) (fuel : ℕ) (outStr : OutString) (arg : Arg) :
    Outcome FormatBug (ℕ × OutString) := do
  let (written, fb) ← vsnprintf fuel outStr.mutableText outStr.size fmt [arg]
  let bytes := (BitVec.ofInt 64 written).toNat
  return (bytes, ⟨fb.buffer, min bytes outStr.size,
    (Nat.min_le_right _ _).trans_lt outStr.size_lt⟩)

/-- An integer that is passed as an `int`. -/
def promoted (value : ℤ) : Arg := .int (BitVec.ofInt 32 value)

/-! ### The operations of each type -/

def paramSetI8 (str : List Char) (value : ℤ) : ErrorT × ℤ := store value (IntType.i8.strTo str)

def paramSetU8 (str : List Char) (value : ℤ) : ErrorT × ℤ := store value (IntType.u8.strTo str)

def paramSetI16 (str : List Char) (value : ℤ) : ErrorT × ℤ := store value (IntType.i16.strTo str)

def paramSetU16 (str : List Char) (value : ℤ) : ErrorT × ℤ := store value (IntType.u16.strTo str)

def paramSetI32 (str : List Char) (value : ℤ) : ErrorT × ℤ := store value (IntType.i32.strTo str)

def paramSetU32 (str : List Char) (value : ℤ) : ErrorT × ℤ := store value (IntType.u32.strTo str)

def paramSetI64 (str : List Char) (value : ℤ) : ErrorT × ℤ := store value (IntType.i64.strTo str)

def paramSetU64 (str : List Char) (value : ℤ) : ErrorT × ℤ := store value (IntType.u64.strTo str)

def paramGetI8 (fuel : ℕ) (outStr : OutString) (value : ℤ) : Outcome FormatBug (ℕ × OutString) :=
  paramGetWithFmt ['%', 'd'] fuel outStr (promoted value)

def paramGetU8 (fuel : ℕ) (outStr : OutString) (value : ℤ) : Outcome FormatBug (ℕ × OutString) :=
  paramGetWithFmt ['%', 'u'] fuel outStr (promoted value)

def paramGetI16 (fuel : ℕ) (outStr : OutString) (value : ℤ) : Outcome FormatBug (ℕ × OutString) :=
  paramGetWithFmt ['%', 'd'] fuel outStr (promoted value)

def paramGetU16 (fuel : ℕ) (outStr : OutString) (value : ℤ) : Outcome FormatBug (ℕ × OutString) :=
  paramGetWithFmt ['%', 'u'] fuel outStr (promoted value)

def paramGetI32 (fuel : ℕ) (outStr : OutString) (value : ℤ) : Outcome FormatBug (ℕ × OutString) :=
  paramGetWithFmt ['%', 'd'] fuel outStr (promoted value)

def paramGetU32 (fuel : ℕ) (outStr : OutString) (value : ℤ) : Outcome FormatBug (ℕ × OutString) :=
  paramGetWithFmt ['%', 'u'] fuel outStr (promoted value)

def paramGetI64 (fuel : ℕ) (outStr : OutString) (value : ℤ) : Outcome FormatBug (ℕ × OutString) :=
  paramGetWithFmt ['%', 'l', 'l', 'd'] fuel outStr (.longLong (BitVec.ofInt 64 value))

def paramGetU64 (fuel : ℕ) (outStr : OutString) (value : ℤ) : Outcome FormatBug (ℕ × OutString) :=
  paramGetWithFmt ['%', 'l', 'l', 'u'] fuel outStr (.longLong (BitVec.ofInt 64 value))

/-- An empty value means true. -/
def paramSetBool (str : List Char) (value : Bool) : ErrorT × Bool :=
  if str = [] then (eok, true) else store value (strToBool str)

def paramGetBool (fuel : ℕ) (outStr : OutString) (value : Bool) :
    Outcome FormatBug (ℕ × OutString) :=
  paramGetWithFmt ['%', 'd'] fuel outStr (promoted value.toNat)

def paramSetString (str _value : List Char) : ErrorT × List Char := (eok, str)

def paramGetString (dst : OutString) (src : List Char) : ℕ × OutString :=
  (src.length,
    { mutableText := fun i =>
        if i < min src.length dst.size then src.getD i nul
        else if dst.size > src.length ∧ i = src.length then nul
        else dst.mutableText i
      size := min src.length dst.size
      size_lt := (Nat.min_le_right _ _).trans_lt dst.size_lt })

/-- The functions `param_set_*` of the integer types. -/
def paramSet (str : List Char) (value : ℤ) : IntType → ErrorT × ℤ
  | .i8 => paramSetI8 str value
  | .u8 => paramSetU8 str value
  | .i16 => paramSetI16 str value
  | .u16 => paramSetU16 str value
  | .i32 => paramSetI32 str value
  | .u32 => paramSetU32 str value
  | .i64 => paramSetI64 str value
  | .u64 => paramSetU64 str value

/-- The functions `param_get_*` of the integer types. -/
def paramGet (fuel : ℕ) (outStr : OutString) (value : ℤ) :
    IntType → Outcome FormatBug (ℕ × OutString)
  | .i8 => paramGetI8 fuel outStr value
  | .u8 => paramGetU8 fuel outStr value
  | .i16 => paramGetI16 fuel outStr value
  | .u16 => paramGetU16 fuel outStr value
  | .i32 => paramGetI32 fuel outStr value
  | .u32 => paramGetU32 fuel outStr value
  | .i64 => paramGetI64 fuel outStr value
  | .u64 => paramGetU64 fuel outStr value

end UltraKernel.Param
