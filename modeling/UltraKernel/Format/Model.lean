import UltraKernel.Common.Conversions
import UltraKernel.Lib.Outcome

/-!
# The formatter, as `common/format.c` computes it

`vsnprintf` walks over the format string, copies what is not a conversion, and for each conversion
reads its flags, width, precision and argument before it writes.  The target is a 64-bit one.

Reading a conversion does not touch the output, so it is a function of the format and the
arguments.  The loops that follow a list or count a number down are recursions on it; the loop over
the conversions and the two loops that pad strings run with fuel.
-/

namespace UltraKernel.Format

open Word

/-! ### Output -/

/-- `struct fmt_buf_state`; `buffer` is the memory from the pointer on. -/
structure FmtBufState where
  buffer : ℕ → Char
  capacity : ℕ
  bytesWritten : ℕ

/-- `struct fmt_spec` -/
structure FmtSpec where
  isSigned : Bool := false
  prepend : Bool := false
  uppercase : Bool := false
  leftJustify : Bool := false
  alternateForm : Bool := false
  hasPrecision : Bool := false
  padChar : Char := ' '
  prependChar : Char := nul
  minWidth : ℕ := 0
  precision : ℕ := 0
  base : ℕ := 10
  deriving DecidableEq

/-- What a run may not do: read an argument that is not there or of another type, or write outside
`repr_buffer`. -/
inductive FormatBug where
  | argument
  | reprBuffer
  deriving DecidableEq, Repr

def writeOne (fb : FmtBufState) (c : Char) : FmtBufState where
  buffer i := if i = fb.bytesWritten ∧ fb.bytesWritten < fb.capacity then c else fb.buffer i
  capacity := fb.capacity
  bytesWritten := add64 fb.bytesWritten 1

/-- `write_many` of the first `count` characters of `string`. -/
def writeMany (fb : FmtBufState) (string : List Char) (count : ℕ) : FmtBufState where
  buffer i :=
    let countToWrite := min count (fb.capacity - fb.bytesWritten)
    if fb.bytesWritten < fb.capacity ∧ fb.bytesWritten ≤ i ∧ i < fb.bytesWritten + countToWrite then
      string.getD (i - fb.bytesWritten) nul
    else fb.buffer i
  capacity := fb.capacity
  bytesWritten := add64 fb.bytesWritten count

/-- The loop of `write_padding`: `mw` counts down. -/
def paddingLoop (fm : FmtSpec) : ℕ → FmtBufState → FmtBufState
  | 0, fb => fb
  | mw + 1, fb => paddingLoop fm mw (writeOne fb (if fm.leftJustify then ' ' else fm.padChar))

def writePadding (fb : FmtBufState) (fm : FmtSpec) (reprSize : ℕ) : FmtBufState :=
  if fm.minWidth ≤ reprSize then fb else paddingLoop fm (fm.minWidth - reprSize) fb

/-! ### Integers -/

/-- `REPR_BUFFER_SIZE` -/
def reprBufferSize : ℕ := 32

def hexChar (upper : Bool) (value : ℕ) : Char :=
  (if upper then ['0', '1', '2', '3', '4', '5', '6', '7', '8', '9', 'A', 'B', 'C', 'D', 'E', 'F']
  else ['0', '1', '2', '3', '4', '5', '6', '7', '8', '9', 'a', 'b', 'c', 'd', 'e', 'f']).getD value nul

/-- `repr_buffer` is filled from its end: `index`, and the characters from there on. -/
structure ReprBuffer where
  index : ℕ
  text : List Char

/-- `repr_buffer[--index] = repr` -/
def ReprBuffer.store (repr : Char) : ReprBuffer → Outcome FormatBug ReprBuffer
  | ⟨0, _⟩ => .halt .reprBuffer
  | ⟨index + 1, text⟩ => .done ⟨index, repr :: text⟩

/-- The character of a remainder. -/
def digitChar (fm : FmtSpec) (remainder : ℕ) : Char :=
  if fm.base = 16 then hexChar fm.uppercase remainder
  else if fm.base = 8 ∨ fm.base = 10 then Char.ofNat (remainder + '0'.toNat)
  else '?'

/-- The loop `while (value)`; a digit that no longer fits would be written before the buffer. -/
def digitsLoop (fm : FmtSpec) : ℕ → ℕ → List Char → Outcome FormatBug ReprBuffer
  | 0, value, text => if value = 0 then .done ⟨0, text⟩ else .halt .reprBuffer
  | index + 1, value, text =>
    if value = 0 then .done ⟨index + 1, text⟩
    else digitsLoop fm index (value / fm.base) (digitChar fm (value % fm.base) :: text)

/-- The digits of a value, at least one, and `repr_size`. -/
def writeDigits (fm : FmtSpec) (value : ℕ) : Outcome FormatBug (ReprBuffer × ℕ) := do
  let repr ← digitsLoop fm reprBufferSize value []
  let reprSize := reprBufferSize - repr.index
  if reprSize = 0 then
    let repr ← repr.store '0'
    return (repr, 1)
  else
    return (repr, reprSize)

/-- The prefix of the alternate form. -/
def writeAlternate (fm : FmtSpec) (repr : ReprBuffer) (reprSize : ℕ) :
    Outcome FormatBug (ReprBuffer × ℕ) :=
  if fm.alternateForm ∧ fm.base = 16 then do
    let repr ← repr.store (if fm.uppercase then 'X' else 'x')
    let repr ← repr.store '0'
    return (repr, reprSize + 2)
  else if fm.alternateForm ∧ fm.base = 8 then do
    let repr ← repr.store '0'
    return (repr, reprSize + 1)
  else
    return (repr, reprSize)

/-- `repr_buffer` and `repr_size` as they are written out. -/
def representation (fm : FmtSpec) (value : ℕ) : Outcome FormatBug (ReprBuffer × ℕ) := do
  let (repr, reprSize) ← writeDigits fm value
  writeAlternate fm repr reprSize

def writeInteger (fb : FmtBufState) (fm : FmtSpec) (value : BitVec 64) :
    Outcome FormatBug FmtBufState := do
  let negative := fm.isSigned && value.msb
  let value := if negative then -value else value
  let fb := if fm.prepend || negative then
    writeOne fb (if negative then '-' else fm.prependChar) else fb
  let (repr, reprSize) ← representation fm value.toNat
  if fm.leftJustify then
    return writePadding (writeMany fb repr.text reprSize) fm reprSize
  else
    return writeMany (writePadding fb fm reprSize) repr.text reprSize

/-! ### Arguments -/

/-- An argument of the variable argument list, as it is passed. -/
inductive Arg where
  | int (value : BitVec 32)
  | longLong (value : BitVec 64)
  | string (text : Option (List Char))
  | structString (string : Option (List Char))
  | pointer (value : BitVec 64)
  deriving DecidableEq

/-- What ends the reading of a conversion: `vsnprintf` returns the negated error, or the argument
list does not match the format. -/
inductive ParseStop where
  | error (code : ErrorT)
  | argument
  deriving DecidableEq, Repr

/-- `va_arg` of an `int` or `u32`. -/
def vaInt : List Arg → Outcome ParseStop (BitVec 32 × List Arg)
  | .int value :: vlist => .done (value, vlist)
  | _ => .halt .argument

/-- `va_arg` of a `long`, `long long` or their unsigned types. -/
def vaLongLong : List Arg → Outcome ParseStop (BitVec 64 × List Arg)
  | .longLong value :: vlist => .done (value, vlist)
  | _ => .halt .argument

def vaString : List Arg → Outcome ParseStop (Option (List Char) × List Arg)
  | .string text :: vlist => .done (text, vlist)
  | _ => .halt .argument

def vaStructString : List Arg → Outcome ParseStop (Option (List Char) × List Arg)
  | .structString string :: vlist => .done (string, vlist)
  | _ => .halt .argument

def vaPointer : List Arg → Outcome ParseStop (BitVec 64 × List Arg)
  | .pointer value :: vlist => .done (value, vlist)
  | _ => .halt .argument

/-! ### Reading a conversion -/

def consume (fmt tok : List Char) : Option (List Char) :=
  if strStartsWith fmt tok then some (fmt.drop tok.length) else none

def consumeOneOf (str tokList : List Char) : Option (Char × List Char) :=
  match str with
  | [] => none
  | c :: str => if c ∈ tokList then some (c, str) else none

/-- The digits at the start of the format, and what follows them. -/
def consumeDigits : List Char → List Char × List Char
  | [] => ([], [])
  | c :: fmt =>
    if isdigit c then
      let (digits, rest) := consumeDigits fmt
      (c :: digits, rest)
    else ([], c :: fmt)

/-- `enum parse_number_mode` -/
inductive ParseNumberMode where
  | maybe
  | must
  deriving DecidableEq, Repr

/-- Without digits the value stays `outValue`. -/
def parseNumber (fmt : List Char) (mode : ParseNumberMode) (outValue : ℕ) :
    Outcome ParseStop (ℕ × List Char) :=
  let (digits, fmt) := consumeDigits fmt
  if digits = [] then
    if mode = .must then .halt (.error einval) else .done (outValue, fmt)
  else
    match strToU64WithBase digits 10 with
    | .ok value => .done (value, fmt)
    | .error code => .halt (.error code)

def baseFromSpecifier (specifier : Char) : ℕ :=
  if specifier = 'x' ∨ specifier = 'X' then 16
  else if specifier = 'o' then 8
  else 10

def isUppercaseSpecifier (specifier : Char) : Bool := specifier = 'X'

def setFlag (fm : FmtSpec) (flag : Char) : Outcome ParseStop FmtSpec :=
  if flag = '+' ∨ flag = ' ' then .done { fm with prepend := true, prependChar := flag }
  else if flag = '-' then .done { fm with leftJustify := true }
  else if flag = '0' then .done { fm with padChar := '0' }
  else if flag = '#' then .done { fm with alternateForm := true }
  else .halt (.error einval)

def parseFlags (fm : FmtSpec) : List Char → Outcome ParseStop (FmtSpec × List Char)
  | [] => .done (fm, [])
  | flag :: fmt =>
    if flag ∈ ['+', '-', ' ', '0', '#'] then
      setFlag fm flag >>= fun fm => parseFlags fm fmt
    else .done (fm, flag :: fmt)

/-- An `int` assigned to a `u64`. -/
def intToU64 (value : BitVec 32) : ℕ := (value.signExtend 64).toNat

def parseWidth (fm : FmtSpec) (fmt : List Char) (vlist : List Arg) :
    Outcome ParseStop (FmtSpec × List Char × List Arg) :=
  match consume fmt ['*'] with
  | some fmt => do
    let (width, vlist) ← vaInt vlist
    return ({ fm with minWidth := intToU64 width }, fmt, vlist)
  | none => do
    let (width, fmt) ← parseNumber fmt .maybe fm.minWidth
    return ({ fm with minWidth := width }, fmt, vlist)

def parsePrecision (fm : FmtSpec) (fmt : List Char) (vlist : List Arg) :
    Outcome ParseStop (FmtSpec × List Char × List Arg) :=
  match consume fmt ['.'] with
  | none => .done (fm, fmt, vlist)
  | some fmt =>
    let fm := { fm with hasPrecision := true }
    match consume fmt ['*'] with
    | some fmt => do
      let (precision, vlist) ← vaInt vlist
      return ({ fm with precision := intToU64 precision }, fmt, vlist)
    | none => do
      let (precision, fmt) ← parseNumber fmt .must fm.precision
      return ({ fm with precision := precision }, fmt, vlist)

/-- A conversion, with the argument it was given. -/
inductive Conversion where
  | char (c : Char)
  | string (fm : FmtSpec) (text : List Char)
  | structString (fm : FmtSpec) (string : List Char)
  | integer (fm : FmtSpec) (value : BitVec 64)
  deriving DecidableEq

/-- The length modifiers. -/
inductive Length where
  | hh
  | h
  | ll
  | none
  deriving DecidableEq, Repr

/-- The argument of an integer conversion, cast to the type of its length modifier and assigned to
a `u64`. -/
def Length.vaArg (isSigned : Bool) (vlist : List Arg) :
    Length → Outcome ParseStop (BitVec 64 × List Arg)
  | .hh => do
    let (value, vlist) ← vaInt vlist
    return (if isSigned then (value.setWidth 8).signExtend 64 else (value.setWidth 8).setWidth 64,
      vlist)
  | .h => do
    let (value, vlist) ← vaInt vlist
    return (if isSigned then (value.setWidth 16).signExtend 64
      else (value.setWidth 16).setWidth 64, vlist)
  | .ll => vaLongLong vlist
  | .none => do
    let (value, vlist) ← vaInt vlist
    return (if isSigned then value.signExtend 64 else value.setWidth 64, vlist)

/-- The specifier of an integer conversion, after its length modifier; the label `write_int`. -/
def parseInteger (length : Length) (fm : FmtSpec) (fmt : List Char) (vlist : List Arg) :
    Outcome ParseStop (Conversion × List Char × List Arg) :=
  match (consume fmt ['d']).or (consume fmt ['i']) with
  | some fmt => do
    let (value, vlist) ← length.vaArg true vlist
    return (.integer { fm with isSigned := true } value, fmt, vlist)
  | none =>
    match consumeOneOf fmt ['o', 'x', 'X', 'u'] with
    | some (flag, fmt) => do
      let (value, vlist) ← length.vaArg false vlist
      return (.integer { fm with base := baseFromSpecifier flag,
                                 uppercase := isUppercaseSpecifier flag } value, fmt, vlist)
    | none => .halt (.error einval)

/-- `ULTRA_ARCH_WIDTH` -/
def archWidth : ℕ := 8

/-- The conversion specifier and its argument.  `size_t` is as wide as `long` and `long long`, so
`z` is read as `ll` is. -/
def parseSpecifier (fm : FmtSpec) (fmt : List Char) (vlist : List Arg) :
    Outcome ParseStop (Conversion × List Char × List Arg) :=
  if let some fmt := consume fmt ['c'] then do
    let (c, vlist) ← vaInt vlist
    return (.char (Char.ofNat (c.setWidth 8).toNat), fmt, vlist)
  else if let some fmt := consume fmt ['s'] then do
    let (text, vlist) ← vaString vlist
    return (.string fm (text.getD ['<', 'n', 'u', 'l', 'l', '>']), fmt, vlist)
  else if let some fmt := consume fmt ['p'] then
    if let some fmt := consume fmt ['S'] then do
      let (string, vlist) ← vaStructString vlist
      return (.structString fm (string.getD
        ['<', 'n', 'u', 'l', 'l', '-', 's', 't', 'r', 'i', 'n', 'g', '>']), fmt, vlist)
    else do
      let (value, vlist) ← vaPointer vlist
      return (.integer { fm with base := 16, minWidth := archWidth * 2, padChar := '0' } value,
        fmt, vlist)
  else if let some fmt := consume fmt ['h', 'h'] then parseInteger .hh fm fmt vlist
  else if let some fmt := consume fmt ['h'] then parseInteger .h fm fmt vlist
  else if let some fmt := (consume fmt ['l', 'l']).or (consume fmt ['z']) then
    parseInteger .ll fm fmt vlist
  else if let some fmt := consume fmt ['l'] then parseInteger .ll fm fmt vlist
  else parseInteger .none fm fmt vlist

/-- A conversion, after its `%`. -/
def parseConversion (fmt : List Char) (vlist : List Arg) :
    Outcome ParseStop (Conversion × List Char × List Arg) := do
  let (fm, fmt) ← parseFlags {} fmt
  let (fm, fmt, vlist) ← parseWidth fm fmt vlist
  let (fm, fmt, vlist) ← parsePrecision fm fmt vlist
  parseSpecifier fm fmt vlist

/-! ### Writing a conversion -/

/-- The first loop of `%s`, and the index it stops at. -/
def stringLoop (fm : FmtSpec) : List Char → ℕ → FmtBufState → FmtBufState × ℕ
  | [], i, fb => (fb, i)
  | c :: text, i, fb =>
    if (¬ fm.hasPrecision ∨ i < fm.precision) ∧ c ≠ nul then
      stringLoop fm text (i + 1) (writeOne fb c)
    else (fb, i)

/-- The second loop of `%s`. -/
def stringPadding : ℕ → FmtBufState → ℕ → ℕ → Outcome FormatBug FmtBufState
  | 0, _, _, _ => .outOfFuel
  | fuel + 1, fb, i, minWidth =>
    if i < minWidth then stringPadding fuel (writeOne fb ' ') (i + 1) minWidth else .done fb

/-- The loop of `%pS`, which leaves `size` as it is. -/
def structStringPadding : ℕ → FmtBufState → ℕ → ℕ → Outcome FormatBug FmtBufState
  | 0, _, _, _ => .outOfFuel
  | fuel + 1, fb, size, precision =>
    if size < precision then structStringPadding fuel (writeOne fb ' ') size precision
    else .done fb

def writeConversion (fuel : ℕ) (fb : FmtBufState) : Conversion → Outcome FormatBug FmtBufState
  | .char c => .done (writeOne fb c)
  | .string fm text =>
    let (fb, i) := stringLoop fm text 0 fb
    stringPadding fuel fb i fm.minWidth
  | .structString fm string =>
    let size := if fm.hasPrecision then min fm.precision string.length else string.length
    structStringPadding fuel (writeMany fb string size) size fm.precision
  | .integer fm value => writeInteger fb fm value

/-! ### The main loop -/

/-- The offset of the next `%`, or the size of the format. -/
def nextOffset (fmt : List Char) : ℕ := (strFindOne fmt '%').getD fmt.length

/-- Copy the format up to its next `%`. -/
def writeLiteral (fb : FmtBufState) (fmt : List Char) : FmtBufState :=
  if nextOffset fmt ≠ 0 then writeMany fb fmt (nextOffset fmt) else fb

/-- The main loop of `vsnprintf`: the error it returns with, if any, and the output. -/
def formatLoop : ℕ → FmtBufState → List Char → List Arg →
    Outcome FormatBug (Option ErrorT × FmtBufState)
  | 0, _, _, _ => .outOfFuel
  | fuel + 1, fb, fmt, vlist =>
    if fmt = [] then .done (none, fb)
    else
      let fb := writeLiteral fb fmt
      let fmt := fmt.drop (nextOffset fmt)
      if fmt = [] then .done (none, fb)
      else
        match consume fmt ['%', '%'] with
        | some fmt => formatLoop fuel (writeOne fb '%') fmt vlist
        | none =>
          match parseConversion (fmt.drop 1) vlist with
          | .done (conversion, fmt, vlist) =>
            writeConversion fuel fb conversion >>= fun fb => formatLoop fuel fb fmt vlist
          | .halt (.error code) => .done (some code, fb)
          | .halt .argument => .halt .argument
          | .outOfFuel => .outOfFuel

/-- A `size_t` returned as an `int`. -/
def sizeToInt (n : ℕ) : ℤ := (BitVec.ofNat 32 n).toInt

/-- The NUL after the last character that fits. -/
def terminate (fb : FmtBufState) : FmtBufState :=
  if fb.capacity ≠ 0 then
    let lastChar := min fb.bytesWritten (fb.capacity - 1)
    { fb with buffer := fun i => if i = lastChar then nul else fb.buffer i }
  else fb

/-- The value `vsnprintf` returns, and the output as it leaves it. -/
def vsnprintf (fuel : ℕ) (buffer : ℕ → Char) (capacity : ℕ) (fmtStr : List Char)
    (vlist : List Arg) : Outcome FormatBug (ℤ × FmtBufState) := do
  let (error, fb) ← formatLoop fuel ⟨buffer, capacity, 0⟩ (strRuntime fmtStr) vlist
  match error with
  | some code => return (-(code : ℤ), fb)
  | none => return (sizeToInt fb.bytesWritten, terminate fb)

def vscnprintf (fuel : ℕ) (buffer : ℕ → Char) (capacity : ℕ) (fmtStr : List Char)
    (vlist : List Arg) : Outcome FormatBug (ℤ × FmtBufState) := do
  let (wouldHaveBeenWritten, fb) ← vsnprintf fuel buffer capacity fmtStr vlist
  if wouldHaveBeenWritten < 0 then return (wouldHaveBeenWritten, fb)
  else if wouldHaveBeenWritten < capacity then return (wouldHaveBeenWritten, fb)
  else return (if capacity ≠ 0 then sizeToInt (capacity - 1) else 0, fb)

end UltraKernel.Format
