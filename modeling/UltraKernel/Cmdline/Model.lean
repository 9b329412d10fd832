import UltraKernel.Common.StringContainer
import UltraKernel.Param.Operations

/-!
# Parsing the command line, as `param.c` does

One string moves over the line.  A key grows over the characters up to whitespace, `=` or the end,
a value is a substring, and `--` ends the parse wherever a key is read.  A parameter is set through
its operations, which act on a memory that the parameters share; what the parse reports, to
`unknown_cb` or to the log, is recorded in order.
-/

namespace UltraKernel.Cmdline

open UltraKernel.Param

/-- `struct param_ops`, for values in a memory. -/
structure ParamOps (μ : Type) where
  allowsEmptyValue : Bool
  set : List Char → μ → ErrorT × μ

/-- `struct param` -/
structure Param (μ : Type) where
  name : List Char
  ops : ParamOps μ

/-- A value in the memory: how it is read, and how it is written. -/
structure Location (μ α : Type) where
  read : μ → α
  write : α → μ → μ
  write_read : ∀ memory, write (read memory) memory = memory

/-- The operations on a value in the memory. -/
def opsAt {μ α : Type} (location : Location μ α) (allowsEmptyValue : Bool)
    (set : List Char → α → ErrorT × α) : ParamOps μ where
  allowsEmptyValue := allowsEmptyValue
  set str memory :=
    let (ret, value) := set str (location.read memory)
    (ret, location.write value memory)

/-- `g_param_*_ops` of the integer types. -/
def intOps {μ : Type} (t : IntType) (location : Location μ ℤ) : ParamOps μ :=
  opsAt location false (paramSet · · t)

/-- `g_param_bool_ops` -/
def boolOps {μ : Type} (location : Location μ Bool) : ParamOps μ := opsAt location true paramSetBool

/-- `g_param_string_ops` -/
def stringOps {μ : Type} (location : Location μ (List Char)) : ParamOps μ :=
  opsAt location false paramSetString

/-- `unknown_param_cb_t` -/
abbrev UnknownParamCb (μ : Type) := List Char → List Char → μ → μ

/-- What the parse reports: a call of `unknown_cb`, or the message for a value that was refused. -/
inductive Event where
  | unknown (key value : List Char)
  | bad (key value : List Char) (ret : ErrorT)
  deriving DecidableEq, Repr

/-- What a parse has done so far. -/
structure Effects (μ : Type) where
  memory : μ
  events : List Event

def dashToUnderscore (c : Char) : Char := if c = '-' then '_' else c

def cmdlineNameCompare (lhs rhs : Char) : Bool := dashToUnderscore lhs = dashToUnderscore rhs

variable {μ : Type}

def findParam (name : List Char) (params : List (Param μ)) : Option (Param μ) :=
  params.find? fun p => strEqualsWithCb p.name name cmdlineNameCompare

def cmdlineTrim : ℕ → Str → Outcome StringBug Str
  | 0, _ => .outOfFuel
  | fuel + 1, cmdline =>
    if strEmpty cmdline then .done cmdline
    else do
      if isspace (← charAt cmdline 0) then
        let cmdline ← strOffsetBy cmdline 1
        cmdlineTrim fuel cmdline
      else return cmdline

def matchWhitespace (str : Str) : Outcome StringBug Bool := isspace <$> charAt str 0

/-- How the loop over a key ends: on `--`, with what follows it, or with a key, its value and the
line from where the scan stopped. -/
inductive Scan where
  | finished (cmdline : Str)
  | item (key value cmdline : Str)

/-- The test whether the value after an `=` is quoted. -/
def startsWithQuote (cmdline : Str) : Outcome StringBug Bool :=
  if strEmpty cmdline then .done false else (· = '"') <$> charAt cmdline 0

/-- The value up to `valueEnd`, or all that is left, and the line after it. -/
def takeValue (cmdline : Str) (valueEnd : Option ℕ) : Outcome StringBug (Str × Str) := do
  let valueEnd := valueEnd.getD cmdline.size
  let value ← strSubstring cmdline 0 valueEnd
  let cmdline ← strOffsetBy cmdline valueEnd
  return (value, cmdline)

/-- The value of a key, after its `=`, and the line that is left. -/
def scanValue (fuel : ℕ) (cmdline : Str) : Outcome StringBug (Str × Str) := do
  if ← startsWithQuote cmdline then
    let cmdline ← strOffsetBy cmdline 1
    takeValue cmdline (strFindOne cmdline.chars '"')
  else
    let valueEnd ← strFindWithCb fuel cmdline matchWhitespace 0
    takeValue cmdline valueEnd

/-- The loop that reads a key and its value. -/
def scanItem : ℕ → Str → Str → Outcome StringBug Scan
  | 0, _, _ => .outOfFuel
  | fuel + 1, key, cmdline =>
    if strEmpty cmdline then .done (.item key strClear cmdline)
    else if strStartsWith cmdline.chars ['-', '-'] then do
      -- the rest of the arguments are for init
      let cmdline ← strOffsetBy cmdline 2
      let cmdline ← cmdlineTrim fuel cmdline
      return .finished cmdline
    else do
      let c ← charAt cmdline 0
      if isspace c then
        let cmdline ← cmdlineTrim fuel cmdline
        return .item key strClear cmdline
      else if c = '=' then
        let cmdline ← strOffsetBy cmdline 1
        let (value, cmdline) ← scanValue fuel cmdline
        return .item key value cmdline
      else
        let key ← strExtendBy key 1
        let cmdline ← strOffsetBy cmdline 1
        scanItem fuel key cmdline

/-- What is done with a key and its value. -/
def handleItem (params : List (Param μ)) (unknownCb : Option (UnknownParamCb μ))
    (key value : List Char) (effects : Effects μ) : Effects μ :=
  match findParam key params with
  | none =>
    match unknownCb with
    | none => effects
    | some cb => ⟨cb key value effects.memory, effects.events ++ [.unknown key value]⟩
  | some p =>
    let (ret, memory) := if value ≠ [] ∨ p.ops.allowsEmptyValue then p.ops.set value effects.memory
      else (einval, effects.memory)
    ⟨memory, if ret ≠ eok then effects.events ++ [.bad key value ret] else effects.events⟩

/-- The main loop of `cmdline_parse`. -/
def parseLoop (params : List (Param μ)) (unknownCb : Option (UnknownParamCb μ)) :
    ℕ → Str → Effects μ → Outcome StringBug (Str × Effects μ)
  | 0, _, _ => .outOfFuel
  | fuel + 1, cmdline, effects => do
    match ← scanItem fuel ⟨cmdline.text, 0⟩ cmdline with
    | .finished cmdline => return (cmdline, effects)
    | .item key value cmdline =>
      if strEmpty key then return (cmdline, effects)
      else
        let cmdline ← cmdlineTrim fuel cmdline
        parseLoop params unknownCb fuel cmdline
          (handleItem params unknownCb key.chars value.chars effects)

/-- The string that is returned, and what the parse did. -/
def cmdlineParse (fuel : ℕ) (cmdline : Str) (params : List (Param μ))
    (unknownCb : Option (UnknownParamCb μ)) (memory : μ) :
    Outcome StringBug (Str × Effects μ) := do
  let cmdline ← cmdlineTrim fuel cmdline
  parseLoop params unknownCb fuel cmdline ⟨memory, []⟩

end UltraKernel.Cmdline
