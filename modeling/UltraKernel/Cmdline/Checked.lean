import UltraKernel.Cmdline.Lexer
import UltraKernel.Param.Sized

/-!
# Parsing with the checks of `struct string` throughout

The parse for a table of parameters of the built-in types, whose `set` operations work on the string
that the scanner hands them.  They stop where `BUG_ON` would or where a character outside the string
is read, and so does the parse.

* `handleItem_holds`, `parseLoop_agrees`: no operation stops, and the parse is the one with the
  operations on lists;
* `cmdlineParse_safe`: any line is parsed, and a suffix of it is returned.
-/

namespace UltraKernel.Sized

open Outcome UltraKernel.Cmdline

/-- `struct param_ops` -/
structure ParamOps (μ : Type) where
  allowsEmptyValue : Bool
  set : Str → μ → Outcome StringBug (ErrorT × μ)

def opsAt {μ α : Type} (location : Location μ α) (allowsEmptyValue : Bool)
    (set : Str → α → Outcome StringBug (ErrorT × α)) : ParamOps μ where
  allowsEmptyValue := allowsEmptyValue
  set str memory := do
    let (ret, value) ← set str (location.read memory)
    return (ret, location.write value memory)

/-- The types that `param.c` has operations for, with the place of the value. -/
inductive BuiltIn (μ : Type) where
  | int (t : IntType) (location : Location μ ℤ)
  | bool (location : Location μ Bool)
  | string (location : Location μ (List Char))

variable {μ : Type}

/-- `PARAM_TYPE_OPS` -/
def BuiltIn.ops : BuiltIn μ → ParamOps μ
  | int t location => opsAt location false (paramSet t)
  | bool location => opsAt location true paramSetBool
  | string location => opsAt location false paramSetString

/-- The operations on lists of characters. -/
def BuiltIn.plainOps : BuiltIn μ → Cmdline.ParamOps μ
  | int t location => intOps t location
  | bool location => boolOps location
  | string location => stringOps location

/-- `struct param`, of a built-in type. -/
structure Param (μ : Type) where
  name : List Char
  type : BuiltIn μ

def Param.plain (p : Param μ) : Cmdline.Param μ := ⟨p.name, p.type.plainOps⟩

def findParam (name : List Char) (params : List (Param μ)) : Option (Param μ) :=
  params.find? fun p => strEqualsWithCb p.name name cmdlineNameCompare

/-- What is done with a key and its value. -/
def handleItem (params : List (Param μ)) (unknownCb : Option (UnknownParamCb μ)) (key value : Str)
    (effects : Effects μ) : Outcome StringBug (Effects μ) :=
  match findParam key.chars params with
  | none =>
    match unknownCb with
    | none => .done effects
    | some cb => .done ⟨cb key.chars value.chars effects.memory,
        effects.events ++ [.unknown key.chars value.chars]⟩
  | some p => do
    let (ret, memory) ← if ¬ strEmpty value ∨ p.type.ops.allowsEmptyValue
      then p.type.ops.set value effects.memory
      else .done (einval, effects.memory)
    return ⟨memory, if ret ≠ eok then effects.events ++ [.bad key.chars value.chars ret]
      else effects.events⟩

/-- The main loop of `cmdline_parse`. -/
def parseLoop (params : List (Param μ)) (unknownCb : Option (UnknownParamCb μ)) :
    ℕ → Str → Effects μ → Outcome StringBug (Str × Effects μ)
  | 0, _, _ => .outOfFuel
  | fuel + 1, cmdline, effects => do
    match ← scanItem fuel ⟨cmdline.text, 0⟩ cmdline with
    | .finished cmdline => return (cmdline, effects)
    | .item key value cmdline =>
      if strEmpty key then return (cmdline, effects)
      else
        let effects ← handleItem params unknownCb key value effects
        let cmdline ← cmdlineTrim fuel cmdline
        parseLoop params unknownCb fuel cmdline effects

def cmdlineParse (fuel : ℕ) (cmdline : Str) (params : List (Param μ))
    (unknownCb : Option (UnknownParamCb μ)) (memory : μ) :
    Outcome StringBug (Str × Effects μ) := do
  let cmdline ← cmdlineTrim fuel cmdline
  parseLoop params unknownCb fuel cmdline ⟨memory, []⟩

section Agreement

variable {str key value cmdline : Str} {k v line : List Char} {fuel : ℕ}

theorem opsAt_holds {α : Type} (set : Str → α → Outcome StringBug (ErrorT × α))
    (plainSet : List Char → α → ErrorT × α)
    (hset : ∀ res, set str res = .done (plainSet line res)) (location : Location μ α)
    (allowsEmptyValue : Bool) (memory : μ) :
    (opsAt location allowsEmptyValue set).set str memory =
      .done ((Cmdline.opsAt location allowsEmptyValue plainSet).set line memory) := by
  show (set str (location.read memory) >>= _) = _
  rw [hset, done_bind]
  rfl

/-- **No `set` operation stops**: it does what the one on lists does. -/
theorem BuiltIn.set_holds (h : str.Holds line) (type : BuiltIn μ) (memory : μ) :
    type.ops.set str memory = .done (type.plainOps.set line memory) := by
  cases type with
  | int t location => exact opsAt_holds _ (Param.paramSet · · t) (paramSet_holds t h) location false memory
  | bool location => exact opsAt_holds _ _ (paramSetBool_holds h) location true memory
  | string location => exact opsAt_holds _ _ (paramSetString_holds h) location false memory

theorem BuiltIn.allowsEmptyValue_eq (type : BuiltIn μ) :
    type.plainOps.allowsEmptyValue = type.ops.allowsEmptyValue := by
  cases type with
  | int => rfl
  | bool => rfl
  | string => rfl

theorem findParam_plain (name : List Char) (params : List (Param μ)) :
    Cmdline.findParam name (params.map Param.plain) = (findParam name params).map Param.plain :=
  List.find?_map

/-- **A key and its value** are handled without a stop. -/
theorem handleItem_holds (params : List (Param μ)) (unknownCb : Option (UnknownParamCb μ))
    (hkey : key.Holds k) (hvalue : value.Holds v) (effects : Effects μ) :
    handleItem params unknownCb key value effects =
      .done (Cmdline.handleItem (params.map Param.plain) unknownCb k v effects) := by
  unfold handleItem Cmdline.handleItem
  rw [hkey.chars_eq, hvalue.chars_eq, findParam_plain]
  cases findParam k params with
  | none =>
    cases unknownCb with
    | none => rfl
    | some cb => rfl
  | some p =>
    have hempty : (¬ strEmpty value = true ∨ p.type.ops.allowsEmptyValue = true) ↔
        (v ≠ [] ∨ p.plain.ops.allowsEmptyValue = true) := by
      rw [hvalue.strEmpty, decide_eq_true_eq]
      show _ ↔ v ≠ [] ∨ p.type.plainOps.allowsEmptyValue = true
      rw [p.type.allowsEmptyValue_eq]
    dsimp only [Option.map_some]
    by_cases hset : v ≠ [] ∨ p.plain.ops.allowsEmptyValue = true
    · rw [if_pos (hempty.mpr hset), if_pos hset, p.type.set_holds hvalue, done_bind]
      rfl
    · rw [if_neg fun h => hset (hempty.mp h), if_neg hset, done_bind]
      rfl

/-- **The main loop** is the one with the operations on lists. -/
theorem parseLoop_agrees (params : List (Param μ)) (unknownCb : Option (UnknownParamCb μ))
    (hfuel : line.length + 3 ≤ fuel) (hstart : ∀ c, line.head? = some c → isspace c = false)
    (h : cmdline.Holds line) (effects : Effects μ) :
    parseLoop params unknownCb fuel cmdline effects =
      Cmdline.parseLoop (params.map Param.plain) unknownCb fuel cmdline effects := by
  induction fuel generalizing cmdline line effects with
  | zero => omega
  | succ fuel ih =>
    obtain ⟨scan, hscan, hlexed⟩ := scanItem_lexes (show line.length + 2 ≤ fuel by omega)
      (fun _ => hstart) (holds_nil cmdline.text) (adjacent_start cmdline) h
    rw [parseLoop, Cmdline.parseLoop, hscan, done_bind, done_bind]
    cases scan with
    | finished cmdline' => rfl
    | item key value inside =>
      obtain ⟨k, v, left, hkey, hvalue, hinside, hlength, _⟩ := hlexed
      dsimp only
      by_cases hk : k = []
      · have hempty : strEmpty key = true := by simpa [hkey.strEmpty] using hk
        rw [if_pos hempty, if_pos hempty]
      · have hempty : ¬ strEmpty key = true := by simpa [hkey.strEmpty] using hk
        have hpos := List.length_pos_iff.mpr hk
        have hdropped := (List.dropWhile_sublist isspace (l := left)).length_le
        rw [List.length_nil] at hlength
        obtain ⟨cmdline', htrim, hcmdline'⟩ :=
          cmdlineTrim_holds (show left.length < fuel by omega) hinside
        rw [if_neg hempty, if_neg hempty, handleItem_holds params unknownCb hkey hvalue, done_bind,
          htrim, done_bind, done_bind, hkey.chars_eq, hvalue.chars_eq]
        exact ih (show _ + 3 ≤ fuel by omega) (dropWhile_head left) hcmdline' _

theorem cmdlineParse_agrees (params : List (Param μ)) (unknownCb : Option (UnknownParamCb μ))
    (hfuel : line.length + 3 ≤ fuel) (h : cmdline.Holds line) (memory : μ) :
    cmdlineParse fuel cmdline params unknownCb memory =
      Cmdline.cmdlineParse fuel cmdline (params.map Param.plain) unknownCb memory := by
  obtain ⟨cmdline', htrim, hcmdline'⟩ := cmdlineTrim_holds (show _ < fuel by omega) h
  have hdropped := (List.dropWhile_sublist isspace (l := line)).length_le
  rw [cmdlineParse, Cmdline.cmdlineParse, htrim, done_bind, done_bind]
  exact parseLoop_agrees params unknownCb (by omega) (dropWhile_head line) hcmdline' _

/-- **Every line is parsed**, with any parameters of the built-in types: no `BUG_ON` is reached, no
character outside a string is read, and what is returned is a suffix of the line. -/
theorem cmdlineParse_safe (params : List (Param μ)) (unknownCb : Option (UnknownParamCb μ))
    (hfuel : line.length + 3 ≤ fuel) (h : cmdline.Holds line) (memory : μ) :
    ∃ result effects, cmdlineParse fuel cmdline params unknownCb memory =
      .done (result, effects) ∧ result.chars <:+ line := by
  obtain ⟨result, hrun, hresult⟩ :=
    cmdlineParse_lexes (params.map Param.plain) unknownCb hfuel h memory
  refine ⟨result, _, (cmdlineParse_agrees params unknownCb hfuel h memory).trans hrun, ?_⟩
  rw [hresult.chars_eq]
  exact lex_suffix (.key []) line

/-- The line `a="-`, with an integer parameter `a`. -/
theorem cmdlineParse_safe_unterminated : ∃ result effects,
    cmdlineParse 7 ⟨some ['a', '=', '"', '-'], 4⟩
        [⟨['a'], .int .i8 ⟨id, fun value _ => value, fun _ => rfl⟩⟩] none 5 =
      .done (result, effects) ∧ result.chars <:+ ['a', '=', '"', '-'] :=
  cmdlineParse_safe _ none (by decide) (holds_of_text ['a', '=', '"', '-'] []) 5

end Agreement

end UltraKernel.Sized
