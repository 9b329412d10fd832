import UltraKernel.Console.Model
import UltraKernel.Format.Model
import UltraKernel.Symbols.Kernel
import UltraKernel.Unwind.Model

/-!
# Printing, as `log.c` does

A message is formatted into `log_buf` and given to every console.  A stack trace is a message for each
frame of a walk.
-/

namespace UltraKernel.Log

open Word Console Format Symbols Unwind

variable {ι : Type}

/-! ### Levels -/

/-- `enum log_level` -/
inductive LogLevel where
  | emerg
  | alert
  | crit
  | err
  | warn
  | notice
  | info
  | debug
  deriving DecidableEq, Repr

/-- The levels by their numbers. -/
def LogLevel.all : List LogLevel := [.emerg, .alert, .crit, .err, .warn, .notice, .info, .debug]

/-- `LOG_LEVEL_DEFAULT` -/
def logLevelDefault : LogLevel := .notice

/-- `LOG_LEVEL_PREFIX_CHAR` -/
def logLevelPrefixChar : Char := Char.ofNat 1

/-- The size of the prefix, and `*out_level`. -/
def extractMsgLevel (msg : List Char) (outLevel : LogLevel) : ℕ × LogLevel :=
  if msg.getD 0 nul ≠ logLevelPrefixChar then (0, outLevel)
  else if msg.getD 1 nul = nul then (1, outLevel)
  else
    let level := ((msg.getD 1 nul).toNat + 2 ^ 8 - '0'.toNat) % 2 ^ 8
    (2, LogLevel.all.getD level outLevel)

/-- The prefix of a level: `LOG_EMERG` and the others. -/
def LogLevel.text : LogLevel → List Char
  | emerg => [logLevelPrefixChar, '0']
  | alert => [logLevelPrefixChar, '1']
  | crit => [logLevelPrefixChar, '2']
  | err => [logLevelPrefixChar, '3']
  | warn => [logLevelPrefixChar, '4']
  | notice => [logLevelPrefixChar, '5']
  | info => [logLevelPrefixChar, '6']
  | debug => [logLevelPrefixChar, '7']

/-! ### Messages -/

/-- What a run may not do, in any of its parts. -/
inductive LogBug where
  | format (bug : FormatBug)
  | symbols (bug : KernelBug)
  | unwind (bug : UnwindBug)
  deriving DecidableEq, Repr

/-- `log_buf`, and the calls of the `write` callbacks so far. -/
structure Sink (ι : Type) where
  logBuf : ℕ → Char
  writes : List (ι × List Char)

/-- `sizeof(log_buf)` -/
def logBufSize : ℕ := 256

def vprint (fuel : ℕ) (list : ConsoleList ι) (msg : Option (List Char)) (vlist : List Arg)
    (sink : Sink ι) : Outcome LogBug (Sink ι) :=
  match msg with
  | none => .done sink
  | some msg => do
    let msg := msg.drop (extractMsgLevel msg logLevelDefault).1
    let (chars, fb) ← (vscnprintf fuel sink.logBuf logBufSize msg vlist).mapHalt .format
    if chars < 0 then return { sink with logBuf := fb.buffer }
    else
      let str := (List.range chars.toNat).map fb.buffer
      let writes ← (consoleWrite fuel str list).mapHalt Empty.elim
      return ⟨fb.buffer, sink.writes ++ writes⟩

def print (fuel : ℕ) (list : ConsoleList ι) (msg : List Char) (vlist : List Arg) (sink : Sink ι) :
    Outcome LogBug (Sink ι) := vprint fuel list (some msg) vlist sink

/-- The `pr_warn` of `unwind.c` for a warning, with its arguments. -/
def warningMessage : Warning → List Char × List Arg
  | .format format =>
    (LogLevel.warn.text ++ ("unwind: unhandled DWARF format %d\n").toList, [.int (format.setWidth 32)])
  | .scaling scaling =>
    (LogLevel.warn.text ++ ("unwind: unhandled DWARF scaling %d\n").toList, [.int (scaling.setWidth 32)])
  | .augmentation augIdx augCh =>
    (LogLevel.warn.text ++ ("unwind: unhandled DWARF augmentation @%zu: '%c'\n").toList,
      [.longLong augIdx, .int (augCh.signExtend 32)])
  | .opcode opcode =>
    (LogLevel.warn.text ++ ("unwind: unhandled DWARF CFA opcode 0x%02X\n").toList,
      [.int (opcode.setWidth 32)])

/-- The warning that an error was returned with, if there was one. -/
def printWarning (fuel : ℕ) (list : ConsoleList ι) (ret : Returned) (sink : Sink ι) :
    Outcome LogBug (Sink ι) :=
  match ret.warning with
  | none => .done sink
  | some warning => print fuel list (warningMessage warning).1 (warningMessage warning).2 sink

/-! ### Stack traces -/

/-- What a trace works on: the consoles, the symbols and the unwind data of the kernel. -/
structure Image (ι : Type) where
  consoles : ConsoleList ι
  text : TextSection
  tables : SymbolTables
  machine : Machine

/-- `struct dump_state` -/
structure DumpState where
  level : LogLevel
  depth : ℕ

/-- The callback of the walk, which asks for the next frame. -/
def doDumpFrame (fuel : ℕ) (image : Image ι) (state : DumpState) (addr : ℕ) (addrAfterCall : Bool)
    (sink : Sink ι) : Outcome LogBug (Bool × DumpState × Sink ι) := do
  let lookupAddr := if addrAfterCall then sub64 addr 1 else addr
  let found ← (symbolLookupByAddress fuel image.text image.tables lookupAddr).mapHalt .symbols
  let sink ← match found with
    | .error _ =>
      print fuel image.consoles ("    #%zu in unknown/garbage <0x%016zX>\n").toList
        [.longLong (BitVec.ofNat 64 state.depth), .longLong (BitVec.ofNat 64 addr)] sink
    | .ok lookup =>
      print fuel image.consoles ("    #%zu in %s+%zu\n").toList
        [.longLong (BitVec.ofNat 64 state.depth), .string (some (lookup.name.map Char.ofNat)),
          .longLong (BitVec.ofNat 64 lookup.offsetWithin)] sink
  return (true, { state with depth := add64 state.depth 1 }, sink)

/-- The calls of the callback one after the other, for as long as it asks for the next frame. -/
def dumpFrames (fuel : ℕ) (image : Image ι) :
    List (ℕ × Bool) → DumpState → Sink ι → Outcome LogBug (DumpState × Sink ι)
  | [], state, sink => .done (state, sink)
  | (addr, addrAfterCall) :: calls, state, sink => do
    let (more, state, sink) ← doDumpFrame fuel image state addr addrAfterCall sink
    if more then dumpFrames fuel image calls state sink else return (state, sink)

/-- The callback asks for every frame, and the walk does not depend on what it prints: so the calls of
the walk are made first, and then carried out.  A frame that is not unwound ends the walk, and its warning
comes behind the lines of the calls. -/
def dumpStack (fuel : ℕ) (image : Image ι) (level : LogLevel) (currentFrame : ℕ → ℕ)
    (regs : Option (ℕ → ℕ)) (startingPc : ℕ) (sink : Sink ι) : Outcome LogBug (Sink ι) := do
  let sink ← print fuel image.consoles ("Call trace (most recent call first):\n").toList [] sink
  let (ret, calls) ← (unwindWalk image.machine fuel currentFrame regs startingPc
    fun _ => true).mapHalt .unwind
  let (_, sink) ← dumpFrames fuel image calls ⟨level, 0⟩ sink
  printWarning fuel image.consoles ret sink

end UltraKernel.Log
