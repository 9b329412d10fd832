import UltraKernel.Boot.Context
import UltraKernel.Cmdline.Model
import UltraKernel.Console.Earlycon
import UltraKernel.Unwind.SearchTable

/-!
# The boot of the kernel, as `entry` goes through it

What the loader handed over is read, the early parameters on the command line are set, the unwinder and
the boot allocator are set up.  On the way messages are printed, to the consoles that are linked by then:
there are none until the command line asks for one.

* `earlyconParamSet`: the parameter `earlycon`, with its message;
* `cmdlineParse`: the parse of the command line, with the messages for values that are refused;
* `entry`: the boot, up to the loop that does not end.
-/

namespace UltraKernel.Boot

open Word Outcome Format Log Console Cmdline

/-! ### What it works on -/

/-- What may stop the boot, in any of its parts; what follows a failure of `range_append` is not
modelled. -/
inductive EntryBug where
  | log (bug : LogBug)
  | string (bug : StringBug)
  | context (bug : BootBug)
  | unwind (bug : Unwind.UnwindBug)
  | alloc (bug : BootAlloc.Bug)
  | append
  deriving DecidableEq, Repr

/-- The answers to `in_hypervisor`, `io_window_map_pio` and `ioread8`. -/
structure PortAnswers where
  inHypervisor : Bool
  iow : BitVec 64
  probe : BitVec 8

/-- What the boot finds: the memory, `__FILE__` of `entry.c`, the strings of the build, `e9_console`, the
answers of the port to each call of `earlycon_set`, the unwind data with the ends of its sections, and
what is in the buffers of the allocator. -/
structure World (ι : Type) where
  mem : ℕ → BitVec 8
  file : List Char
  executionMode : List Char
  gitSha : List Char
  date : List Char
  time : List Char
  e9Console : ι
  port : ℕ → PortAnswers
  machine : Unwind.Machine
  ehFrameHdrEnd : ℕ
  ehFrameBegin : ℕ
  buffers : BootAlloc.Buffer → ℕ → BootAlloc.MemoryRange

/-- What messages and parameters change: `g_earlycon` with the consoles, how often it was set, and what
was printed. -/
structure Kernel (ι : Type) where
  earlycon : Earlycon ι
  calls : ℕ
  sink : Sink ι

/-- No console is linked, and nothing was printed. -/
def initialKernel (ι : Type) : Kernel ι :=
  ⟨⟨earlyconModeNone, 0, ⟨none, fun _ => none⟩⟩, 0, ⟨fun _ => nul, []⟩⟩

variable {ι : Type}

def Kernel.print (fuel : ℕ) (message : Message) (k : Kernel ι) : Outcome EntryBug (Kernel ι) := do
  let sink ← (Log.print fuel k.earlycon.list message.1 message.2 k.sink).mapHalt .log
  return { k with sink := sink }

def Kernel.printAll (fuel : ℕ) : List Message → Kernel ι → Outcome EntryBug (Kernel ι)
  | [], k => .done k
  | message :: messages, k => do
    let k ← k.print fuel message
    k.printAll fuel messages

/-! ### The messages -/

def startingMessage (w : World ι) : Message :=
  (("Starting ultra kernel v0.0.1 on %s (@%s, built on %s %s)\n").toList,
    [.string (some w.executionMode), .string (some w.gitSha), .string (some w.date),
      .string (some w.time)])

/-- `cur` is `g_earlycon`, which was set to `EARLYCON_MODE_E9`. -/
def usingMessage : Message :=
  (LogLevel.info.text ++ ("earlycon: using '%pS' as the early console\n").toList,
    [.structString (some earlyconModeE9)])

def badMessage (key value : List Char) (ret : ErrorT) : Message :=
  (LogLevel.err.text ++ ("param: bad \"%pS\" value \"%pS\" (%d)\n").toList,
    [.structString (some key), .structString (some value), .int (BitVec.ofNat 32 ret)])

def platformTypeToString (type : ℕ) : List Char :=
  if type = 1 then ("BIOS").toList
  else if type = 2 then ("UEFI").toList
  else ("<unknown platform>").toList

def bootedMessage (type : ℕ) (loaderName : List Char) : Message :=
  (LogLevel.info.text ++ ("entry: booted via %s (by %s)\n").toList,
    [.string (some (platformTypeToString type)), .string (some loaderName)])

def directMapMessage (base depth : ℕ) : Message :=
  (LogLevel.info.text ++ ("entry: direct map set at 0x%016zX (%d pt levels)\n").toList,
    [.longLong (BitVec.ofNat 64 base), .int (BitVec.ofNat 32 depth)])

def cmdlineMessage (cmdline : Str) : Message :=
  (("Kernel command line: \"%s\"\n").toList,
    [.string (if strEmpty cmdline then some ("<empty>").toList else cmdline.text)])

def availableMessage : Message :=
  (LogLevel.info.text ++ ("unwind: stack traces are available!\n").toList, [])

def unwindErrorMessage (ret : ErrorT) : Message :=
  (LogLevel.warn.text ++ ("entry: unwind_init() error %d, stack traces won't be available\n").toList,
    [.int (BitVec.ofNat 32 ret)])

/-- What `unwind_init` prints, and `entry` for it where it fails. -/
def unwindMessages : Except Unwind.Returned Unit → List Message
  | .ok _ => [availableMessage]
  | .error ret => (ret.warning.map warningMessage).toList ++ [unwindErrorMessage ret.value]

def addingMessage (range : BootAlloc.MemoryRange) : Message :=
  (LogLevel.info.text ++ ("boot-alloc: adding memory 0x%016llX -> 0x%016llX\n").toList,
    [.longLong (BitVec.ofNat 64 range.physicalAddress),
      .longLong (BitVec.ofNat 64 (range.physicalAddress + range.mrSize))])

/-! ### The command line -/

/-- `struct param`, of an early parameter: its `set` may print. -/
structure EarlyParam (ι : Type) where
  name : List Char
  allowsEmptyValue : Bool
  set : List Char → Kernel ι → Outcome EntryBug (ErrorT × Kernel ι)

/-- The call of `earlycon_set` for a value. -/
def request (w : World ι) (calls : ℕ) (mode : List Char) : Request :=
  ⟨mode, (w.port calls).inHypervisor, (w.port calls).iow, (w.port calls).probe⟩

/-- `earlycon_set`, with its message. -/
def earlyconParamSet [DecidableEq ι] (w : World ι) (fuel : ℕ) (mode : List Char) (k : Kernel ι) :
    Outcome EntryBug (ErrorT × Kernel ι) := do
  let (ret, earlycon) ← (earlyconSet (unregisterConsole fuel w.e9Console) fuel w.e9Console
    (request w k.calls mode) k.earlycon).mapHalt Empty.elim
  let k := { k with earlycon := earlycon, calls := k.calls + 1 }
  if ret = eok ∧ strEqualsCaseless mode earlyconModeE9 then
    let k ← k.print fuel usingMessage
    return (ret, k)
  else return (ret, k)

/-- `early_parameter_with_ops(g_earlycon, g_earlycon_ops)` -/
def earlyconParam [DecidableEq ι] (w : World ι) (fuel : ℕ) : EarlyParam ι :=
  ⟨("earlycon").toList, false, earlyconParamSet w fuel⟩

/-- The section of the early parameters. -/
def earlyParameters [DecidableEq ι] (w : World ι) (fuel : ℕ) : List (EarlyParam ι) := [earlyconParam w fuel]

def findParam (name : List Char) (params : List (EarlyParam ι)) : Option (EarlyParam ι) :=
  params.find? fun p => strEqualsWithCb p.name name cmdlineNameCompare

/-- The call of `set`, unless the value is empty and may not be. -/
def EarlyParam.assign (p : EarlyParam ι) (value : List Char) (k : Kernel ι) :
    Outcome EntryBug (ErrorT × Kernel ι) :=
  if value ≠ [] ∨ p.allowsEmptyValue then p.set value k else .done (einval, k)

/-- What is done with a key and its value; `unknown_cb` is `NULL`. -/
def handleItem (fuel : ℕ) (params : List (EarlyParam ι)) (key value : List Char) (k : Kernel ι) :
    Outcome EntryBug (Kernel ι) :=
  match findParam key params with
  | none => .done k
  | some p => do
    let (ret, k) ← p.assign value k
    if ret ≠ eok then k.print fuel (badMessage key value ret) else return k

/-- The main loop of `cmdline_parse`. -/
def parseLoop (printFuel : ℕ) (params : List (EarlyParam ι)) :
    ℕ → Str → Kernel ι → Outcome EntryBug (Str × Kernel ι)
  | 0, _, _ => .outOfFuel
  | fuel + 1, cmdline, k => do
    match ← (scanItem fuel ⟨cmdline.text, 0⟩ cmdline).mapHalt .string with
    | .finished cmdline => return (cmdline, k)
    | .item key value cmdline =>
      if strEmpty key then return (cmdline, k)
      else
        let k ← handleItem printFuel params key.chars value.chars k
        let cmdline ← (cmdlineTrim fuel cmdline).mapHalt .string
        parseLoop printFuel params fuel cmdline k

def cmdlineParse (fuel : ℕ) (cmdline : Str) (params : List (EarlyParam ι)) (k : Kernel ι) :
    Outcome EntryBug (Str × Kernel ι) := do
  let cmdline ← (cmdlineTrim fuel cmdline).mapHalt .string
  parseLoop fuel params fuel cmdline k

/-! ### The memory map -/

/-- The message for memory that is free. -/
def announce (fuel : ℕ) (entry : BootAlloc.UltraMemoryMapEntry) (range : BootAlloc.MemoryRange)
    (k : Kernel ι) : Outcome EntryBug (Kernel ι) :=
  if entry.rangeType = some BootAlloc.memoryFree then k.print fuel (addingMessage range) else .done k

/-- The loop of `boot_alloc_init`, with its messages. -/
def bootAllocInitLoop (fuel : ℕ) : List BootAlloc.UltraMemoryMapEntry → BootAlloc.State → Kernel ι →
    Outcome EntryBug (BootAlloc.State × Kernel ι)
  | [], s, k => .done (s, k)
  | entry :: rest, s, k =>
    match entry.range with
    | none => bootAllocInitLoop fuel rest s k
    | some range => do
      let k ← announce fuel entry range k
      let (ret, s) ← (BootAlloc.rangeAppend fuel s range).mapHalt .alloc
      if ret ≠ BootAlloc.eok then .halt .append else bootAllocInitLoop fuel rest s k

/-! ### `entry` -/

/-- The kernel in the loop at the end. -/
structure Booted (ι : Type) where
  context : BootContext
  directMapBase : ℕ
  kernel : Kernel ι
  machine : Unwind.Machine
  table : BootAlloc.State

/-- `entry`, but for `arch_init_early`, which loads the GDT and the IDT. -/
def entry [DecidableEq ι] (w : World ι) (fuel ctx : ℕ) : Outcome EntryBug (Booted ι) := do
  let k ← (initialKernel ι).print fuel (startingMessage w)
  let (boot, messages) ← (bootContextInit fuel w.mem w.file ctx).mapHalt .context
  let k ← k.printAll fuel messages
  let pi := boot.platformInfo
  let directMapBase := higherHalfBase w.mem pi
  let (_, k) ← cmdlineParse fuel boot.cmdline (earlyParameters w fuel) k
  -- what `%s` reads from `loader_name` on
  let loaderName ← (strRuntime fuel w.mem (pi + 16)).mapHalt .context
  let k ← k.printAll fuel [bootedMessage (platformType w.mem pi) loaderName.chars,
    directMapMessage directMapBase (pageTableDepth w.mem pi), cmdlineMessage boot.cmdline]
  let (ret, init) ← (Unwind.unwindInit w.machine fuel w.ehFrameHdrEnd w.ehFrameBegin).mapHalt .unwind
  let k ← k.printAll fuel (unwindMessages ret)
  let (table, k) ← bootAllocInitLoop fuel (memoryMapAt w.mem boot.memoryMap).visited
    (BootAlloc.initialState w.buffers) k
  return ⟨boot, directMapBase, k, init.machine, table⟩

end UltraKernel.Boot
