import UltraKernel.Common.Strings
import UltraKernel.Lib.Outcome
import Mathlib.Logic.Function.Basic

/-!
# The list of consoles, as `console.c` keeps it

The consoles are linked through their own `next` pointers.  The loops run with fuel, since nothing
in the pointers themselves says that the list ends.
-/

namespace UltraKernel.Console

variable {ι : Type} [DecidableEq ι]

/-- `consoles`, and the field `next` of every console. -/
structure ConsoleList (ι : Type) where
  consoles : Option ι
  next : ι → Option ι

/-- The loop of `console_registered`. -/
def registeredLoop (list : ConsoleList ι) (con : ι) : ℕ → Option ι → Outcome Empty Bool
  | 0, _ => .outOfFuel
  | _ + 1, none => .done false
  | fuel + 1, some thisCon =>
    if thisCon = con then .done true else registeredLoop list con fuel (list.next thisCon)

def consoleRegistered (fuel : ℕ) (con : ι) (list : ConsoleList ι) : Outcome Empty Bool :=
  registeredLoop list con fuel list.consoles

def registerConsole (fuel : ℕ) (con : ι) (list : ConsoleList ι) :
    Outcome Empty (ErrorT × ConsoleList ι) :=
  if list.consoles = none then .done (eok, { list with consoles := some con })
  else do
    if ← consoleRegistered fuel con list then return (ebusy, list)
    else return (eok, ⟨some con, Function.update list.next con list.consoles⟩)

/-- The loop of `unregister_console`. -/
def unregisterLoop (list : ConsoleList ι) (con : ι) :
    ℕ → Option ι → Option ι → Outcome Empty (ErrorT × ConsoleList ι)
  | 0, _, _ => .outOfFuel
  | _ + 1, none, _ => .done (einval, list)
  | fuel + 1, some curCon, prevCon =>
    if curCon ≠ con then unregisterLoop list con fuel (list.next curCon) (some curCon)
    else
      match prevCon with
      | some prevCon =>
        .done (eok, { list with next := Function.update list.next prevCon (list.next curCon) })
      | none => .done (eok, list)

def unregisterConsole (fuel : ℕ) (con : ι) (list : ConsoleList ι) :
    Outcome Empty (ErrorT × ConsoleList ι) :=
  unregisterLoop list con fuel list.consoles none

/-- The calls of the `write` callbacks: which console, and what it is given. -/
def writeLoop (list : ConsoleList ι) (str : List Char) :
    ℕ → Option ι → Outcome Empty (List (ι × List Char))
  | 0, _ => .outOfFuel
  | _ + 1, none => .done []
  | fuel + 1, some con => do
    let calls ← writeLoop list str fuel (list.next con)
    return (con, str) :: calls

def consoleWrite (fuel : ℕ) (str : List Char) (list : ConsoleList ι) :
    Outcome Empty (List (ι × List Char)) :=
  writeLoop list str fuel list.consoles

/-! ### Sequences of calls -/

/-- A call of one of the two functions that change the list. -/
inductive Call (ι : Type) where
  | register (con : ι)
  | unregister (con : ι)
  deriving DecidableEq, Repr

/-- The list, and the consoles whose last successful call was `register_console`. -/
structure World (ι : Type) where
  list : ConsoleList ι
  registered : ι → Bool

/-- No console is linked. -/
def World.init : World ι := ⟨⟨none, fun _ => none⟩, fun _ => false⟩

/-- A call, of which a success is remembered. -/
def World.call (fuel : ℕ) (world : World ι) : Call ι → Outcome Empty (World ι)
  | .register con => do
    let (ret, list) ← registerConsole fuel con world.list
    return ⟨list, if ret = eok then Function.update world.registered con true
      else world.registered⟩
  | .unregister con => do
    let (ret, list) ← unregisterConsole fuel con world.list
    return ⟨list, if ret = eok then Function.update world.registered con false
      else world.registered⟩

def World.runCalls (fuel : ℕ) : World ι → List (Call ι) → Outcome Empty (World ι)
  | world, [] => .done world
  | world, call :: calls => do
    let world ← world.call fuel call
    world.runCalls fuel calls

end UltraKernel.Console
