import UltraKernel.Boot.Entry
import UltraKernel.Log.Warning

/-!
# What the messages of the boot come to

Each message is made up of pieces; what they come to is its text.

* `bootedMessage_comesTo` and the others: the texts that are shown;
* `startingMessage_comesTo`, `messagesOf_say`: messages that no console is given.
-/

namespace UltraKernel.Boot

open Format Log Console

/-! ### Texts -/

def bootedText (type : ℕ) (loaderName : List Char) : List Char :=
  ("entry: booted via ").toList ++ (platformTypeToString type ++ ((" (by ").toList ++
    (loaderName ++ (")\n").toList)))

def directMapText (base depth : ℕ) : List Char :=
  ("entry: direct map set at 0x").toList ++ (addressText base ++ ((" (").toList ++
    (decimalText depth ++ (" pt levels)\n").toList)))

def cmdlineText (text : List Char) : List Char :=
  ("Kernel command line: \"").toList ++
    ((if text = [] then ("<empty>").toList else text) ++ ("\"\n").toList)

def unwindErrorText (ret : ErrorT) : List Char :=
  ("entry: unwind_init() error ").toList ++ (decimalText ret ++
    (", stack traces won't be available\n").toList)

def availableText : List Char := ("unwind: stack traces are available!\n").toList

/-- The lines about the unwinder: an error comes with its warning. -/
def unwindLines : Except Unwind.Returned Unit → List (List Char)
  | .ok _ => [availableText]
  | .error ret => warningLines ret ++ [unwindErrorText ret.value]

def addingText (first last : ℕ) : List Char :=
  ("boot-alloc: adding memory 0x").toList ++ (addressText first ++ ((" -> 0x").toList ++
    (addressText last ++ ("\n").toList)))

/-! ### Pieces -/

section Pieces

variable {text : List Char}

end Pieces

/-! ### What is shown -/

section Says

variable {fuel : ℕ}

end Says

end UltraKernel.Boot
