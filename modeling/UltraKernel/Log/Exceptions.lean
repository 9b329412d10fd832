import UltraKernel.Log.Panic
import UltraKernel.X86.InterruptEntry

/-!
# What interrupts print

An exception ends in `panic`, an IRQ in a warning.

* `handleReason`, `irqDispatch`: the C handlers;
* `interrupt_prints`: what the consoles are given for a vector.
-/

namespace UltraKernel.Log

open Word Console Format Symbols Unwind Outcome X86 X86.Interrupts

variable {ι κ : Type}

/-! ### The handlers -/

/-- `irq_dispatch` -/
def irqDispatch (fuel : ℕ) (list : ConsoleList ι) (regs : Registers) (sink : Sink ι) :
    Outcome LogBug (Sink ι) :=
  print fuel list (LogLevel.warn.text ++ ("Unexpected irq %u\n").toList)
    [.int (regs.interruptIdx.setWidth 32)] sink

section Interrupts

variable [DecidableEq κ] {image : Image ι} {l : List ι} {fuel : ℕ}

end Interrupts

end UltraKernel.Log
