import UltraKernel.Lib.Along
import UltraKernel.X86.Interrupts

/-!
# What the rows of the unwinding table find while interrupt code runs

The words that an interrupt has pushed are numbered from the top of its frame.  A row of the assembled
code gives the number of words and, for every column, the number of the word it is saved in (`rowOn`);
it finds a value if that word, or the register itself, is the value (`Finds`).  Every instruction of
the straight code then has a lemma that takes the state, the row and what is found one further.
-/

namespace UltraKernel.X86.Interrupts

open WordStack

/-! ### Rows by slots -/

/-- The row while `n` words are on the stack, of which the columns are saved in the slots. -/
def rowOn (n : ℕ) (slots : Column → Option ℕ) : FrameRow :=
  ⟨8 * n, fun column => (slots column).map fun i : ℕ => -(8 * ((i : ℤ) + 1)), true⟩

/-- The slots of the frame that the processor pushes. -/
def frameSlots : Column → Option ℕ
  | .ss => some 0
  | .gp .rsp => some 1
  | .rflags => some 2
  | .cs => some 3
  | .rip => some 4
  | .gp _ => none

/-- The words of the frame and the one that the processor or the thunk pushes behind it. -/
def frameLength : ℕ := 6

/-- The slots while the given registers, the last pushed first, lie behind the frame. -/
def slotsOf (regs : List Reg) : Column → Option ℕ
  | .gp reg =>
    if reg ∈ regs then some (frameLength + (regs.length - 1 - regs.idxOf reg))
    else frameSlots (.gp reg)
  | column => frameSlots column

/-- A column is found to have a value. -/
def Finds (slots : Column → Option ℕ) (words : List (BitVec 64)) (regs : Reg → BitVec 64)
    (column : Column) (value : BitVec 64) : Prop :=
  match slots column with
  | some i => words[i]? = some value
  | none => ∃ reg, column = .gp reg ∧ reg ≠ .rsp ∧ regs reg = value

section Rows

variable {n : ℕ} {slots : Column → Option ℕ} {lines : List Line} {words : List (BitVec 64)}
  {regs : Reg → BitVec 64} {column : Column} {value : BitVec 64}

theorem rowOn_saved (column : Column) :
    (rowOn n slots).saved column = (slots column).map fun i : ℕ => -(8 * ((i : ℤ) + 1)) := rfl

theorem Finds.append (h : Finds slots words regs column value) (more : List (BitVec 64)) :
    Finds slots (words ++ more) regs column value := by
  unfold Finds at h ⊢
  cases hslot : slots column with
  | none =>
    rw [hslot] at h
    exact h
  | some i =>
    rw [hslot] at h
    have hi : i < words.length := (List.getElem?_eq_some_iff.mp h).1
    show (words ++ more)[i]? = some value
    rw [List.getElem?_append_left hi]
    exact h

theorem assemble_afterPush :
    assemble (rowOn n slots) (unwindHintAfterPush :: lines) = assemble (rowOn (n + 1) slots) lines := by
  rw [unwindHintAfterPush, assemble, Hint.apply, rowOn, rowOn]
  congr 2

theorem assemble_afterPop :
    assemble (rowOn (n + 1) slots) (unwindHintAfterPop :: lines) = assemble (rowOn n slots) lines := by
  rw [unwindHintAfterPop, assemble, Hint.apply, rowOn, rowOn]
  congr 2
  push_cast [ultraArchWidth]
  ring

/-- An offset from the stack pointer is a slot. -/
theorem apply_relOffset {offset : ℤ} (i : ℕ) (hoffset : offset = 8 * ((n : ℤ) - 1 - i)) :
    (Hint.relOffset column offset).apply (rowOn n slots) =
      rowOn n (Function.update slots column (some i)) := by
  rw [Hint.apply, rowOn, rowOn]
  congr 1
  funext col
  rcases eq_or_ne col column with rfl | hne
  · rw [Function.update_self, Function.update_self, Option.map_some, hoffset]
    congr 1
    ring
  · rw [Function.update_of_ne hne, Function.update_of_ne hne]

/-- The hints of an interrupt frame with a number of words behind it. -/
theorem assemble_interruptFrame (row : FrameRow) (extra : ℕ) :
    assemble row (unwindHintInterruptFrame (8 * extra) ++ lines) =
      assemble (rowOn (5 + extra) frameSlots) lines := by
  have hstart : (Hint.defCfaRsp (interruptFrameSize + (8 * extra : ℕ))).apply
      (Hint.signalFrame.apply FrameRow.initial) =
        rowOn (5 + extra) (Function.update (fun _ => none) .rip (some 0)) := by
    rw [Hint.apply, Hint.apply, rowOn, FrameRow.initial]
    congr 1
    · rw [show interruptFrameSize = 40 from rfl]
      push_cast
      ring
    · funext column
      cases column <;> rfl
  have hslots : frameSlots = Function.update (Function.update (Function.update (Function.update
      (Function.update (Function.update (fun _ => none) .rip (some 0)) .ss (some 0))
        (.gp .rsp) (some 1)) .rflags (some 2)) .cs (some 3)) .rip (some 4) := by
    funext column
    cases column with
    | gp reg => cases reg <;> rfl
    | rip => rfl
    | rflags => rfl
    | cs => rfl
    | ss => rfl
  simp only [unwindHintInterruptFrame, List.cons_append, List.nil_append, assemble]
  rw [show Hint.startproc.apply row = FrameRow.initial from rfl, hstart,
    apply_relOffset 0 (by rw [show interruptFrameOffset ssOffset = 32 from rfl]; push_cast; ring),
    apply_relOffset 1 (by rw [show interruptFrameOffset rspOffset = 24 from rfl]; push_cast; ring),
    apply_relOffset 2 (by rw [show interruptFrameOffset flagsOffset = 16 from rfl]; push_cast; ring),
    apply_relOffset 3 (by rw [show interruptFrameOffset csOffset = 8 from rfl]; push_cast; ring),
    apply_relOffset 4 (by rw [show interruptFrameOffset ripOffset = 0 from rfl]; push_cast; ring),
    hslots]

theorem slotsOf_nil : slotsOf [] = frameSlots := by
  funext column
  cases column with
  | gp reg => rfl
  | rip => rfl
  | rflags => rfl
  | cs => rfl
  | ss => rfl

theorem frameSlots_gp {reg : Reg} (hreg : reg ≠ .rsp) : frameSlots (.gp reg) = none := by
  cases reg with
  | rsp => exact absurd rfl hreg
  | _ => rfl

theorem slotsOf_of_mem {saved : List Reg} {reg : Reg} (h : reg ∈ saved) :
    slotsOf saved (.gp reg) = some (frameLength + (saved.length - 1 - saved.idxOf reg)) := if_pos h

theorem slotsOf_of_notMem {saved : List Reg} {reg : Reg} (h : reg ∉ saved) :
    slotsOf saved (.gp reg) = frameSlots (.gp reg) := if_neg h

/-- The hints of the saved registers, while more words lie on top of them. -/
theorem assemble_gpRegs (above : ℕ) (hslots : ∀ column, (∀ reg ∈ poppedRegs, column ≠ .gp reg) →
    slots column = frameSlots column) :
    assemble (rowOn (21 + above) slots) (unwindHintGpRegs (8 * above) false ++ lines) =
      assemble (rowOn (21 + above) (slotsOf poppedRegs)) lines := by
  simp only [unwindHintGpRegs, unwindHintRegOffset, List.cons_append, List.nil_append, assemble,
    Bool.false_eq_true, if_false]
  rw [apply_relOffset 20 (by rw [show r15Offset = 0 from rfl]; push_cast; ring),
    apply_relOffset 19 (by rw [show r14Offset = 8 from rfl]; push_cast; ring),
    apply_relOffset 18 (by rw [show r13Offset = 16 from rfl]; push_cast; ring),
    apply_relOffset 17 (by rw [show r12Offset = 24 from rfl]; push_cast; ring),
    apply_relOffset 16 (by rw [show rbpOffset = 32 from rfl]; push_cast; ring),
    apply_relOffset 15 (by rw [show rbxOffset = 40 from rfl]; push_cast; ring),
    apply_relOffset 14 (by rw [show r11Offset = 48 from rfl]; push_cast; ring),
    apply_relOffset 13 (by rw [show r10Offset = 56 from rfl]; push_cast; ring),
    apply_relOffset 12 (by rw [show r9Offset = 64 from rfl]; push_cast; ring),
    apply_relOffset 11 (by rw [show r8Offset = 72 from rfl]; push_cast; ring),
    apply_relOffset 10 (by rw [show raxOffset = 80 from rfl]; push_cast; ring),
    apply_relOffset 9 (by rw [show rcxOffset = 88 from rfl]; push_cast; ring),
    apply_relOffset 8 (by rw [show rdxOffset = 96 from rfl]; push_cast; ring),
    apply_relOffset 7 (by rw [show rsiOffset = 104 from rfl]; push_cast; ring),
    apply_relOffset 6 (by rw [show rdiOffset = 112 from rfl]; push_cast; ring)]
  congr 2
  funext column
  cases column with
  | gp reg =>
    cases reg with
    | rsp => exact hslots _ (by decide)
    | _ => rfl
  | rip => exact hslots _ (by decide)
  | rflags => exact hslots _ (by decide)
  | cs => exact hslots _ (by decide)
  | ss => exact hslots _ (by decide)

end Rows

/-! ### The value that a row finds -/

/-- What the processor holds of a column. -/
def Cpu.column (c : Cpu) : Column → BitVec 64
  | .gp reg => c.reg reg
  | .rip => c.rip
  | .rflags => c.rflags
  | .cs => c.cs.setWidth 64
  | .ss => c.ss.setWidth 64

/-- The value of a column, by a row. -/
def FrameRow.value (row : FrameRow) (c : Cpu) (column : Column) : BitVec 64 :=
  match row.saved column with
  | some offset => c.mem (c.reg .rsp + BitVec.ofInt 64 (row.cfaOffset + offset))
  | none => c.column column

/-- The row of the instruction that is about to run finds the expected values. -/
def RowsShow (sys : System) (expected : Fn → ℕ → Column → BitVec 64) (c : Cpu) : Prop :=
  ∀ f k row i, sys.locate c.rip = some (f, k) → f.listing[k]? = some (row, i) →
    ∀ column, row.value c column = expected f k column

/-- The lines behind the first `k` instructions of a function, and the row there. -/
def At (f : Fn) (k : ℕ) (row : FrameRow) (lines : List Line) : Prop :=
  f.listing.drop k = assemble row lines

/-- The processor is about to run an instruction, with the given words on its stack. -/
structure Sits (sys : System) (mem : Memory) (base : BitVec 64) (depth : ℕ) (flags : BitVec 64)
    (f : Fn) (k : ℕ) (regs : Reg → BitVec 64) (words : List (BitVec 64)) (c : Cpu) : Prop where
  rip : c.rip = sys.address f k
  rsp : c.reg .rsp = pointer base words.length
  regs : ∀ reg, reg ≠ .rsp → c.reg reg = regs reg
  flags : c.rflags = flags
  holds : Holds c.mem base words
  untouched : Untouched base depth mem c.mem

section Steps

variable {sys : System} {expected : Fn → ℕ → Column → BitVec 64} {mem : Memory} {base : BitVec 64}
  {depth : ℕ} {flags : BitVec 64} {f g : Fn} {k : ℕ} {slots : Column → Option ℕ}
  {regs : Reg → BitVec 64} {words : List (BitVec 64)} {row : FrameRow} {i : Instr}
  {lines : List Line} {c : Cpu} {reg : Reg}

theorem At.start (f : Fn) : At f 0 .initial f.lines := rfl

theorem At.fetch (h : At f k row (.instr i :: lines)) : f.listing[k]? = some (row, i) := by
  have hhead : (f.listing.drop k)[0]? = some (row, i) := by
    rw [h]
    rfl
  rwa [List.getElem?_drop, Nat.add_zero] at hhead

theorem At.next (h : At f k row (.instr i :: lines)) : At f (k + 1) row lines := by
  have htail : (f.listing.drop k).tail = assemble row lines := by
    rw [h]
    rfl
  rwa [List.tail_drop] at htail

theorem At.length (h : At f k row (.instr i :: lines)) : k < f.listing.length :=
  (List.getElem?_eq_some_iff.mp h.fetch).1

theorem At.afterPush {n : ℕ} (h : At f k (rowOn n slots) (unwindHintAfterPush :: lines)) :
    At f k (rowOn (n + 1) slots) lines := Eq.trans h assemble_afterPush

theorem At.afterPop {n : ℕ} (h : At f k (rowOn (n + 1) slots) (unwindHintAfterPop :: lines)) :
    At f k (rowOn n slots) lines := Eq.trans h assemble_afterPop

theorem At.relOffset {n : ℕ} {column : Column} {offset : ℤ} (i : ℕ)
    (h : At f k (rowOn n slots) (.hint (.relOffset column offset) :: lines))
    (hoffset : offset = 8 * ((n : ℤ) - 1 - i)) :
    At f k (rowOn n (Function.update slots column (some i))) lines := by
  rw [← apply_relOffset i hoffset]
  exact h

theorem At.gpRegs (above : ℕ)
    (h : At f k (rowOn (21 + above) slots) (unwindHintGpRegs (8 * above) false ++ lines))
    (hslots : ∀ column, (∀ reg ∈ poppedRegs, column ≠ .gp reg) →
      slots column = frameSlots column) :
    At f k (rowOn (21 + above) (slotsOf poppedRegs)) lines :=
  Eq.trans h (assemble_gpRegs above hslots)

theorem At.interruptFrame (extra : ℕ)
    (h : At f k row (unwindHintInterruptFrame (8 * extra) ++ lines)) :
    At f k (rowOn (5 + extra) frameSlots) lines := Eq.trans h (assemble_interruptFrame row extra)

theorem step_at (hrip : c.rip = sys.address f k) (h : At f k row (.instr i :: lines)) :
    sys.step c = some (i.exec sys (sys.address f (k + 1)) c) := by
  rw [System.step, hrip, sys.locate_address f k h.length]
  show (f.listing[k]?.bind fun p => some (p.2.exec sys (sys.address f (k + 1)) c)) = _
  rw [h.fetch]
  rfl

/-- The word of a slot is at the offset of that slot. -/
theorem Sits.slot (h : Sits sys mem base depth flags f k regs words c) {i : ℕ} {value : BitVec 64}
    (hword : words[i]? = some value) :
    c.mem (c.reg .rsp + BitVec.ofInt 64 (8 * words.length + -(8 * ((i : ℤ) + 1)))) = value := by
  have hi : i < words.length := (List.getElem?_eq_some_iff.mp hword).1
  have hoffset : BitVec.ofInt 64 (8 * words.length + -(8 * ((i : ℤ) + 1))) =
      BitVec.ofNat 64 (8 * (words.length - 1 - i)) := by
    rw [← BitVec.ofInt_natCast]
    congr 1
    omega
  rw [h.rsp, hoffset]
  refine h.holds.read ?_ (by omega)
  rwa [show words.length - 1 - (words.length - 1 - i) = i by omega]

theorem Sits.value (h : Sits sys mem base depth flags f k regs words c) {column : Column}
    {value : BitVec 64} (hfinds : Finds slots words regs column value) :
    (rowOn words.length slots).value c column = value := by
  unfold Finds at hfinds
  cases hslot : slots column with
  | some i =>
    rw [hslot] at hfinds
    have hsaved : (rowOn words.length slots).saved column = some (-(8 * ((i : ℤ) + 1))) := by
      rw [rowOn_saved, hslot, Option.map_some]
    rw [FrameRow.value, hsaved]
    exact h.slot hfinds
  | none =>
    rw [hslot] at hfinds
    obtain ⟨reg, rfl, hreg, rfl⟩ := hfinds
    have hsaved : (rowOn words.length slots).saved (.gp reg) = none := by
      rw [rowOn_saved, hslot, Option.map_none]
    rw [FrameRow.value, hsaved]
    exact h.regs reg hreg

theorem Sits.rowsShow (h : Sits sys mem base depth flags f k regs words c)
    (hat : At f k (rowOn words.length slots) (.instr i :: lines))
    (hfinds : ∀ column, Finds slots words regs column (expected f k column)) :
    RowsShow sys expected c := by
  intro f' k' row' i' hlocate hlisting column
  rw [h.rip, sys.locate_address f k hat.length] at hlocate
  obtain ⟨rfl, rfl⟩ := Prod.mk.inj (Option.some.inj hlocate)
  obtain ⟨rfl, _⟩ := Prod.mk.inj (Option.some.inj (hat.fetch.symm.trans hlisting))
  exact h.value (hfinds column)

/-- One instruction further, the row of the one that was run having found what was expected. -/
theorem Sits.along (h : Sits sys mem base depth flags f k regs words c)
    (hat : At f k (rowOn words.length slots) (.instr i :: lines))
    (hfinds : ∀ column, Finds slots words regs column (expected f k column)) :
    Along sys.step (RowsShow sys expected) c (i.exec sys (sys.address f (k + 1)) c) :=
  .single (h.rowsShow hat hfinds) (step_at h.rip hat)

/-! ### Instructions -/

theorem Sits.cld (h : Sits sys mem base depth flags f k regs words c) :
    Sits sys mem base depth (flags &&& ~~~directionFlag) f (k + 1) regs words
      (Instr.cld.exec sys (sys.address f (k + 1)) c) where
  rip := rfl
  rsp := h.rsp
  regs := h.regs
  flags := congrArg (· &&& ~~~directionFlag) h.flags
  holds := h.holds
  untouched := h.untouched

theorem Sits.jmp (h : Sits sys mem base depth flags f k regs words c) (g : Fn) :
    Sits sys mem base depth flags g 0 regs words
      ((Instr.jmp g).exec sys (sys.address f (k + 1)) c) where
  rip := rfl
  rsp := h.rsp
  regs := h.regs
  flags := h.flags
  holds := h.holds
  untouched := h.untouched

/-- A word is pushed, and the next instruction is anywhere. -/
theorem Sits.pushTo (h : Sits sys mem base depth flags f k regs words c) (value : BitVec 64)
    {l : ℕ} (hdepth : words.length < depth) (hcapacity : depth < capacity) :
    Sits sys mem base depth flags g l regs (words ++ [value])
      { c.push value with rip := sys.address g l } := by
  have hpointer : c.reg .rsp - 8 = pointer base (words.length + 1) := by rw [h.rsp, pointer_sub]
  refine ⟨rfl, ?_, fun reg hreg => ?_, h.flags, ?_, ?_⟩
  · show Function.update c.reg .rsp (c.reg .rsp - 8) .rsp = _
    rw [Function.update_self, hpointer, List.length_append, List.length_singleton]
  · show Function.update c.reg .rsp (c.reg .rsp - 8) reg = _
    rw [Function.update_of_ne hreg]
    exact h.regs reg hreg
  · show Holds (Function.update c.mem (c.reg .rsp - 8) value) _ _
    rw [hpointer]
    exact h.holds.push value (by omega)
  · show Untouched base depth mem (Function.update c.mem (c.reg .rsp - 8) value)
    rw [hpointer]
    exact h.untouched.update hdepth value

theorem Sits.push (h : Sits sys mem base depth flags f k regs words c) (hreg : reg ≠ .rsp)
    (hdepth : words.length < depth) (hcapacity : depth < capacity) :
    Sits sys mem base depth flags f (k + 1) regs (words ++ [regs reg])
      ((Instr.push reg).exec sys (sys.address f (k + 1)) c) := by
  rw [← h.regs reg hreg]
  exact h.pushTo _ hdepth hcapacity

/-- A register is set. -/
theorem Sits.setReg (h : Sits sys mem base depth flags f k regs words c) (hreg : reg ≠ .rsp)
    (value : BitVec 64) :
    Sits sys mem base depth flags f (k + 1) (Function.update regs reg value) words
      { c.setReg reg value with rip := sys.address f (k + 1) } := by
  refine ⟨rfl, ?_, fun q hq => ?_, h.flags, h.holds, h.untouched⟩
  · show Function.update c.reg reg value .rsp = _
    rw [Function.update_of_ne (Ne.symm hreg)]
    exact h.rsp
  · show Function.update c.reg reg value q = Function.update regs reg value q
    rcases eq_or_ne q reg with rfl | hne
    · rw [Function.update_self, Function.update_self]
    · rw [Function.update_of_ne hne, Function.update_of_ne hne]
      exact h.regs q hq

/-- The word below the last one. -/
theorem Sits.second {value last : BitVec 64} {below : List (BitVec 64)}
    (h : Sits sys mem base depth flags f k regs (below ++ [value, last]) c) :
    c.stack ultraArchWidth = value := by
  rw [Cpu.stack, h.rsp]
  refine @Holds.read _ _ _ h.holds 1 value ?_ (by simp)
  rw [List.length_append, show below.length + [value, last].length - 1 - 1 = below.length from rfl,
    List.getElem?_append_right (le_refl _), Nat.sub_self]
  rfl

theorem Sits.loadSecond {value last : BitVec 64} {below : List (BitVec 64)}
    (h : Sits sys mem base depth flags f k regs (below ++ [value, last]) c) (hreg : reg ≠ .rsp) :
    Sits sys mem base depth flags f (k + 1) (Function.update regs reg value) (below ++ [value, last])
      ((Instr.movLoad reg ultraArchWidth).exec sys (sys.address f (k + 1)) c) := by
  have hexec : (Instr.movLoad reg ultraArchWidth).exec sys (sys.address f (k + 1)) c =
      { c.setReg reg value with rip := sys.address f (k + 1) } := by
    rw [Instr.exec, h.second]
  rw [hexec]
  exact h.setReg hreg value

/-- The word below the last one is overwritten. -/
theorem Sits.storeSecond {value last : BitVec 64} {below : List (BitVec 64)}
    (h : Sits sys mem base depth flags f k regs (below ++ [value, last]) c) (hreg : reg ≠ .rsp)
    (hdepth : below.length + 2 ≤ depth) (hcapacity : depth < capacity) :
    Sits sys mem base depth flags f (k + 1) regs (below ++ [regs reg, last])
      ((Instr.movStore ultraArchWidth reg).exec sys (sys.address f (k + 1)) c) := by
  have hpointer : c.reg .rsp + BitVec.ofNat 64 ultraArchWidth = pointer base (below.length + 1) := by
    rw [h.rsp, List.length_append]
    exact pointer_add base (n := below.length + 2) (k := 1) (by omega)
  have hset : (below ++ [value, last]).set below.length (c.reg reg) = below ++ [regs reg, last] := by
    rw [List.set_append_right _ _ (le_refl _), Nat.sub_self, h.regs reg hreg]
    rfl
  refine ⟨rfl, ?_, h.regs, h.flags, ?_, ?_⟩
  · rw [List.length_append]
    exact h.rsp.trans (by rw [List.length_append]; rfl)
  · show Holds (Function.update c.mem (c.reg .rsp + BitVec.ofNat 64 ultraArchWidth) (c.reg reg)) _ _
    rw [hpointer, ← hset]
    refine h.holds.set _ ?_ ?_
    · rw [List.length_append]
      simp
    · rw [List.length_append]
      exact hdepth.trans_lt hcapacity
  · show Untouched base depth mem
      (Function.update c.mem (c.reg .rsp + BitVec.ofNat 64 ultraArchWidth) (c.reg reg))
    rw [hpointer]
    exact h.untouched.update (by omega) _

/-- The last word. -/
theorem Sits.top {value : BitVec 64}
    (h : Sits sys mem base depth flags f k regs (words ++ [value]) c) : c.stack 0 = value := by
  rw [Cpu.stack, h.rsp, List.length_append, List.length_singleton, BitVec.add_zero]
  exact h.holds.top

theorem Sits.drop {value : BitVec 64}
    (h : Sits sys mem base depth flags f k regs (words ++ [value]) c) {l : ℕ} :
    Sits sys mem base depth flags g l regs words
      { c.setReg .rsp (c.reg .rsp + 8) with rip := sys.address g l } := by
  refine ⟨rfl, ?_, fun reg hreg => ?_, h.flags, h.holds.left, h.untouched⟩
  · show Function.update c.reg .rsp (c.reg .rsp + 8) .rsp = _
    rw [Function.update_self, h.rsp, List.length_append, List.length_singleton]
    exact pointer_add base (k := 1) (Nat.le_add_left 1 _)
  · show Function.update c.reg .rsp (c.reg .rsp + 8) reg = _
    rw [Function.update_of_ne hreg]
    exact h.regs reg hreg

theorem Sits.addRsp {value : BitVec 64}
    (h : Sits sys mem base depth flags f k regs (words ++ [value]) c) :
    Sits sys mem base depth (addFlags (c.reg .rsp) (BitVec.ofNat 64 ultraArchWidth) c.rflags) f (k + 1)
      regs words ((Instr.addRsp ultraArchWidth).exec sys (sys.address f (k + 1)) c) := by
  have hdrop := @Sits.drop _ _ _ _ _ _ f _ _ _ _ _ h (k + 1)
  exact ⟨hdrop.rip, hdrop.rsp, hdrop.regs, rfl, hdrop.holds, hdrop.untouched⟩

theorem Sits.ret {next : BitVec 64} {l : ℕ}
    (h : Sits sys mem base depth flags f k regs (words ++ [sys.address g l]) c) :
    Sits sys mem base depth flags g l regs words (Instr.ret.exec sys next c) := by
  have hexec : Instr.ret.exec sys next c =
      { c.setReg .rsp (c.reg .rsp + 8) with rip := sys.address g l } := by
    rw [Instr.exec, h.top]
  rw [hexec]
  exact h.drop

theorem Sits.pop {value : BitVec 64} (hreg : reg ≠ .rsp)
    (h : Sits sys mem base depth flags f k regs (words ++ [value]) c) :
    Sits sys mem base depth flags f (k + 1) (Function.update regs reg value) words
      ((Instr.pop reg).exec sys (sys.address f (k + 1)) c) := by
  rw [← h.top]
  exact (@Sits.drop _ _ _ _ _ _ f _ _ _ _ _ h k).setReg hreg _

/-! ### Macros -/

/-- **Pushing registers**: a row that saves none of them keeps finding what it found. -/
theorem pushes_along (hcapacity : depth < capacity) (toPush : List Reg)
    (h : Sits sys mem base depth flags f k regs words c)
    (hat : At f k (rowOn words.length slots) (toPush.flatMap pushWithUnwindHint ++ lines))
    (hrsp : .rsp ∉ toPush) (hdepth : words.length + toPush.length ≤ depth)
    (hfinds : ∀ j < toPush.length, ∀ column,
      Finds slots words regs column (expected f (k + j) column)) :
    ∃ c', Along sys.step (RowsShow sys expected) c c' ∧
      Sits sys mem base depth flags f (k + toPush.length) regs (words ++ toPush.map regs) c' ∧
      At f (k + toPush.length) (rowOn (words.length + toPush.length) slots) lines := by
  induction toPush generalizing k words c with
  | nil =>
    rw [List.map_nil, List.append_nil]
    exact ⟨c, .refl c, h, hat⟩
  | cons reg toPush ih =>
    obtain ⟨hreg, hrsp⟩ := not_or.mp (fun h => hrsp (List.mem_cons.mpr h))
    rw [List.length_cons] at hdepth hfinds
    have hrun := h.along hat (hfinds 0 (Nat.succ_pos _))
    have hnext : At f (k + 1) (rowOn (words ++ [regs reg]).length slots)
        (toPush.flatMap pushWithUnwindHint ++ lines) := by
      rw [List.length_append]
      exact hat.next.afterPush
    obtain ⟨c', hruns, hsits, hlines⟩ := ih (h.push (Ne.symm hreg) (by omega) hcapacity) hnext hrsp
      (by rw [List.length_append, List.length_singleton]; omega) (fun j hj column => by
        have hfind := (hfinds (j + 1) (by omega) column).append [regs reg]
        rwa [show k + (j + 1) = k + 1 + j by omega] at hfind)
    refine ⟨c', hrun.trans hruns, ?_, ?_⟩
    · rw [List.append_assoc, show k + 1 + toPush.length = k + (reg :: toPush).length by
        rw [List.length_cons]; omega] at hsits
      exact hsits
    · rw [List.length_append, List.length_singleton] at hlines
      rw [List.length_cons, show k + (toPush.length + 1) = k + 1 + toPush.length by omega,
        show words.length + (toPush.length + 1) = words.length + 1 + toPush.length by omega]
      exact hlines

/-- A register that was popped is not saved any more. -/
theorem restore_slotsOf {popped : List Reg} {n : ℕ} (hreg : reg ∉ popped) (hrsp : reg ≠ .rsp) :
    (Hint.restore (.gp reg)).apply (rowOn n (slotsOf (reg :: popped))) = rowOn n (slotsOf popped) := by
  have hframe : FrameRow.initial.saved (.gp reg) = none := rfl
  rw [Hint.apply, hframe, rowOn, rowOn]
  congr 1
  funext column
  rcases eq_or_ne column (.gp reg) with rfl | hne
  · rw [Function.update_self, slotsOf_of_notMem hreg, frameSlots_gp hrsp]
    rfl
  · rw [Function.update_of_ne hne]
    refine congrArg (Option.map fun i : ℕ => -(8 * ((i : ℤ) + 1))) ?_
    cases column with
    | gp q =>
      have hq : q ≠ reg := fun heq => hne (congrArg Column.gp heq)
      by_cases hmem : q ∈ popped
      · rw [slotsOf_of_mem (List.mem_cons_of_mem _ hmem), slotsOf_of_mem hmem,
          List.idxOf_cons_ne _ (Ne.symm hq), List.length_cons]
        congr 2
        omega
      · rw [slotsOf_of_notMem (List.not_mem_cons_of_ne_of_not_mem hq hmem), slotsOf_of_notMem hmem]
    | rip => rfl
    | rflags => rfl
    | cs => rfl
    | ss => rfl

/-- A saved register is found. -/
theorem finds_slotsOf {popped : List Reg} {context : Column → BitVec 64} {column : Column}
    (hlength : words.length = frameLength)
    (hframe : ∀ column, ¬ (∃ reg, column = .gp reg ∧ reg ≠ .rsp) →
      Finds frameSlots words regs column (context column))
    (hregs : ∀ reg, reg ∉ popped → reg ≠ .rsp → regs reg = context (.gp reg)) (hrsp : .rsp ∉ popped) :
    Finds (slotsOf popped) (words ++ (popped.map fun reg => context (.gp reg)).reverse) regs column
      (context column) := by
  by_cases hgp : ∃ reg, column = .gp reg ∧ reg ≠ .rsp
  · obtain ⟨reg, rfl, hreg⟩ := hgp
    by_cases hmem : reg ∈ popped
    · have hidx := List.idxOf_lt_length_iff.mpr hmem
      rw [Finds, slotsOf_of_mem hmem]
      show (words ++ _)[_]? = _
      rw [List.getElem?_append_right (by omega), hlength, Nat.add_sub_cancel_left,
        List.getElem?_reverse (by rw [List.length_map]; omega), List.length_map,
        show popped.length - 1 - (popped.length - 1 - popped.idxOf reg) = popped.idxOf reg by omega,
        List.getElem?_map, List.getElem?_idxOf hmem]
      rfl
    · rw [Finds, slotsOf_of_notMem hmem, frameSlots_gp hreg]
      exact ⟨reg, rfl, hreg, hregs reg hmem hreg⟩
  · have hslot : slotsOf popped column = frameSlots column := by
      cases column with
      | gp q =>
        obtain rfl : q = .rsp := by
          by_contra hne
          exact hgp ⟨q, rfl, hne⟩
        exact slotsOf_of_notMem hrsp
      | rip => rfl
      | rflags => rfl
      | cs => rfl
      | ss => rfl
    rw [Finds, hslot]
    exact (hframe column hgp).append _

/-- **Popping registers** takes what was saved: the rows find it on the stack before, and in the
registers after. -/
theorem pops_along {context : Column → BitVec 64} (popped : List Reg)
    (h : Sits sys mem base depth flags f k regs
      (words ++ (popped.map fun reg => context (.gp reg)).reverse) c)
    (hat : At f k (rowOn (frameLength + popped.length) (slotsOf popped))
      (popped.flatMap popRegWithUnwindHint ++ lines))
    (hlength : words.length = frameLength) (hnodup : popped.Nodup) (hrsp : .rsp ∉ popped)
    (hframe : ∀ regs column, ¬ (∃ reg, column = .gp reg ∧ reg ≠ .rsp) →
      Finds frameSlots words regs column (context column))
    (hregs : ∀ reg, reg ∉ popped → reg ≠ .rsp → regs reg = context (.gp reg)) :
    ∃ c' regs', Along sys.step (RowsShow sys fun _ _ => context) c c' ∧
      Sits sys mem base depth flags f (k + popped.length) regs' words c' ∧
      (∀ reg, reg ≠ .rsp → regs' reg = context (.gp reg)) ∧
      At f (k + popped.length) (rowOn frameLength frameSlots) lines := by
  induction popped generalizing k regs c with
  | nil =>
    rw [List.map_nil, List.reverse_nil, List.append_nil] at h
    rw [slotsOf_nil] at hat
    exact ⟨c, regs, .refl c, h, fun reg hreg => hregs reg List.not_mem_nil hreg, hat⟩
  | cons reg popped ih =>
    obtain ⟨hreg, hrsp'⟩ := not_or.mp (fun h => hrsp (List.mem_cons.mpr h))
    obtain ⟨hfresh, hnodup⟩ := List.nodup_cons.mp hnodup
    have hfinds : ∀ column, Finds (slotsOf (reg :: popped))
        (words ++ ((reg :: popped).map fun reg => context (.gp reg)).reverse) regs column
        (context column) := fun column => finds_slotsOf hlength (hframe regs) hregs hrsp
    have hn : (words ++ ((reg :: popped).map fun reg => context (.gp reg)).reverse).length =
        frameLength + (reg :: popped).length := by
      rw [List.length_append, List.length_reverse, List.length_map, hlength]
    have hrun := @Sits.along sys (fun _ _ => context) _ _ _ _ f k _ _ _ _ _ c h
      (by rw [hn]; exact hat) hfinds
    rw [List.map_cons, List.reverse_cons, ← List.append_assoc] at h
    have hnext : At f (k + 1) (rowOn (frameLength + popped.length) (slotsOf popped))
        (popped.flatMap popRegWithUnwindHint ++ lines) := by
      have hnext : At f (k + 1) ((Hint.restore (.gp reg)).apply
          (rowOn (frameLength + popped.length + 1) (slotsOf (reg :: popped))))
          (unwindHintAfterPop :: (popped.flatMap popRegWithUnwindHint ++ lines)) := hat.next
      rw [restore_slotsOf hfresh (Ne.symm hreg)] at hnext
      exact hnext.afterPop
    obtain ⟨c', regs', hruns, hsits, hall, hlines⟩ := ih (Sits.pop (Ne.symm hreg) h) hnext hnodup
      hrsp' (fun q hq hqrsp => by
        rcases eq_or_ne q reg with rfl | hne
        · rw [Function.update_self]
        · rw [Function.update_of_ne hne]
          exact hregs q (List.not_mem_cons_of_ne_of_not_mem hne hq) hqrsp)
    rw [show k + 1 + popped.length = k + (reg :: popped).length by
      rw [List.length_cons]; omega] at hsits hlines
    exact ⟨c', regs', hrun.trans hruns, hsits, hall, hlines⟩

end Steps

end UltraKernel.X86.Interrupts
