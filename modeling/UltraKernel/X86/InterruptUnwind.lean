import UltraKernel.Unwind.Rows
import UltraKernel.X86.InterruptEntry

/-!
# The unwinder goes through interrupts

The rows that the hints of `interrupts.S` lead to are the rows that `unwind_next_frame` applies
(`Encodes`).  So what a row finds is the next frame (`register_encodes`), and the unwinder gets from any
instruction on the way to a handler, and on the way back, to the code that was interrupted.
-/

namespace UltraKernel.X86.Interrupts

open Unwind Word

/-- The columns by their DWARF numbers. -/
def dwarfColumn (reg : ℕ) : Column :=
  [Column.gp .rax, .gp .rdx, .gp .rcx, .gp .rbx, .gp .rsi, .gp .rdi, .gp .rbp, .gp .rsp, .gp .r8,
    .gp .r9, .gp .r10, .gp .r11, .gp .r12, .gp .r13, .gp .r14, .gp .r15].getD reg .rip

/-- The row of the unwinder says what the row of the assembler does, of the registers that the unwinder
keeps; its offsets are in units of -8. -/
structure Encodes (row : FrameRow) (cfa : CfaRow) : Prop where
  cfaReg : cfa.cfaReg = Arch.x86.spReg
  cfaOffset : (cfa.cfaOffset : ℤ) = row.cfaOffset
  saved : ∀ reg < Arch.x86.numRegisters, ∀ offset, row.saved (dwarfColumn reg) = some offset →
    (cfa.rules reg).rule = .offset ∧ offset = -(8 * ((cfa.rules reg).offset : ℤ))
  kept : ∀ reg < Arch.x86.numRegisters, row.saved (dwarfColumn reg) = none →
    (cfa.rules reg).rule = if reg = Arch.x86.spReg then .defCfa else .sameValue

/-- The unwinder has arrived at a row, for the registers and the memory of a processor. -/
structure Arrives (m : Machine) (fuel : ℕ) (st : UnwindState) (u : Unwinder) (row : FrameRow)
    (s : Cpu) : Prop where
  arch : m.arch = Arch.x86
  isEnd : st.isEnd = false
  rules : findRules m fuel (Unwinder.start m st) = .done (.ok (), u)
  indexed : Indexed m u.state
  encodes : Encodes row (rowOf u)
  factor : u.state.dataAlignmentFactor = 2 ^ 64 - 8
  frame : ∀ reg < Arch.x86.numRegisters, u.state.frame reg = (s.column (dwarfColumn reg)).toNat
  mem : ∀ column offset, row.saved column = some offset →
    let a := s.reg .rsp + BitVec.ofInt 64 (row.cfaOffset + offset)
    readBytes m.mem a.toNat 8 = (s.mem a).toNat

/-- The address of a rule is that of the slot. -/
theorem slot_address (rsp : BitVec 64) (cfaOffset n : ℕ) :
    add64 (add64 rsp.toNat cfaOffset) (mul64 n (2 ^ 64 - 8)) =
      (rsp + BitVec.ofInt 64 (cfaOffset + -(8 * (n : ℤ)))).toNat := by
  rw [BitVec.toNat_add, BitVec.toNat_ofInt, add64, add64, mul64]
  omega

/-- The stack pointer is saved in every row of this code. -/
theorem rsp_saved (f : Fn) {k : ℕ} {row : FrameRow} {i : Instr} (h : f.listing[k]? = some (row, i)) :
    ∃ offset, row.saved (.gp .rsp) = some offset := by
  have hall : f.listing.all (fun p => (p.1.saved (.gp .rsp)).isSome) = true := by
    cases f with
    | interruptBegin => rfl
    | interruptEnd => rfl
    | trampoline handler => rfl
    | thunk vector =>
      rw [Fn.listing, Fn.lines, Thunk.lines]
      cases (thunkOf vector).aux with
      | none => rfl
      | some aux => rfl
  exact Option.isSome_iff_exists.mp
    (List.all_eq_true.mp hall (row, i) (List.mem_of_getElem? h))

/-- **What a row finds** is what the unwinder puts into the next frame. -/
theorem register_encodes {m : Machine} {fuel : ℕ} {st : UnwindState} {u : Unwinder} {row : FrameRow}
    {s : Cpu} (h : Arrives m fuel st u row s) (hrsp : ∃ offset, row.saved (.gp .rsp) = some offset)
    {reg : ℕ} (hreg : reg < Arch.x86.numRegisters) :
    (rowOf u).register m u.state reg = (row.value s (dwarfColumn reg)).toNat := by
  rw [CfaRow.register, FrameRow.value, h.factor]
  cases hsaved : row.saved (dwarfColumn reg) with
  | some offset =>
    obtain ⟨hrule, hoffset⟩ := h.encodes.saved reg hreg offset hsaved
    have hsp : u.state.frame (rowOf u).cfaReg = (s.reg .rsp).toNat := by
      rw [h.encodes.cfaReg, h.frame _ (by decide)]
      rfl
    have hslot := slot_address (s.reg .rsp) (rowOf u).cfaOffset ((rowOf u).rules reg).offset
    rw [← hoffset, h.encodes.cfaOffset] at hslot
    simp only [hrule, hsp]
    rw [hslot]
    exact h.mem _ _ hsaved
  | none =>
    have hrule := h.encodes.kept reg hreg hsaved
    have hne : reg ≠ Arch.x86.spReg := by
      rintro rfl
      obtain ⟨offset, hoffset⟩ := hrsp
      rw [show dwarfColumn Arch.x86.spReg = .gp .rsp from rfl, hoffset] at hsaved
      cases hsaved
    rw [if_neg hne] at hrule
    simp only [hrule]
    exact h.frame reg hreg

/-- From an instruction, the unwinder gets to a frame with the given columns. -/
def UnwindsTo (sys : System) (expected : Fn → ℕ → Column → BitVec 64) (s : Cpu) : Prop :=
  ∀ f k row i, sys.locate s.rip = some (f, k) → f.listing[k]? = some (row, i) →
    ∀ m fuel st u, Arrives m fuel st u row s →
      ∃ next, unwindNextFrame m fuel st = .done (eok, next) ∧
        ∀ reg < Arch.x86.numRegisters, next.frame reg = (expected f k (dwarfColumn reg)).toNat

theorem unwindsTo_of_rowsShow {sys : System} {expected : Fn → ℕ → Column → BitVec 64} {s : Cpu}
    (h : RowsShow sys expected s) : UnwindsTo sys expected s := by
  intro f k row i hlocate hlisting m fuel st u harrives
  obtain ⟨next, hnext, hframe⟩ := unwindNextFrame_applies harrives.isEnd harrives.rules harrives.indexed
  refine ⟨next, hnext, fun reg hreg => ?_⟩
  rw [hframe reg (by rw [harrives.arch]; exact hreg),
    register_encodes harrives (rsp_saved f hlisting) hreg,
    h f k row i hlocate hlisting]

/-- **The unwinder goes through an interrupt**: from any instruction of the entry code but the ones that
`rows_find_iff` excepts, and from any of the exit code, `unwind_next_frame` gives the registers of the
code that was interrupted or that the processor goes on with. -/
theorem unwind_interrupt (sys : System) (vector : Fin numIdtEntries) (errorCode : BitVec 64) (c : Cpu) :
    ∃ d t, deliver gdt (idtInit sys.idtThunks zeroIdt) vector errorCode c = some d ∧
      Entered sys vector errorCode c t ∧
      Along sys.step (UnwindsTo sys (expectedEntering
        (sys.address (.trampoline (thunkOf vector).handler) 1) c.column)) d t ∧
      UnwindsTo sys (expectedEntering
        (sys.address (.trampoline (thunkOf vector).handler) 1) c.column) t ∧
      ∀ r : Cpu, r.rip = sys.address (.trampoline (thunkOf vector).handler) 3 →
        ∃ u, Along sys.step
          (UnwindsTo sys fun _ _ => (registersAt r.mem (r.reg .rsp)).column) r u ∧
          Resumed (registersAt r.mem (r.reg .rsp)) r.mem u := by
  obtain ⟨d, t, hdeliver, hrun, hshow, ht⟩ := enters_along sys vector errorCode c
  refine ⟨d, t, hdeliver, ht, hrun.mono fun s => unwindsTo_of_rowsShow, unwindsTo_of_rowsShow hshow,
    fun r hr => ?_⟩
  obtain ⟨u, hexit, hresumed⟩ := trampoline_resumes hr
  exact ⟨u, hexit.mono fun s => unwindsTo_of_rowsShow, hresumed⟩

/-! ### A row of the entry and one of the exit -/

instance (row : FrameRow) (cfa : CfaRow) : Decidable (Encodes row cfa) :=
  decidable_of_iff (cfa.cfaReg = Arch.x86.spReg ∧ (cfa.cfaOffset : ℤ) = row.cfaOffset ∧
      ∀ reg ∈ List.range Arch.x86.numRegisters, (cfa.rules reg).rule =
        (match row.saved (dwarfColumn reg) with
          | some _ => .offset
          | none => if reg = Arch.x86.spReg then .defCfa else .sameValue) ∧
        ∀ offset ∈ row.saved (dwarfColumn reg), offset = -(8 * ((cfa.rules reg).offset : ℤ))) <| by
    constructor
    · rintro ⟨hreg, hoffset, hrules⟩
      refine ⟨hreg, hoffset, fun reg hlt offset hsaved => ?_, fun reg hlt hsaved => ?_⟩
      · obtain ⟨hrule, hvalue⟩ := hrules reg (List.mem_range.mpr hlt)
        rw [hsaved] at hrule
        exact ⟨hrule, hvalue offset hsaved⟩
      · have hrule := (hrules reg (List.mem_range.mpr hlt)).1
        rwa [hsaved] at hrule
    · intro h
      refine ⟨h.cfaReg, h.cfaOffset, fun reg hmem => ?_⟩
      have hlt := List.mem_range.mp hmem
      cases hsaved : row.saved (dwarfColumn reg) with
      | none => exact ⟨h.kept reg hlt hsaved, by simp⟩
      | some offset =>
        obtain ⟨hrule, hvalue⟩ := h.saved reg hlt offset hsaved
        exact ⟨hrule, by rintro _ ⟨⟩; exact hvalue⟩

/-- The row of an instruction. -/
def Fn.rowAt (f : Fn) (k : ℕ) : FrameRow := (f.listing.map Prod.fst).getD k .initial

theorem Fn.listing_rowAt {f : Fn} {k : ℕ} (hk : k < f.listing.length) :
    f.listing[k]? = some (f.rowAt k, f.listing[k].2) := by
  rw [Fn.rowAt, List.getD_eq_getElem _ _ (by rwa [List.length_map]), List.getElem_map]
  exact List.getElem?_eq_getElem hk

/-- The bytes of a word. -/
def wordBytes (word : ℕ) : List (BitVec 8) :=
  (List.range 8).map fun i => BitVec.ofNat 8 (word / 256 ^ i)

/-- FDEs of the first bytes of the thunk of vector 37 and of the trampoline of IRQs, in front of a
`struct registers`. -/
def interruptMachine : Machine :=
  { machineOf ([
      0x28, 0x11, 0x00, 0x00, 0x27, 0x10, 0x00, 0x00, 0x00, 0x30, 0x00, 0x00, 0x44, 0x10, 0x00, 0x00,
      0x13, 0x00, 0x00, 0x00, 0x00, 0x00, 0x00, 0x00, 0x01, 0x7A, 0x52, 0x53, 0x00, 0x01, 0x78, 0x10,
      0x01, 0x03, 0x0C, 0x07, 0x08, 0x90, 0x01,
      0x19, 0x00, 0x00, 0x00, 0x1B, 0x00, 0x00, 0x00, 0x28, 0x11, 0x00, 0x00, 0x02, 0x00, 0x00, 0x00,
      0x00, 0x0E, 0x28, 0xB4, 0x01, 0x87, 0x02, 0xB1, 0x03, 0xB3, 0x04, 0x90, 0x05,
      0x38, 0x00, 0x00, 0x00, 0x38, 0x00, 0x00, 0x00, 0x00, 0x30, 0x00, 0x00, 0x10, 0x00, 0x00, 0x00,
      0x00, 0x0E, 0xA8, 0x01, 0xB4, 0x01, 0x87, 0x02, 0xB1, 0x03, 0xB3, 0x04, 0x90, 0x05, 0x85, 0x07,
      0x84, 0x08, 0x81, 0x09, 0x82, 0x0A, 0x80, 0x0B, 0x88, 0x0C, 0x89, 0x0D, 0x8A, 0x0E, 0x8B, 0x0F,
      0x83, 0x10, 0x86, 0x11, 0x8C, 0x12, 0x8D, 0x13, 0x8E, 0x14, 0x8F, 0x15,
      0x00, 0x00, 0x00, 0x00, 0x00, 0x00, 0x00, 0x00] ++
      [15, 14, 13, 12, 6, 3, 11, 10, 9, 8, 1, 2, 1, 4, 5, 5, 0x5000, 8, 0x202, 0x1130, 0].flatMap
        wordBytes) with
    numFdes := 2 }

/-- A processor that is stopped, with the memory of the machine. -/
def stoppedCpu (rip rsp : BitVec 64) : Cpu where
  reg := Function.update (fun _ => 0) .rsp rsp
  rip := rip
  rflags := 0x202
  cs := 8
  ss := 0
  mem a := BitVec.ofNat 64 (readBytes interruptMachine.mem a.toNat 8)

/-- The state of the unwinder for the registers of a processor. -/
def stateOf (s : Cpu) : UnwindState :=
  initialState interruptMachine (fun reg => (s.column (dwarfColumn reg)).toNat) true

/-- The columns that a row may have a rule for. -/
def allColumns : List Column :=
  [.rip, .rflags, .cs, .ss] ++ (List.range 16).map dwarfColumn

theorem mem_allColumns (column : Column) : column ∈ allColumns := by
  cases column with
  | gp reg => cases reg <;> decide
  | rip => decide
  | rflags => decide
  | cs => decide
  | ss => decide

/-- The unwinder of the machine finds a row, and the memory of the processor is that of the machine. -/
def FindsRow (row : FrameRow) (s : Cpu) : Prop :=
  (findRules interruptMachine 64 (Unwinder.start interruptMachine (stateOf s))).value?.map (fun q =>
      (q.1, decide (Encodes row (rowOf q.2)), decide (q.2.state.retRegIdx < Arch.x86.numRegisters),
        q.2.state.dataAlignmentFactor, (List.range Arch.x86.numRegisters).map q.2.state.frame)) =
    some (.ok (), true, true, 2 ^ 64 - 8, (List.range Arch.x86.numRegisters).map (stateOf s).frame) ∧
  ∀ column ∈ allColumns, ∀ offset ∈ row.saved column,
    let a := s.reg .rsp + BitVec.ofInt 64 (row.cfaOffset + offset)
    readBytes interruptMachine.mem a.toNat 8 = (s.mem a).toNat

instance (row : FrameRow) : DecidablePred (FindsRow row) := fun _ => inferInstanceAs (Decidable (_ ∧ _))

theorem FindsRow.arrives {row : FrameRow} {s : Cpu} (h : FindsRow row s) :
    ∃ u, Arrives interruptMachine 64 (stateOf s) u row s := by
  obtain ⟨⟨ret, u⟩, hvalue, heq⟩ := Option.map_eq_some_iff.mp h.1
  simp only [Prod.mk.injEq, decide_eq_true_eq] at heq
  obtain ⟨rfl, hencodes, hretReg, hfactor, hframe⟩ := heq
  refine ⟨u, rfl, rfl, Outcome.value?_eq_some.mp hvalue, ⟨hretReg, ?_⟩, hencodes, hfactor,
    fun reg hreg => List.map_inj_left.mp hframe reg (List.mem_range.mpr hreg),
    fun column offset hsaved => h.2 column (mem_allColumns column) offset hsaved⟩
  have hcfa : u.state.cfaRegIdx = Arch.x86.spReg := hencodes.cfaReg
  rw [hcfa]
  exact Arch.x86.spReg_lt

/-- IRQ 5 on its way in, at its thunk, and on its way out, behind the call of its handler. -/
theorem unwind_interrupt_sample :
    (∃ d next, deliver gdt (idtInit sampleSystem.idtThunks zeroIdt) (37 : Fin 256) 0
        (stoppedCpu 0x5000 0x1130) = some d ∧
      unwindNextFrame interruptMachine 64 (stateOf d) = .done (eok, next) ∧
      ∀ reg < 17, next.frame reg = ((stoppedCpu 0x5000 0x1130).column (dwarfColumn reg)).toNat) ∧
    ∃ next, unwindNextFrame interruptMachine 64 (stateOf (stoppedCpu 0x3003 0x1088)) =
        .done (eok, next) ∧
      ∀ reg < 17, next.frame reg =
        ((registersAt (stoppedCpu 0x3003 0x1088).mem 0x1088).column (dwarfColumn reg)).toNat := by
  obtain ⟨d, t, hdeliver, ht, hentry, -, hexit⟩ :=
    unwind_interrupt sampleSystem (37 : Fin 256) 0 (stoppedCpu 0x5000 0x1130)
  constructor
  · have hthunk : (deliver gdt (idtInit sampleSystem.idtThunks zeroIdt) (37 : Fin 256) 0
        (stoppedCpu 0x5000 0x1130)).map (fun d => (d.rip,
          decide (FindsRow ((Fn.thunk (37 : Fin 256)).rowAt 0) d))) = some (0x1128, true) := by
      decide +kernel
    rw [hdeliver] at hthunk
    obtain ⟨hrip, hfinds⟩ := Prod.mk.inj (Option.some.inj hthunk)
    have hne : d ≠ t := by
      rintro rfl
      exact absurd (hrip.symm.trans ht.rip) (by decide)
    obtain ⟨u, harrives⟩ := (of_decide_eq_true hfinds).arrives
    have hlocate : sampleSystem.locate d.rip = some (.thunk (37 : Fin 256), 0) := by
      rw [hrip]
      decide
    obtain ⟨next, hnext, hframe⟩ := hentry.first hne _ _ _ _ hlocate (Fn.listing_rowAt (by decide))
      _ _ _ _ harrives
    refine ⟨d, next, hdeliver, hnext, fun reg hreg => (hframe reg hreg).trans ?_⟩
    rw [expectedEntering, if_neg (fun h => by cases h.1)]
  · obtain ⟨u, hrun, hresumed⟩ := hexit (stoppedCpu 0x3003 0x1088) (by decide)
    have hne : stoppedCpu 0x3003 0x1088 ≠ u := by
      rintro rfl
      exact absurd hresumed.rip (by decide +kernel)
    obtain ⟨w, harrives⟩ := (show FindsRow ((Fn.trampoline .irqDispatch).rowAt 3)
      (stoppedCpu 0x3003 0x1088) by decide +kernel).arrives
    exact hrun.first hne _ _ _ _ (by decide) (Fn.listing_rowAt (by decide)) _ _ _ _ harrives

end UltraKernel.X86.Interrupts
