import UltraKernel.X86.InterruptRows

/-!
# An interrupt from its delivery to its end

* `interrupt_enters`: through the table that `idt_init` writes, every vector leads to its handler, which
  gets the registers of the interrupted code;
* `interrupt_returns`: what is in the `struct registers` when the handler returns is what the processor
  goes on with;
* `interrupt_resumes`: both together;
* `rows_find_iff`: the rows of the unwinding table find the registers of the interrupted code at every
  instruction on the way, but for `rsi` while `interrupt_begin` pushes the others.
-/

namespace UltraKernel.X86.Interrupts

open WordStack

/-! ### The table -/

/-- An entry that `idt_init` has written, or has not come to. -/
theorem idtInit_foldl (entry : ℕ → InterruptDescriptor) (idt : List InterruptDescriptor) (n i : ℕ) :
    ((List.range n).foldl (fun idt i => idt.set i (entry i)) idt)[i]? =
      if i < n ∧ i < idt.length then some (entry i) else idt[i]? := by
  have hlength : ∀ m, ((List.range m).foldl (fun idt i => idt.set i (entry i)) idt).length =
      idt.length := by
    intro m
    induction m with
    | zero => rfl
    | succ m ih => rw [List.range_succ, List.foldl_append, List.foldl_cons, List.foldl_nil,
        List.length_set, ih]
  induction n with
  | zero => rw [if_neg (by omega)]; rfl
  | succ n ih =>
    rw [List.range_succ, List.foldl_append, List.foldl_cons, List.foldl_nil]
    rcases eq_or_ne n i with rfl | hne
    · by_cases hi : n < idt.length
      · rw [List.getElem?_set_self (by rw [hlength]; exact hi), if_pos ⟨Nat.lt_succ_self n, hi⟩]
      · rw [if_neg (by omega), List.getElem?_eq_none (by rw [List.length_set, hlength]; omega),
          List.getElem?_eq_none (by omega)]
    · rw [List.getElem?_set_ne hne, ih]
      congr 1
      exact propext ⟨fun h => ⟨by omega, h.2⟩, fun h => ⟨by omega, h.2⟩⟩

/-- **Every gate** leads to the thunk of its vector, on the code segment of the kernel. -/
theorem gateOf_idtInit (idtThunks : BitVec 64) (vector : Fin numIdtEntries) :
    ((idtInit idtThunks zeroIdt)[vector.val]?).map gateOf =
      some ⟨idtThunks + BitVec.ofNat 64 (idtThunkSize * vector), BitVec.ofNat 16 kernelCs, 0, 0b1110, 0,
        true⟩ := by
  rw [idtInit, idtInit_foldl fun i =>
    let thisThunk := idtThunks + BitVec.ofNat 64 (idtThunkSize * i)
    ⟨interruptDescriptorLow thisThunk 0 0, interruptDescriptorHigh thisThunk⟩]
  rw [if_pos ⟨vector.isLt, by rw [zeroIdt, List.length_replicate]; exact vector.isLt⟩, Option.map_some]
  exact congrArg some (gateOf_interruptDescriptor _ 0 0)

/-! ### Registers -/

/-- The columns of a `struct registers`. -/
def Registers.column (regs : Registers) : Column → BitVec 64
  | .gp .rax => regs.rax
  | .gp .rdx => regs.rdx
  | .gp .rcx => regs.rcx
  | .gp .rbx => regs.rbx
  | .gp .rsi => regs.rsi
  | .gp .rdi => regs.rdi
  | .gp .rbp => regs.rbp
  | .gp .rsp => regs.rsp
  | .gp .r8 => regs.r8
  | .gp .r9 => regs.r9
  | .gp .r10 => regs.r10
  | .gp .r11 => regs.r11
  | .gp .r12 => regs.r12
  | .gp .r13 => regs.r13
  | .gp .r14 => regs.r14
  | .gp .r15 => regs.r15
  | .rip => regs.rip
  | .rflags => regs.flags
  | .cs => regs.cs
  | .ss => regs.ss

/-- The registers of a processor, and a value for the union. -/
def registersOf (c : Cpu) (aux : BitVec 64) : Registers where
  r15 := c.reg .r15
  r14 := c.reg .r14
  r13 := c.reg .r13
  r12 := c.reg .r12
  rbp := c.reg .rbp
  rbx := c.reg .rbx
  r11 := c.reg .r11
  r10 := c.reg .r10
  r9 := c.reg .r9
  r8 := c.reg .r8
  rax := c.reg .rax
  rcx := c.reg .rcx
  rdx := c.reg .rdx
  rsi := c.reg .rsi
  rdi := c.reg .rdi
  aux := aux
  rip := c.rip
  cs := c.cs.setWidth 64
  flags := c.rflags
  rsp := c.reg .rsp
  ss := c.ss.setWidth 64

/-- The words of a frame, and the one behind it. -/
def frameWords (column : Column → BitVec 64) (aux : BitVec 64) : List (BitVec 64) :=
  [column .ss, column (.gp .rsp), column .rflags, column .cs, column .rip, aux]

/-- The words of a `struct registers`, from its end. -/
def Registers.words (regs : Registers) : List (BitVec 64) :=
  frameWords regs.column regs.aux ++ (poppedRegs.map fun reg => regs.column (.gp reg)).reverse

theorem column_registersOf (c : Cpu) (aux : BitVec 64) : (registersOf c aux).column = c.column := by
  funext column
  cases column with
  | gp reg => cases reg <;> rfl
  | rip => rfl
  | rflags => rfl
  | cs => rfl
  | ss => rfl

theorem words_registersAt (mem : Memory) (base : BitVec 64) :
    (registersAt mem (pointer base 21)).words =
      (List.range 21).map fun i => mem (pointer base (i + 1)) := by
  have hfields : (registersAt mem (pointer base 21)).words = (List.range 21).map fun i =>
      mem (pointer base 21 + BitVec.ofNat 64 (8 * (20 - i))) := rfl
  rw [hfields]
  refine List.map_congr_left fun i hi => ?_
  have hi := List.mem_range.mp hi
  rw [pointer_add base (by omega), show 21 - (20 - i) = i + 1 by omega]

theorem Registers.words_injective {regs regs' : Registers} (h : regs.words = regs'.words) :
    regs = regs' := by
  cases regs
  cases regs'
  simpa [Registers.words, frameWords, poppedRegs, Registers.column, and_assoc, and_comm,
    and_left_comm] using h

/-- The words below a base are those of a `struct registers` exactly if that lies at their end. -/
theorem holds_words_iff {mem : Memory} {base : BitVec 64} {regs : Registers} :
    Holds mem base regs.words ↔ registersAt mem (pointer base 21) = regs := by
  have hget : ∀ i < 21, (registersAt mem (pointer base 21)).words[i]? =
      some (mem (pointer base (i + 1))) := by
    intro i hi
    rw [words_registersAt, List.getElem?_map, List.getElem?_range hi]
    rfl
  have hlength : ∀ regs : Registers, regs.words.length = 21 := fun _ => rfl
  constructor
  · intro h
    apply Registers.words_injective
    apply List.ext_getElem?
    intro i
    rcases Nat.lt_or_ge i 21 with hi | hi
    · obtain ⟨w, hw⟩ : ∃ w, regs.words[i]? = some w :=
        ⟨_, List.getElem?_eq_getElem (by rw [hlength]; exact hi)⟩
      rw [hget i hi, hw, h i w hw]
    · rw [List.getElem?_eq_none (by rw [hlength]; exact hi),
        List.getElem?_eq_none (by rw [hlength]; exact hi)]
  · rintro rfl i w hw
    have hi : i < 21 := (List.getElem?_eq_some_iff.mp hw).1
    rw [hget i hi] at hw
    exact Option.some.inj hw

/-! ### Delivery -/

/-- The stack that an interrupt is delivered on. -/
def interruptStack (c : Cpu) : BitVec 64 := c.reg .rsp &&& ~~~(0xF : BitVec 64)

/-- The word behind the frame: the error code, or what the thunk pushes. -/
def auxWord (vector : Fin numIdtEntries) (errorCode : BitVec 64) : BitVec 64 :=
  match (thunkOf vector).aux with
  | some aux => aux.signExtend 64
  | none => errorCode

/-- **A thunk pushes a value** exactly if the processor has not pushed an error code. -/
theorem thunkOf_aux (vector : Fin numIdtEntries) :
    (thunkOf vector).aux = none ↔ pushesErrorCode vector = true := by
  revert vector
  decide +kernel

/-- **An interrupt is delivered** to the thunk of its vector, with its frame on the stack. -/
theorem deliver_sits (sys : System) (vector : Fin numIdtEntries) (errorCode : BitVec 64) (c : Cpu) :
    ∃ d, deliver gdt (idtInit sys.idtThunks zeroIdt) vector errorCode c = some d ∧
      Sits sys c.mem (interruptStack c) 22 (c.rflags &&& ~~~gateClearedFlags) (.thunk vector) 0 c.reg
        ([c.column .ss, c.column (.gp .rsp), c.column .rflags, c.column .cs, c.column .rip] ++
          if pushesErrorCode vector then [errorCode] else []) d := by
  obtain ⟨gate, hgate, hfields⟩ := Option.map_eq_some_iff.mp (gateOf_idtInit sys.idtThunks vector)
  have hcode : gdt[(BitVec.ofNat 16 kernelCs).toNat / 8]? = some segmentKernelCode64 := rfl
  have hpass : IsKernelCode64 segmentKernelCode64 := by decide
  refine ⟨{ c.pushFrame vector errorCode with
    rip := sys.address (.thunk vector) 0
    rflags := c.rflags &&& ~~~gateClearedFlags
    cs := BitVec.ofNat 16 kernelCs }, ?_, ?_⟩
  · simp only [deliver, hgate, hfields, hcode, Option.bind_eq_bind, Option.bind_some]
    rw [if_pos ⟨trivial, trivial, trivial, hpass⟩, sys.address_thunk]
    rfl
  have hcapacity : 22 < capacity := by decide
  have haligned : Sits sys c.mem (interruptStack c) 22 c.rflags (.thunk vector) 0 c.reg []
      { c.setReg .rsp (interruptStack c) with rip := sys.address (.thunk vector) 0 } := by
    refine ⟨rfl, ?_, fun reg hreg => ?_, rfl, (fun i w hw => by cases hw), .refl _ _ _⟩
    · show Function.update c.reg .rsp (interruptStack c) .rsp = pointer _ 0
      rw [Function.update_self, pointer_zero]
    · show Function.update c.reg .rsp (interruptStack c) reg = _
      rw [Function.update_of_ne hreg]
  have hframe := ((((haligned.pushTo (g := .thunk vector) (c.column .ss) (l := 0) (by simp)
    hcapacity).pushTo (g := .thunk vector) (c.column (.gp .rsp)) (l := 0) (by simp)
    hcapacity).pushTo (g := .thunk vector) (c.column .rflags) (l := 0) (by simp)
    hcapacity).pushTo (g := .thunk vector) (c.column .cs) (l := 0) (by simp)
    hcapacity).pushTo (g := .thunk vector) (c.column .rip) (l := 0) (by simp) hcapacity
  unfold Cpu.pushFrame
  by_cases hpushes : pushesErrorCode vector = true
  · have herror := hframe.pushTo (g := .thunk vector) errorCode (l := 0) (by simp) hcapacity
    rw [if_pos hpushes, if_pos hpushes]
    exact ⟨rfl, herror.rsp, herror.regs, rfl, herror.holds, herror.untouched⟩
  · rw [if_neg hpushes, if_neg hpushes]
    exact ⟨rfl, hframe.rsp, hframe.regs, rfl, hframe.holds, hframe.untouched⟩

/-! ### Entry -/

/-- What the rows find on the way to the handler of code that had the given columns: `rsi` is missed
while `interrupt_begin` pushes the other registers, since the hint of its push gives the slot above it,
which holds the address to return to and then `rdi`. -/
def expectedEntering (caller : BitVec 64) (context : Column → BitVec 64) (f : Fn) (k : ℕ)
    (column : Column) : BitVec 64 :=
  if f = .interruptBegin ∧ column = .gp .rsi ∧ 2 ≤ k ∧ k ≤ 17 then
    if k ≤ 3 then caller else context (.gp .rdi)
  else context column

section Entry

variable {sys : System} {mem : Memory} {base flags caller aux : BitVec 64} {c s : Cpu} {f : Fn} {k : ℕ}
  {regs : Reg → BitVec 64} {words : List (BitVec 64)} {context : Column → BitVec 64}
  {column : Column}

/-- Outside of that, the columns are expected. -/
theorem expectedEntering_of_ne (h : ¬ (f = .interruptBegin ∧ column = .gp .rsi ∧ 2 ≤ k ∧ k ≤ 17)) :
    expectedEntering caller context f k column = context column := if_neg h

/-- The words of a frame are found, whatever the registers and what is pushed behind them. -/
theorem finds_frameColumn (more : List (BitVec 64)) (hcolumn : ¬ ∃ reg, column = .gp reg ∧ reg ≠ .rsp) :
    Finds frameSlots ([context .ss, context (.gp .rsp), context .rflags, context .cs, context .rip] ++
      more) regs column (context column) := by
  cases column with
  | gp reg =>
    have hreg : reg = .rsp := by_contra fun hne => hcolumn ⟨reg, rfl, hne⟩
    rw [hreg]
    rfl
  | rip => rfl
  | rflags => rfl
  | cs => rfl
  | ss => rfl

/-- So are the registers that are kept. -/
theorem finds_frame (more : List (BitVec 64))
    (hregs : ∀ reg, column = .gp reg → reg ≠ .rsp → regs reg = context (.gp reg)) :
    Finds frameSlots ([context .ss, context (.gp .rsp), context .rflags, context .cs, context .rip] ++
      more) regs column (context column) := by
  by_cases hcolumn : ∃ reg, column = .gp reg ∧ reg ≠ .rsp
  · obtain ⟨reg, rfl, hreg⟩ := hcolumn
    rw [Finds, frameSlots_gp hreg]
    exact ⟨reg, rfl, hreg, hregs reg rfl hreg⟩
  · exact finds_frameColumn more hcolumn

/-- **A thunk** leads to the code of its handler, with one word behind the frame. -/
theorem thunk_along {vector : Fin numIdtEntries} {errorCode : BitVec 64}
    (h : Sits sys mem base 22 flags (.thunk vector) 0 c.reg
      ([c.column .ss, c.column (.gp .rsp), c.column .rflags, c.column .cs, c.column .rip] ++
        if pushesErrorCode vector then [errorCode] else []) s) :
    ∃ s', Along sys.step (RowsShow sys (expectedEntering caller c.column)) s s' ∧
      Sits sys mem base 22 flags (.trampoline (thunkOf vector).handler) 0 c.reg
        (frameWords c.column (auxWord vector errorCode)) s' := by
  have hexpected : ∀ k column, expectedEntering caller c.column (.thunk vector) k column =
      c.column column := fun k column => expectedEntering_of_ne (by rintro ⟨h, _⟩; cases h)
  have hfinds : ∀ more k column, Finds frameSlots ([c.column .ss, c.column (.gp .rsp),
      c.column .rflags, c.column .cs, c.column .rip] ++ more) c.reg column
      (expectedEntering caller c.column (.thunk vector) k column) := by
    intro more k column
    rw [hexpected]
    exact finds_frame more fun _ _ _ => rfl
  have hstart := At.start (.thunk vector)
  rw [Fn.lines, Thunk.lines] at hstart
  unfold auxWord
  cases haux : (thunkOf vector).aux with
  | none =>
    rw [if_pos ((thunkOf_aux vector).mp haux)] at h
    rw [haux] at hstart
    have hjmp := At.interruptFrame 1 hstart
    exact ⟨_, h.along hjmp (hfinds _ _), h.jmp _⟩
  | some aux =>
    rw [if_neg (fun hpushes => by rw [(thunkOf_aux vector).mpr hpushes] at haux; cases haux)] at h
    rw [haux, List.append_assoc] at hstart
    have hpush := At.interruptFrame 0 hstart
    have hpushed := h.pushTo (g := .thunk vector) (aux.signExtend 64) (l := 1) (by simp) (by decide)
    exact ⟨_, (h.along hpush (hfinds _ _)).trans (hpushed.along hpush.next.afterPush (hfinds _ _)),
      hpushed.jmp _⟩

/-- What is expected of a column that is found, but for `rsi` in `interrupt_begin`. -/
theorem finds_expected (caller : BitVec 64) {slots : Column → Option ℕ}
    (hcolumns : ∀ column, column ≠ .gp .rsi → Finds slots words regs column (context column))
    (hrsi : Finds slots words regs (.gp .rsi)
      (expectedEntering caller context .interruptBegin k (.gp .rsi))) :
    ∀ column, Finds slots words regs column
      (expectedEntering caller context .interruptBegin k column) := by
  intro column
  by_cases h : column = .gp .rsi
  · rw [h]
    exact hrsi
  · rw [expectedEntering_of_ne (fun hne => h hne.2.1)]
    exact hcolumns column h

/-- The slots while the hint of the push of `rsi` stands. -/
def rsiSlots : Column → Option ℕ := Function.update frameSlots (.gp .rsi) (some frameLength)

/-- Every other column is found, as long as its register is kept. -/
theorem finds_rsiSlots (more : List (BitVec 64))
    (hregs : ∀ reg, reg ≠ .rsp → reg ≠ .rsi → regs reg = context (.gp reg)) :
    ∀ column, column ≠ .gp .rsi →
      Finds rsiSlots (frameWords context aux ++ more) regs column (context column) := by
  intro column hcolumn
  have hslot : rsiSlots column = frameSlots column := Function.update_of_ne hcolumn _ _
  rw [Finds, hslot]
  exact finds_frame (aux :: more) fun reg hreg hrsp =>
    hregs reg hrsp fun h => hcolumn (hreg.trans (congrArg Column.gp h))

/-- The words that `interrupt_begin` leaves, without the return address. -/
def savedWords (context : Column → BitVec 64) (aux : BitVec 64) : List (BitVec 64) :=
  frameWords context aux ++ (poppedRegs.map fun reg => context (.gp reg)).reverse

/-- The saved registers are found, whatever the registers and what is pushed on top of them. -/
theorem finds_saved (more : List (BitVec 64)) :
    Finds (slotsOf poppedRegs) (savedWords context aux ++ more) regs column (context column) := by
  refine (finds_slotsOf rfl (fun column hcolumn => finds_frameColumn [aux] hcolumn)
    (fun reg hmem hreg => ?_) (by decide)).append _
  cases reg with
  | rsp => exact absurd rfl hreg
  | _ => exact absurd (by decide) hmem

/-- **`interrupt_begin`** pushes the registers, and returns with its return address in `rsi`. -/
theorem interruptBegin_along {caller : Fn} {l : ℕ} {context : Column → BitVec 64}
    (hcontext : ∀ reg, context (.gp reg) = regs reg)
    (h : Sits sys mem base 22 flags .interruptBegin 0 regs
      (frameWords context aux ++ [sys.address caller l]) s) :
    ∃ s', Along sys.step (RowsShow sys (expectedEntering (sys.address caller l) context)) s s' ∧
      Sits sys mem base 22 (flags &&& ~~~directionFlag) caller l
        (Function.update regs .rsi (sys.address caller l)) (savedWords context aux) s' := by
  have hcapacity : 22 < capacity := by decide
  have hat : At .interruptBegin 0 (rowOn 7 frameSlots) _ := At.interruptFrame 2 (At.start _)
  -- before rsi is pushed, the registers are where they were
  have hbefore : ∀ k < 2, ∀ more column, Finds frameSlots (frameWords context aux ++ more) regs column
      (expectedEntering (sys.address caller l) context .interruptBegin k column) := by
    intro k hk more column
    rw [expectedEntering_of_ne (by omega)]
    exact finds_frame (aux :: more) fun reg _ _ => (hcontext reg).symm
  have hrun₀ := h.along hat (hbefore 0 (by decide) _)
  have h₁ := h.cld
  have hat₁ : At .interruptBegin 1 (rowOn 7 frameSlots)
    (.instr (.push .rsi) :: .hint (.relOffset (.gp .rsi) 0) :: unwindHintAfterPush :: _) := hat.next
  have hrun₁ := h₁.along hat₁ (hbefore 1 (by decide) _)
  -- the hint of the push gives the slot above the one that was pushed
  have h₂ : Sits sys mem base 22 _ .interruptBegin 2 regs
      (frameWords context aux ++ [sys.address caller l, regs .rsi]) _ :=
    h₁.push (by decide) (by exact (by decide : 7 < 22)) hcapacity
  have hat₂ : At .interruptBegin 2 (rowOn 8 rsiSlots) (.instr (.movLoad .rsi ultraArchWidth) :: _) :=
    (At.relOffset 6 hat₁.next (by decide)).afterPush
  have hrun₂ := h₂.along hat₂ (finds_expected _ (finds_rsiSlots _ fun reg _ _ => (hcontext reg).symm) rfl)
  have h₃ := h₂.loadSecond (by decide : Reg.rsi ≠ .rsp)
  have hat₃ : At .interruptBegin 3 (rowOn 8 rsiSlots) (.instr (.movStore ultraArchWidth .rdi) :: _) :=
    hat₂.next
  have hkept : ∀ reg, reg ≠ .rsp → reg ≠ .rsi →
      Function.update regs .rsi (sys.address caller l) reg = context (.gp reg) := by
    intro reg _ hreg
    rw [Function.update_of_ne hreg, hcontext]
  have hrun₃ := h₃.along hat₃ (finds_expected _ (finds_rsiSlots _ hkept) rfl)
  have h₄ := h₃.storeSecond (by decide : Reg.rdi ≠ .rsp) (by exact (by decide : 8 ≤ 22)) hcapacity
  have hat₄ : At .interruptBegin 4 (rowOn 8 rsiSlots) (pushedRegs.flatMap pushWithUnwindHint ++
      (pushWithUnwindHint .rsi ++ unwindHintGpRegs ultraArchWidth false ++
        [.instr .ret, .hint .endproc])) := hat₃.next
  obtain ⟨s₁₇, hrun₄, h₁₇, hat₁₇⟩ := pushes_along hcapacity pushedRegs h₄ hat₄ (by decide)
    (by exact (by decide : 21 ≤ 22)) (fun j hj => finds_expected _ (finds_rsiSlots _ hkept) (by
      have hrdi : expectedEntering (sys.address caller l) context .interruptBegin (4 + j) (.gp .rsi) =
          context (.gp .rdi) := by
        have hj : j < 13 := hj
        rw [expectedEntering, if_pos ⟨rfl, rfl, by omega, by omega⟩, if_neg (by omega)]
      rw [hrdi, hcontext]
      rfl))
  have hwords : frameWords context aux ++
      [Function.update regs .rsi (sys.address caller l) .rdi, regs .rsi] ++
        pushedRegs.map (Function.update regs .rsi (sys.address caller l)) = savedWords context aux := by
    have hregs : regs = fun reg => context (.gp reg) := funext fun reg => (hcontext reg).symm
    rw [hregs]
    rfl
  rw [hwords] at h₁₇
  have hat₁₇ : At .interruptBegin 17 (rowOn 21 rsiSlots) (.instr (.push .rsi) :: unwindHintAfterPush ::
      (unwindHintGpRegs (8 * 1) false ++ [.instr .ret, .hint .endproc])) := hat₁₇
  have hrun₁₇ := Sits.along (k := 17) h₁₇ hat₁₇ (finds_expected (sys.address caller l) (fun column hcolumn => by
    show Finds rsiSlots (frameWords context aux ++ _) _ _ _
    exact finds_rsiSlots _ hkept column hcolumn) rfl)
  have h₁₈ := Sits.push (k := 17) h₁₇ (by decide : Reg.rsi ≠ .rsp) (by exact (by decide : 21 < 22))
    hcapacity
  rw [Function.update_self] at h₁₈
  have hat₁₈ : At .interruptBegin 18 (rowOn 22 (slotsOf poppedRegs)) [.instr .ret, .hint .endproc] :=
    At.gpRegs 1 hat₁₇.next.afterPush fun column hcolumn =>
      Function.update_of_ne (hcolumn .rsi (by decide)) _ _
  have hfinds : ∀ column, Finds (slotsOf poppedRegs) (savedWords context aux ++ [sys.address caller l])
      (Function.update regs .rsi (sys.address caller l)) column
      (expectedEntering (sys.address caller l) context .interruptBegin 18 column) := by
    intro column
    rw [expectedEntering_of_ne (by omega)]
    exact finds_saved _
  have hrun₁₈ := Sits.along (k := 18) h₁₈ hat₁₈ hfinds
  exact ⟨_, hrun₀.trans (hrun₁.trans (hrun₂.trans (hrun₃.trans (hrun₄.trans (hrun₁₇.trans
    hrun₁₈))))), h₁₈.ret⟩

/-- The lines behind the first call of a trampoline. -/
theorem trampoline_at (handler : Handler) :
    At (.trampoline handler) 1 (rowOn 21 (slotsOf poppedRegs))
      [.instr (.mov .rdi .rsp), .instr (.callHandler handler), .instr (.jmp .interruptEnd),
        .hint .endproc] := by
  have hcall : At (.trampoline handler) 0 (rowOn 6 frameSlots) (.instr (.call .interruptBegin) :: _) :=
    At.interruptFrame 1 (At.start _)
  have hadjust : At (.trampoline handler) 1 (rowOn 21 frameSlots) (unwindHintGpRegs (8 * 0) false ++ _) :=
    hcall.next
  exact At.gpRegs 0 hadjust fun _ _ => rfl

/-- **The code in front of a handler** saves the registers and passes their address. -/
theorem trampoline_along {handler : Handler}
    (h : Sits sys mem base 22 flags (.trampoline handler) 0 c.reg (frameWords c.column aux) s) :
    ∃ s' regs', Along sys.step
        (RowsShow sys (expectedEntering (sys.address (.trampoline handler) 1) c.column)) s s' ∧
      RowsShow sys (expectedEntering (sys.address (.trampoline handler) 1) c.column) s' ∧
      Sits sys mem base 22 (flags &&& ~~~directionFlag) (.trampoline handler) 2 regs'
        (savedWords c.column aux) s' ∧ s'.reg .rdi = s'.reg .rsp := by
  let expected := expectedEntering (sys.address (.trampoline handler) 1) c.column
  have hexpected : ∀ k column, expected (.trampoline handler) k column = c.column column :=
    fun k column => expectedEntering_of_ne (by rintro ⟨h, _⟩; cases h)
  have hcall : At (.trampoline handler) 0 (rowOn 6 frameSlots) (.instr (.call .interruptBegin) :: _) :=
    At.interruptFrame 1 (At.start _)
  have hfound : ∀ column, Finds frameSlots (frameWords c.column aux) c.reg column
      (expected (.trampoline handler) 0 column) := by
    intro column
    rw [hexpected]
    exact finds_frame [aux] fun _ _ _ => rfl
  have hrun := h.along hcall hfound
  have hcalled := h.pushTo (g := .interruptBegin) (sys.address (.trampoline handler) 1) (l := 0)
    (by exact (by decide : 6 < 22)) (by decide)
  obtain ⟨s₁, hbegin, h₁⟩ := interruptBegin_along
    (fun _ => rfl : ∀ reg, c.column (.gp reg) = c.reg reg) hcalled
  have hsaved : ∀ k regs column, Finds (slotsOf poppedRegs) (savedWords c.column aux) regs column
      (expected (.trampoline handler) k column) := by
    intro k regs column
    rw [hexpected, ← List.append_nil (savedWords c.column aux)]
    exact finds_saved []
  have hmov := h₁.along (trampoline_at handler) (hsaved 1 _)
  have h₂ := h₁.setReg (by decide : Reg.rdi ≠ .rsp) (s₁.reg .rsp)
  refine ⟨_, _, hrun.trans (hbegin.trans hmov), h₂.rowsShow (trampoline_at handler).next (hsaved 2 _), h₂,
    ?_⟩
  show Function.update s₁.reg .rdi (s₁.reg .rsp) .rdi = Function.update s₁.reg .rdi (s₁.reg .rsp) .rsp
  rw [Function.update_self, Function.update_of_ne (by decide)]

end Entry

/-! ### Exit -/

section Exit

variable {sys : System} {mem : Memory} {base flags : BitVec 64} {s : Cpu} {f : Fn} {k : ℕ}
  {registers : Registers}

/-- The processor has been given the registers of a `struct registers`. -/
structure Resumed (registers : Registers) (mem : Memory) (c : Cpu) : Prop where
  reg : ∀ reg, c.reg reg = registers.column (.gp reg)
  rip : c.rip = registers.rip
  rflags : c.rflags = registers.flags
  cs : c.cs = registers.cs.setWidth 16
  ss : c.ss = registers.ss.setWidth 16
  mem : c.mem = mem

/-- The registers that a processor had are all that it has. -/
theorem Resumed.eq {c u : Cpu} {aux : BitVec 64} (h : Resumed (registersOf c aux) mem u) :
    u = { c with mem := mem } := by
  have hreg : u.reg = c.reg := by
    funext reg
    rw [h.reg, column_registersOf]
    rfl
  have hcs : u.cs = c.cs := h.cs.trans (BitVec.setWidth_setWidth_of_le c.cs (by decide))
  have hss : u.ss = c.ss := h.ss.trans (BitVec.setWidth_setWidth_of_le c.ss (by decide))
  obtain ⟨_, _, _, _, _, _⟩ := u
  rw [Cpu.mk.injEq]
  exact ⟨hreg, h.rip, h.rflags, hcs, hss, h.mem⟩

/-- **`iretq`** takes the frame. -/
theorem iretq_resumes {regs : Reg → BitVec 64} {next : BitVec 64}
    (h : Sits sys mem base 0 flags f k regs [registers.ss, registers.rsp, registers.flags, registers.cs,
      registers.rip] s)
    (hregs : ∀ reg, reg ≠ .rsp → regs reg = registers.column (.gp reg)) :
    Resumed registers mem (Instr.iretq.exec sys next s) := by
  have hstack : ∀ j < 5, ∀ w, [registers.ss, registers.rsp, registers.flags, registers.cs,
      registers.rip][4 - j]? = some w → s.stack (8 * j) = w := by
    intro j hj w hw
    rw [Cpu.stack, h.rsp]
    exact h.holds.read hw hj
  refine ⟨fun reg => ?_, hstack 0 (by decide) _ rfl, hstack 2 (by decide) _ rfl,
    congrArg (BitVec.setWidth 16) (hstack 1 (by decide) _ rfl),
    congrArg (BitVec.setWidth 16) (hstack 4 (by decide) _ rfl),
    funext fun a => h.untouched a fun i hi => absurd hi (Nat.not_lt_zero i)⟩
  show Function.update s.reg .rsp (s.stack 24) reg = _
  by_cases hreg : reg = .rsp
  · rw [hreg, Function.update_self]
    exact hstack 3 (by decide) _ rfl
  · rw [Function.update_of_ne hreg, h.regs reg hreg, hregs reg hreg]

/-- **`interrupt_end`** takes the registers, the rows finding them all the while. -/
theorem interruptEnd_along {regs : Reg → BitVec 64}
    (h : Sits sys mem base 0 flags .interruptEnd 0 regs registers.words s) :
    ∃ s', Along sys.step (RowsShow sys fun _ _ => registers.column) s s' ∧ Resumed registers mem s' := by
  have hat : At .interruptEnd 0 (rowOn 21 (slotsOf poppedRegs))
      (poppedRegs.flatMap popRegWithUnwindHint ++
        [.instr (.addRsp ultraArchWidth), unwindHintAfterPop, .instr .iretq, .hint .endproc]) :=
    At.gpRegs 0 (At.interruptFrame 16 (At.start .interruptEnd)) fun _ _ => rfl
  obtain ⟨s₁, regs', hpops, h₁, hregs, hat₁⟩ := pops_along poppedRegs h hat rfl (by decide)
    (by decide) (fun regs column hcolumn => finds_frameColumn [registers.aux] hcolumn)
    (fun reg hmem hreg => by
      cases reg with
      | rsp => exact absurd rfl hreg
      | _ => exact absurd (by decide) hmem)
  have hadd : Along sys.step (RowsShow sys fun _ _ => registers.column) s₁ _ :=
    h₁.along hat₁ fun column => finds_frame [registers.aux] fun reg _ => hregs reg
  have h₁ : Sits sys mem base 0 flags .interruptEnd 15 regs' ([registers.ss, registers.rsp,
      registers.flags, registers.cs, registers.rip] ++ [registers.aux]) s₁ := h₁
  have h₂ := h₁.addRsp
  have hiretq : Along sys.step (RowsShow sys fun _ _ => registers.column) _ _ :=
    h₂.along hat₁.next.afterPop fun column => finds_frame [] fun reg _ => hregs reg
  exact ⟨_, hpops.trans (hadd.trans hiretq), iretq_resumes h₂ hregs⟩

/-- **What is in the `struct registers`** when the handler has returned is what the processor goes on
with. -/
theorem trampoline_resumes {handler : Handler} (hrip : s.rip = sys.address (.trampoline handler) 3) :
    ∃ s', Along sys.step (RowsShow sys fun _ _ => (registersAt s.mem (s.reg .rsp)).column) s s' ∧
      Resumed (registersAt s.mem (s.reg .rsp)) s.mem s' := by
  let registers := registersAt s.mem (s.reg .rsp)
  let base := s.reg .rsp + BitVec.ofNat 64 168
  have hbase : pointer base 21 = s.reg .rsp := BitVec.add_sub_cancel _ _
  have h : Sits sys s.mem base 0 s.rflags (.trampoline handler) 3 s.reg registers.words s := by
    refine ⟨hrip, hbase.symm, fun _ _ => rfl, rfl, ?_, .refl _ _ _⟩
    exact holds_words_iff.mpr (congrArg (registersAt s.mem) hbase)
  have hjmp : At (.trampoline handler) 3 (rowOn 21 (slotsOf poppedRegs))
      [.instr (.jmp .interruptEnd), .hint .endproc] := (trampoline_at handler).next.next
  have hrun : Along sys.step (RowsShow sys fun _ _ => registers.column) s _ :=
    h.along hjmp fun column => by
      have hfinds : Finds (slotsOf poppedRegs) (savedWords registers.column registers.aux ++ []) s.reg
        column (registers.column column) := finds_saved []
      rwa [List.append_nil] at hfinds
  obtain ⟨s', hruns, hresumed⟩ := interruptEnd_along (h.jmp .interruptEnd)
  exact ⟨s', hrun.trans hruns, hresumed⟩

end Exit

/-! ### The whole way -/

/-- A handler is about to be called for code that had the registers of `c`. -/
structure Entered (sys : System) (vector : Fin numIdtEntries) (errorCode : BitVec 64) (c t : Cpu) :
    Prop where
  rip : t.rip = sys.address (.trampoline (thunkOf vector).handler) 2
  call : (sys.fetch t).map Prod.snd = some (.callHandler (thunkOf vector).handler)
  rdi : t.reg .rdi = t.reg .rsp
  rsp : t.reg .rsp = interruptStack c - 168
  registers : registersAt t.mem (t.reg .rdi) = registersOf c (auxWord vector errorCode)
  direction : t.rflags &&& directionFlag = 0
  untouched : Untouched (interruptStack c) 22 c.mem t.mem

theorem enters_along (sys : System) (vector : Fin numIdtEntries) (errorCode : BitVec 64) (c : Cpu) :
    ∃ d t, deliver gdt (idtInit sys.idtThunks zeroIdt) vector errorCode c = some d ∧
      Along sys.step (RowsShow sys (expectedEntering
        (sys.address (.trampoline (thunkOf vector).handler) 1) c.column)) d t ∧
      RowsShow sys (expectedEntering
        (sys.address (.trampoline (thunkOf vector).handler) 1) c.column) t ∧
      Entered sys vector errorCode c t := by
  obtain ⟨d, hdeliver, h₀⟩ := deliver_sits sys vector errorCode c
  obtain ⟨s, hthunk, h₁⟩ := thunk_along h₀
  obtain ⟨t, regs, htrampoline, hshow, h₂, hrdi⟩ := trampoline_along h₁
  have hcall := (trampoline_at (thunkOf vector).handler).next
  refine ⟨d, t, hdeliver, hthunk.trans htrampoline, hshow, h₂.rip, ?_, hrdi, h₂.rsp, ?_, ?_,
    h₂.untouched⟩
  · rw [System.fetch, h₂.rip, sys.locate_address _ _ hcall.length, Option.bind_some, hcall.fetch]
    rfl
  · rw [hrdi, h₂.rsp]
    refine holds_words_iff.mp ?_
    rw [Registers.words, column_registersOf]
    exact h₂.holds
  · rw [h₂.flags, BitVec.and_assoc]
    exact BitVec.and_zero

/-- The handler of an interrupt that is not an exception gets the number of its IRQ. -/
theorem thunkOf_irq (vector : Fin numIdtEntries) (errorCode : BitVec 64) (h : numExceptions ≤ vector) :
    (thunkOf vector).handler = .irqDispatch ∧
      ((auxWord vector errorCode).setWidth 8).toNat = vector - numExceptions := by
  have hlt := vector.isLt
  have hthunk : thunkOf vector = makeIrqThunk (vector - numExceptions) := by
    have hexceptions : exceptionThunks.length = numExceptions := rfl
    have hget : thunks[vector.val]? = some (thunkOf vector) :=
      List.getElem?_eq_getElem (by rw [thunks_length]; exact hlt)
    rw [thunks, List.getElem?_append_right (by rw [hexceptions]; exact h), hexceptions,
      List.getElem?_map, List.getElem?_range (by omega), Option.map_some] at hget
    exact (Option.some.inj hget).symm
  have htruncate : ∀ x : BitVec 8, (x.signExtend 64).setWidth 8 = x := by
    intro x
    apply BitVec.eq_of_getLsbD_eq
    intro i hi
    rw [BitVec.getLsbD_setWidth, BitVec.getLsbD_signExtend]
    simp [hi, show i < 64 by omega]
  rw [auxWord, hthunk]
  refine ⟨rfl, ?_⟩
  show (((BitVec.ofNat 8 (vector - numExceptions)).signExtend 64).setWidth 8).toNat = _
  rw [htruncate, BitVec.toNat_ofNat]
  exact Nat.mod_eq_of_lt (by unfold numIdtEntries at hlt; omega)

/-- **Every vector leads to its handler**, which gets the registers of the interrupted code, with the
direction flag clear and nothing overwritten but the words that were pushed. -/
theorem interrupt_enters (sys : System) (vector : Fin numIdtEntries) (errorCode : BitVec 64) (c : Cpu) :
    ∃ d t, deliver gdt (idtInit sys.idtThunks zeroIdt) vector errorCode c = some d ∧
      Along sys.step (fun _ => True) d t ∧ Entered sys vector errorCode c t ∧
      (numExceptions ≤ vector.val → (thunkOf vector).handler = .irqDispatch ∧
        (registersAt t.mem (t.reg .rdi)).interruptIdx.toNat = vector - numExceptions) := by
  obtain ⟨d, t, hdeliver, hrun, _, ht⟩ := enters_along sys vector errorCode c
  refine ⟨d, t, hdeliver, hrun.mono fun _ _ => trivial, ht, fun hirq => ?_⟩
  rw [ht.registers]
  exact thunkOf_irq vector errorCode hirq

/-- **A whole interrupt**: the processor goes on with what the handler leaves in the `struct registers`,
and so as before it if the handler leaves that as it is. -/
theorem interrupt_resumes (sys : System)
    (hreturns : ∀ handler s, (sys.run handler s).rip = s.mem (s.reg .rsp) ∧
      (sys.run handler s).reg .rsp = s.reg .rsp + 8)
    (vector : Fin numIdtEntries) (errorCode : BitVec 64) (c : Cpu) :
    ∃ d t r u, deliver gdt (idtInit sys.idtThunks zeroIdt) vector errorCode c = some d ∧
      Along sys.step (fun _ => True) d t ∧ Entered sys vector errorCode c t ∧ sys.step t = some r ∧
      Along sys.step (fun _ => True) r u ∧ Resumed (registersAt r.mem (t.reg .rdi)) r.mem u ∧
      (registersAt r.mem (t.reg .rdi) = registersAt t.mem (t.reg .rdi) → u = { c with mem := r.mem }) := by
  obtain ⟨d, t, hdeliver, hrun, _, ht⟩ := enters_along sys vector errorCode c
  let next := sys.address (.trampoline (thunkOf vector).handler) 3
  let r := sys.run (thunkOf vector).handler (t.push next)
  have hstep : sys.step t = some r := step_at ht.rip (trampoline_at _).next
  obtain ⟨hrip, hrsp⟩ := hreturns (thunkOf vector).handler (t.push next)
  have hnext : r.rip = next := by
    rw [show r.rip = _ from hrip]
    show Function.update t.mem (t.reg .rsp - 8) next
      (Function.update t.reg .rsp (t.reg .rsp - 8) .rsp) = next
    rw [Function.update_self, Function.update_self]
  have hstack : r.reg .rsp = t.reg .rdi := by
    rw [show r.reg .rsp = _ from hrsp, Cpu.push, ht.rdi]
    show Function.update t.reg .rsp (t.reg .rsp - 8) .rsp + 8 = _
    rw [Function.update_self]
    exact BitVec.sub_add_cancel _ _
  obtain ⟨u, hexit, hresumed⟩ := trampoline_resumes hnext
  rw [hstack] at hresumed
  refine ⟨d, t, r, u, hdeliver, hrun.mono fun _ _ => trivial, ht, hstep, hexit.mono fun _ _ => trivial,
    hresumed, fun hkept => ?_⟩
  rw [hkept, ht.registers] at hresumed
  exact hresumed.eq

/-- The handlers, in an order to place their code by. -/
def allHandlers : List Handler :=
  .irqDispatch :: [Exception.divisionError, .debug, .nmi, .breakpoint, .overflow, .boundRangeExceeded,
    .invalidOpcode, .deviceNotAvailable, .doubleFault, .coprocessorSegmentOverrun, .invalidTss,
    .segmentNotPreset, .stackSegmentFault, .generalProtectionFault, .pageFault, .fpuException,
    .alignmentCheck, .mce, .simdFpuException, .virtualizationException, .controlProtection,
    .hypervisorInjectionException, .vmmCommunicationException, .securityException,
    .reservedException].map .handle

/-- A place for every function. -/
def placeOf : Fn → ℕ
  | .thunk vector => 0x1000 + idtThunkSize * vector
  | .interruptBegin => 0x2000
  | .interruptEnd => 0x2100
  | .trampoline handler => 0x3000 + 16 * allHandlers.idxOf handler

/-- What lies at an address, by these places. -/
def locateAt (a : BitVec 64) : Option (Fn × ℕ) :=
  let n := a.toNat
  if n < 0x1000 then none
  else if n < 0x1800 then
    some (.thunk (Fin.ofNat 256 ((n - 0x1000) / idtThunkSize)), (n - 0x1000) % idtThunkSize)
  else if n < 0x2100 then some (.interruptBegin, n - 0x2000)
  else if n < 0x3000 then some (.interruptEnd, n - 0x2100)
  else (allHandlers[(n - 0x3000) / 16]?).map fun handler => (.trampoline handler, (n - 0x3000) % 16)

theorem thunk_length (vector : Fin numIdtEntries) : (Fn.thunk vector).listing.length ≤ 2 := by
  rw [Fn.listing, Fn.lines, Thunk.lines]
  cases (thunkOf vector).aux with
  | none => exact (by decide : 1 ≤ 2)
  | some aux => exact (by decide : 2 ≤ 2)

theorem locateAt_placeOf (f : Fn) (k : ℕ) (hk : k < f.listing.length) :
    locateAt (BitVec.ofNat 64 (placeOf f + k)) = some (f, k) := by
  have hsmall : ∀ n, n < 2 ^ 64 → (BitVec.ofNat 64 n).toNat = n := fun n hn => by
    rw [BitVec.toNat_ofNat, Nat.mod_eq_of_lt hn]
  unfold locateAt
  cases f with
  | thunk vector =>
    have hlt : vector.val < 256 := vector.isLt
    have hlength := thunk_length vector
    rw [placeOf, hsmall _ (by unfold idtThunkSize; omega)]
    unfold idtThunkSize
    rw [if_neg (by omega), if_pos (by omega),
      show 0x1000 + 8 * vector.val + k - 0x1000 = 8 * vector.val + k by omega,
      show (8 * vector.val + k) / 8 = vector.val by omega,
      show (8 * vector.val + k) % 8 = k by omega]
    congr 3
    exact Fin.ext (Nat.mod_eq_of_lt hlt)
  | interruptBegin =>
    have hk : k < 19 := hk
    rw [placeOf, hsmall _ (by omega), if_neg (by omega), if_neg (by omega), if_pos (by omega),
      Nat.add_sub_cancel_left]
  | interruptEnd =>
    have hk : k < 17 := hk
    rw [placeOf, hsmall _ (by omega), if_neg (by omega), if_neg (by omega), if_neg (by omega),
      if_pos (by omega), Nat.add_sub_cancel_left]
  | trampoline handler =>
    have hk : k < 4 := hk
    have hmem : handler ∈ allHandlers := by
      cases handler with
      | irqDispatch => decide
      | handle exception => cases exception <;> decide
    have hidx : allHandlers.idxOf handler < 26 := List.idxOf_lt_length_iff.mpr hmem
    rw [placeOf, hsmall _ (by omega), if_neg (by omega), if_neg (by omega), if_neg (by omega),
      if_neg (by omega), show 0x3000 + 16 * allHandlers.idxOf handler + k - 0x3000 =
        16 * allHandlers.idxOf handler + k by omega,
      show (16 * allHandlers.idxOf handler + k) / 16 = allHandlers.idxOf handler by omega,
      show (16 * allHandlers.idxOf handler + k) % 16 = k by omega, List.getElem?_idxOf hmem]
    rfl

/-- The code at these places, with handlers that return at once. -/
def sampleSystem : System where
  address f k := BitVec.ofNat 64 (placeOf f + k)
  locate := locateAt
  locate_address := locateAt_placeOf
  idtThunks := 0x1000
  address_thunk vector := (BitVec.ofNat_add 0x1000 (idtThunkSize * vector))
  run _ s := { s.setReg .rsp (s.reg .rsp + 8) with rip := s.stack 0 }

/-- IRQ 5, of code at address 0. -/
theorem interrupt_resumes_sample :
    let c : Cpu := ⟨fun _ => 0, 0, 0, 8, 0, fun _ => 0⟩
    ∃ d t r u, deliver gdt (idtInit sampleSystem.idtThunks zeroIdt) (37 : Fin 256) 0 c = some d ∧
      Along sampleSystem.step (fun _ => True) d t ∧ Entered sampleSystem (37 : Fin 256) 0 c t ∧
      sampleSystem.step t = some r ∧ Along sampleSystem.step (fun _ => True) r u ∧
      Resumed (registersAt r.mem (t.reg .rdi)) r.mem u ∧
      (registersAt r.mem (t.reg .rdi) = registersAt t.mem (t.reg .rdi) → u = { c with mem := r.mem }) :=
  interrupt_resumes sampleSystem (fun _ s => ⟨congrArg s.mem (BitVec.add_zero _), rfl⟩) (37 : Fin 256) 0 _

/-- Which columns of the interrupted code a row finds at an instruction: all but `rsi` while
`interrupt_begin` pushes the other registers.  There it finds what lies in the slot above, so that it is
right only if that happens to be the same value. -/
def RowsFind (sys : System) (vector : Fin numIdtEntries) (c s : Cpu) : Prop :=
  ∀ f k row i, sys.locate s.rip = some (f, k) → f.listing[k]? = some (row, i) →
    ∀ column, row.value s column = c.column column ↔
      (f = .interruptBegin → column = .gp .rsi → 2 ≤ k → k ≤ 17 →
        c.reg .rsi = if k ≤ 3 then sys.address (.trampoline (thunkOf vector).handler) 1
          else c.reg .rdi)

theorem rowsFind_of_rowsShow {sys : System} {vector : Fin numIdtEntries} {c s : Cpu}
    (hs : RowsShow sys (expectedEntering
      (sys.address (.trampoline (thunkOf vector).handler) 1) c.column) s) :
    RowsFind sys vector c s := by
  intro f k row i hlocate hlisting column
  rw [hs f k row i hlocate hlisting column]
  by_cases hmissed : f = .interruptBegin ∧ column = .gp .rsi ∧ 2 ≤ k ∧ k ≤ 17
  · obtain ⟨rfl, rfl, hbegin, hend⟩ := hmissed
    rw [expectedEntering, if_pos ⟨rfl, rfl, hbegin, hend⟩]
    constructor
    · intro h _ _ _ _
      exact h.symm
    · intro h
      exact (h rfl rfl hbegin hend).symm
  · rw [expectedEntering_of_ne hmissed]
    exact ⟨fun _ hf hcolumn hbegin hend => absurd ⟨hf, hcolumn, hbegin, hend⟩ hmissed, fun _ => rfl⟩

/-- **Every row on the way in**, the one at the call of the handler included, finds all columns of the
interrupted code, but for the exception of `RowsFind`. -/
theorem rows_find_iff (sys : System) (vector : Fin numIdtEntries) (errorCode : BitVec 64) (c : Cpu) :
    ∃ d t, deliver gdt (idtInit sys.idtThunks zeroIdt) vector errorCode c = some d ∧
      Entered sys vector errorCode c t ∧ Along sys.step (RowsFind sys vector c) d t ∧
      RowsFind sys vector c t := by
  obtain ⟨d, t, hdeliver, hrun, hshow, ht⟩ := enters_along sys vector errorCode c
  exact ⟨d, t, hdeliver, ht, hrun.mono fun _ => rowsFind_of_rowsShow, rowsFind_of_rowsShow hshow⟩

end UltraKernel.X86.Interrupts
