import UltraKernel.Unwind.Data
import Mathlib.Logic.Function.Basic

/-!
# The unwinder, as `unwind.c` computes it

A frame is unwound by looking up its FDE, parsing the FDE and its CIE, running their instructions
up to the return address, and applying the rules of the registers.  Early returns with an error
keep the state that was reached.
-/

namespace UltraKernel.Unwind

open Word Program

/-! ### The state -/

/-- `struct unwind_state`, with the registers by their DWARF index; `data_alignment_factor` is its
two's complement. -/
structure UnwindState where
  frame : ℕ → ℕ
  codeAlignmentFactor : ℕ
  dataAlignmentFactor : ℕ
  cfaOffset : ℕ
  pc : ℕ
  retRegIdx : ℕ
  cfaRegIdx : ℕ
  isEnd : Bool
  signalFrame : Bool
  fdeEncoding : ℕ
  cieCode : EhData
  fdeCode : EhData

/-- The rules that `dwarf_exec` stores. -/
inductive RuleKind where
  | sameValue
  | offset
  | defCfa
  deriving DecidableEq, Repr

/-- `struct register_rule` -/
structure RegisterRule where
  rule : RuleKind
  offset : ℕ
  deriving DecidableEq, Repr

/-- What a function of the unwinder works on: the state, the rules, and the data that is read. -/
structure Unwinder where
  state : UnwindState
  rules : ℕ → RegisterRule
  data : EhData

/-- A program of the unwinder. -/
abbrev Unwinding (α : Type) := Program UnwindBug Returned Unwinder α

def onData {α : Type} (x : Reader α) : Unwinding α :=
  zoom Unwinder.data (fun data u => { u with data := data }) x

def modifyState (f : UnwindState → UnwindState) : Unwinding Unit :=
  modify fun u => { u with state := f u.state }

/-- Run on other data, whose rest is dropped. -/
def withData {α : Type} (data : EhData) (x : Unwinding α) : Unwinding α :=
  zoom (fun u => { u with data := data }) (fun u' u => { u' with data := u.data }) x

/-- `frame[idx]` -/
def frameAt (m : Machine) (idx : ℕ) : Unwinding ℕ := do
  let u ← get
  if idx < m.arch.numRegisters then return u.state.frame idx else halt .index

/-- `state->ret_reg_idx = idx` -/
def setRetRegIdx (m : Machine) (idx : ℕ) : Unwinding Unit :=
  if idx < m.arch.numRegisters then modifyState fun st => { st with retRegIdx := idx }
  else halt .index

/-- `state->cfa_reg_idx = idx` -/
def setCfaRegIdx (m : Machine) (idx : ℕ) : Unwinding Unit :=
  if idx < m.arch.numRegisters then modifyState fun st => { st with cfaRegIdx := idx }
  else halt .index

/-- `rules[reg] = rule` -/
def setRule (m : Machine) (reg : ℕ) (rule : RegisterRule) : Unwinding Unit :=
  if reg < m.arch.numRegisters then
    modify fun u => { u with rules := Function.update u.rules reg rule }
  else halt .index

/-- `decode_value` into a field of the state, which holds what the value is relative to until the
value is read. -/
def decodeInto (m : Machine) (fuel encoding : ℕ) (field : ℕ → UnwindState → UnwindState) :
    Unwinding Unit := do
  let base ← onData (scalingBase m encoding)
  modifyState (field base)
  let value ← onData (decodeFormat m fuel (encoding % 16) base)
  modifyState (field value)

def unwindGetReturnAddress (m : Machine) : Unwinding ℕ := do
  let u ← get
  if u.state.isEnd then return 0 else frameAt m u.state.retRegIdx

def getReliablePc (m : Machine) : Unwinding ℕ := do
  let pc ← unwindGetReturnAddress m
  let u ← get
  return if u.state.signalFrame then pc else sub64 pc 1

/-! ### CIE and FDE -/

/-- `EXPECTED_AUG_STRING`, with its NUL. -/
def expectedAugString : List ℕ := ['z'.toNat, 'R'.toNat, 0]

/-- The loop over the augmentation string from `augIdx` on. -/
def augLoop (m : Machine) : ℕ → ℕ → Unwinding Unit
  | 0, _ => outOfFuel
  | fuel + 1, augIdx =>
    if augIdx < expectedAugString.length then do
      let augCh ← onData (ehConsume m 1)
      if augCh ≠ expectedAugString.getD augIdx 0 then
        if augCh = 'S'.toNat then do
          modifyState fun st => { st with signalFrame := true }
          augLoop m fuel augIdx
        else unhandled (.augmentation (BitVec.ofNat 64 augIdx) (BitVec.ofNat 8 augCh))
      else augLoop m fuel (augIdx + 1)
    else pure ()

/-- What `parse_cie` reads after the augmentation string. -/
def parseCieFields (m : Machine) (fuel : ℕ) : Unwinding Unit := do
  decodeInto m fuel dwEhPeUleb128 fun value st => { st with codeAlignmentFactor := value }
  decodeInto m fuel dwEhPeSleb128 fun value st => { st with dataAlignmentFactor := value }
  let retReg ← onData (decodeValue m fuel dwEhPeUleb128)
  refuse (m.arch.numRegisters ≤ retReg) einval
  setRetRegIdx m retReg
  let augLength ← onData (decodeValue m fuel dwEhPeUleb128)
  refuse (augLength ≠ 1) einval
  let fdeEncoding ← onData (ehConsume m 1)
  modifyState fun st => { st with fdeEncoding := fdeEncoding }
  modify fun u => { u with state := { u.state with cieCode := u.data } }

def parseCie (m : Machine) (fuel : ℕ) : Unwinding Unit := do
  let id ← onData (ehConsume m 4)
  refuse (id ≠ 0) einval
  let version ← onData (ehConsume m 1)
  refuse (version ≠ 1) einval
  augLoop m fuel 0
  parseCieFields m fuel

/-- The CIE that an FDE starts with an offset to. -/
def findCie (m : Machine) : Unwinding EhData := do
  let cieOffset ← onData (ehConsume m 4)
  refuse (cieOffset = 0) einval
  let u ← get
  return ehDataInit m (sub64 (sub64 u.data.cursor cieOffset) 4)

/-- What `parse_fde` reads after its CIE was parsed. -/
def parseFdeFields (m : Machine) (fuel : ℕ) : Unwinding Unit := do
  let u ← get
  decodeInto m fuel u.state.fdeEncoding fun value st => { st with pc := value }
  let pcSize ← onData (decodeValue m fuel (u.state.fdeEncoding % 16))
  let currentPc ← getReliablePc m
  let u ← get
  refuse (currentPc < u.state.pc ∨ add64 u.state.pc pcSize ≤ currentPc) einval
  let augLength ← onData (ehConsume m 1)
  refuse (augLength ≠ 0) enosys
  modify fun u => { u with state := { u.state with fdeCode := u.data } }

def parseFde (m : Machine) (fuel : ℕ) : Unwinding Unit := do
  let cie ← findCie m
  withData cie (parseCie m fuel)
  parseFdeFields m fuel

/-- `MAX_ERRNO` -/
def maxErrno : ℕ := 4095

def prepareUnwindState (m : Machine) (fuel : ℕ) : Unwinding Unit := do
  let pc ← getReliablePc m
  let pret ← fun u => (findFde m fuel pc).bind fun pret => .done (.ok pret, u)
  if pret.value ≤ maxErrno then
    -- decode_error_ptr, which gives EOK for the null pointer
    if pret.value = eok then pure () else fail pret
  else withData (ehDataInit m pret.value) (parseFde m fuel)

/-! ### Instructions -/

/-- `state->pc += delta * state->code_alignment_factor` -/
def advanceLoc (delta : ℕ) : Unwinding Unit :=
  modifyState fun st => { st with pc := add64 st.pc (mul64 delta st.codeAlignmentFactor) }

/-- A rule for a register, if it is one that the unwinder keeps. -/
def storeRule (m : Machine) (reg : ℕ) (rule : RegisterRule) : Unwinding Unit :=
  if reg < m.arch.numRegisters then setRule m reg rule else pure ()

/-- The second `switch` of `dwarf_exec`. -/
def execOpcode (m : Machine) (fuel opcode : ℕ) : Unwinding Unit :=
  if opcode = 0x00 then pure ()
  else if opcode = 0x04 ∨ opcode = 0x03 ∨ opcode = 0x02 then do
    let bytesNeeded := (if opcode = 0x04 then opcode + 1 else opcode) - 1
    let delta ← onData (consumeChecked m bytesNeeded einval)
    advanceLoc delta
  else if opcode = 0x0C ∨ opcode = 0x0D then do
    let value ← onData (decodeValue m fuel dwEhPeUleb128)
    refuse (m.arch.numRegisters ≤ value) einval
    setCfaRegIdx m value
    if opcode ≠ 0x0C then pure ()
    else decodeInto m fuel dwEhPeUleb128 fun value st => { st with cfaOffset := value }
  else if opcode = 0x0E then
    decodeInto m fuel dwEhPeUleb128 fun value st => { st with cfaOffset := value }
  else unhandled (.opcode (BitVec.ofNat 8 opcode))

/-- One round of the loop of `dwarf_exec`, after its test of the location. -/
def execStep (m : Machine) (fuel : ℕ) : Unwinding Unit := do
  let opcode ← onData (ehConsume m 1)
  if opcode / 64 = 0 then execOpcode m fuel opcode
  else if opcode / 64 = 1 then advanceLoc (opcode % 64)
  else if opcode / 64 = 2 then do
    let value ← onData (decodeValue m fuel dwEhPeUleb128)
    storeRule m (opcode % 64) ⟨.offset, value⟩
  else if opcode / 64 = 3 then storeRule m (opcode % 64) ⟨.sameValue, 0⟩
  else unhandled (.opcode (BitVec.ofNat 8 opcode))

/-- The loop of `dwarf_exec`. -/
def execLoop (m : Machine) (fuel : ℕ) : ℕ → Unwinding Unit
  | 0 => outOfFuel
  | rounds + 1 => do
    let u ← get
    if u.data.bytesLeft = 0 then pure ()
    else do
      let returnAddress ← unwindGetReturnAddress m
      if u.state.pc > returnAddress then pure ()
      else do
        execStep m fuel
        execLoop m fuel rounds

def dwarfExec (m : Machine) (fuel : ℕ) : Unwinding Unit := execLoop m fuel fuel

/-! ### Frames -/

/-- The rules a frame starts with. -/
def initialRules (m : Machine) (reg : ℕ) : RegisterRule :=
  ⟨if reg = m.arch.spReg then .defCfa else .sameValue, m.undefined.ruleOffset reg⟩

/-- `dwarf_exec` on data that is a field of the state. -/
def execCode (m : Machine) (fuel : ℕ) (read : UnwindState → EhData)
    (write : EhData → UnwindState → UnwindState) : Unwinding Unit :=
  zoom (fun u => { u with data := read u.state })
    (fun u' u => { u' with state := write u'.data u'.state, data := u.data }) (dwarfExec m fuel)

/-- What `unwind_next_frame` does before it applies the rules. -/
def findRules (m : Machine) (fuel : ℕ) : Unwinding Unit := do
  prepareUnwindState m fuel
  modify fun u => { u with rules := initialRules m }
  modifyState fun st => { st with signalFrame := false }
  execCode m fuel UnwindState.cieCode fun data st => { st with cieCode := data }
  execCode m fuel UnwindState.fdeCode fun data st => { st with fdeCode := data }

/-- The value of a register in the next frame. -/
def applyRule (m : Machine) (reg : ℕ) : Unwinding ℕ := do
  let u ← get
  match (u.rules reg).rule with
  | .sameValue => return u.state.frame reg
  | .offset => do
    let cfa ← frameAt m u.state.cfaRegIdx
    let offset := add64 (add64 cfa u.state.cfaOffset)
      (mul64 (u.rules reg).offset u.state.dataAlignmentFactor)
    return readBytes m.mem offset 8
  | .defCfa => do
    let cfa ← frameAt m u.state.cfaRegIdx
    return add64 cfa u.state.cfaOffset

/-- The loop of `apply_reg_rules` over the registers that are left, from `reg` on. -/
def applyLoop (m : Machine) : ℕ → ℕ → (ℕ → ℕ) → Unwinding (ℕ → ℕ)
  | 0, _, newFrame => return newFrame
  | left + 1, reg, newFrame => do
    let value ← applyRule m reg
    applyLoop m left (reg + 1) (Function.update newFrame reg value)

def applyRegRules (m : Machine) : Unwinding (ℕ → ℕ) := do
  let newFrame ← applyLoop m m.arch.numRegisters 0 fun _ => 0
  modifyState fun st => { st with cfaRegIdx := m.arch.spReg, cfaOffset := 0 }
  return newFrame

/-- `unwind_next_frame` up to its labels. -/
def nextFrame (m : Machine) (fuel : ℕ) : Unwinding Unit := do
  findRules m fuel
  let newFrame ← applyRegRules m
  modifyState fun st => { st with frame := newFrame }
  let returnAddress ← unwindGetReturnAddress m
  modifyState fun st => { st with isEnd := returnAddress = 0 }

/-- The state, before there are rules or data. -/
def Unwinder.start (m : Machine) (st : UnwindState) : Unwinder := ⟨st, initialRules m, ⟨0, 0⟩⟩

def unwindNextFrame (m : Machine) (fuel : ℕ) (st : UnwindState) :
    Outcome UnwindBug (Returned × UnwindState) :=
  if st.isEnd then .done (einval, st)
  else do
    let (ret, u) ← nextFrame m fuel (Unwinder.start m st)
    match ret with
    | .ok () => return (eok, u.state)
    | .error ret => return (ret, { u.state with isEnd := true })

/-! ### Walks -/

/-- `unwind_get_return_address` of a state. -/
def returnAddressOf (m : Machine) (st : UnwindState) : Outcome UnwindBug ℕ :=
  if st.isEnd then .done 0
  else if st.retRegIdx < m.arch.numRegisters then .done (st.frame st.retRegIdx) else .halt .index

theorem unwindGetReturnAddress_eq_ok {m : Machine} {u u' : Unwinder} {ra : ℕ} :
    unwindGetReturnAddress m u = .done (.ok ra, u') ↔
      u' = u ∧ returnAddressOf m u.state = .done ra := by
  rw [unwindGetReturnAddress, bind_of_ok (get_run u), returnAddressOf]
  by_cases hend : u.state.isEnd = true
  · rw [if_pos hend, if_pos hend, pure_run]
    simp [eq_comm, and_comm]
  · rw [if_neg hend, if_neg hend, frameAt, bind_of_ok (get_run u)]
    by_cases hreg : u.state.retRegIdx < m.arch.numRegisters
    · rw [if_pos hreg, if_pos hreg, pure_run]
      simp [eq_comm, and_comm]
    · rw [if_neg hreg, if_neg hreg]
      simp [halt]

/-- The PC that a return address is looked up by. -/
theorem getReliablePc_eq_ok {m : Machine} {u u' : Unwinder} {pc : ℕ} :
    getReliablePc m u = .done (.ok pc, u') ↔
      u' = u ∧ ∃ ra, returnAddressOf m u.state = .done ra ∧
        pc = if u.state.signalFrame then ra else sub64 ra 1 := by
  rw [getReliablePc, bind_eq_ok]
  constructor
  · rintro ⟨ra, t, hra, hpc⟩
    obtain ⟨rfl, hra⟩ := unwindGetReturnAddress_eq_ok.mp hra
    rw [bind_of_ok (get_run _), pure_run] at hpc
    obtain ⟨hvalue, rfl⟩ := Prod.mk.inj (Outcome.done.inj hpc)
    exact ⟨rfl, ra, hra, (Except.ok.inj hvalue).symm⟩
  · rintro ⟨rfl, ra, hra, rfl⟩
    exact ⟨ra, _, unwindGetReturnAddress_eq_ok.mpr ⟨rfl, hra⟩, rfl⟩

/-- The loop of `unwind_current_begin`. -/
def unwindCurrentBegin (m : Machine) (fuel startingPc : ℕ) :
    ℕ → UnwindState → Outcome UnwindBug (Returned × UnwindState)
  | 0, _ => .outOfFuel
  | rounds + 1, st => do
    let (ret, st) ← unwindNextFrame m fuel st
    let returnAddress ← returnAddressOf m st
    if ¬ st.isEnd ∧ returnAddress ≠ startingPc then unwindCurrentBegin m fuel startingPc rounds st
    else return (ret, st)

/-- The state after `memzero`, for the given registers. -/
def initialState (m : Machine) (frame : ℕ → ℕ) (signalFrame : Bool) : UnwindState where
  frame := frame
  codeAlignmentFactor := 0
  dataAlignmentFactor := 0
  cfaOffset := 0
  pc := 0
  retRegIdx := m.arch.pcReg
  cfaRegIdx := 0
  isEnd := false
  signalFrame := signalFrame
  fdeEncoding := 0
  cieCode := ⟨0, 0⟩
  fdeCode := ⟨0, 0⟩

/-- `ENODEV` -/
def enodev : ErrorT := 44

/-- `currentFrame` are the registers that `arch_unwind_current_begin` finds. -/
def unwindBegin (m : Machine) (fuel : ℕ) (currentFrame : ℕ → ℕ) (regs : Option (ℕ → ℕ))
    (startingPc : ℕ) : Outcome UnwindBug (Except Returned (Returned × UnwindState)) :=
  if ¬ m.unwinderAvailable then .done (.error enodev)
  else
    match regs with
    | none => do
      let begun ← unwindCurrentBegin m fuel startingPc fuel (initialState m currentFrame false)
      return .ok begun
    | some frame => return .ok (eok, initialState m frame true)

/-- The loop of `unwind_walk`: the code it returns and the calls of `callback`, each a return
address and `address_after_call`.  `callback` may depend on all the calls so far. -/
def walkLoop (m : Machine) (fuel : ℕ) (callback : List (ℕ × Bool) → Bool) :
    ℕ → Returned → UnwindState → List (ℕ × Bool) → Outcome UnwindBug (Returned × List (ℕ × Bool))
  | 0, _, _, _ => .outOfFuel
  | rounds + 1, ret, st, calls => do
    let retAddr ← returnAddressOf m st
    let calls := calls ++ [(retAddr, !st.signalFrame)]
    if ¬ callback calls then return (ret, calls)
    else
      let (ret, st) ← unwindNextFrame m fuel st
      if ¬ st.isEnd then walkLoop m fuel callback rounds ret st calls else return (ret, calls)

def unwindWalk (m : Machine) (fuel : ℕ) (currentFrame : ℕ → ℕ) (regs : Option (ℕ → ℕ))
    (startingPc : ℕ) (callback : List (ℕ × Bool) → Bool) :
    Outcome UnwindBug (Returned × List (ℕ × Bool)) := do
  match ← unwindBegin m fuel currentFrame regs startingPc with
  | .error ret => return (ret, [])
  | .ok (ret, st) =>
    if ret.value ≠ eok then return (ret, []) else walkLoop m fuel callback fuel ret st []

end UltraKernel.Unwind
