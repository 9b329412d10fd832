import UltraKernel.Lib.RowTable
import UltraKernel.Unwind.Bounds

/-!
# The rows of call frame information

The instructions of a CIE and of an FDE stand for a table of rows, each of which says from a
location on how the CFA and the registers are found.  The unwinder runs them without building the
table, and stops once the location is past the return address.

* `readInstr`, `Stream`: the instructions in the bytes;
* `execStep_reads`, `execLoop_stream`: what `dwarf_exec` does with them;
* `findRules_table`: the row that is applied covers the return address;
* `applied_row_iff`: when it is the row that covers the PC the FDE was looked up by.
-/

namespace UltraKernel.Unwind

open Word Program RowTable

/-! ### Instructions -/

/-- The CFA definition and the register rules. -/
structure CfaRow where
  cfaReg : ℕ
  cfaOffset : ℕ
  rules : ℕ → RegisterRule

/-- An instruction that `dwarf_exec` handles, other than `DW_CFA_restore`. -/
inductive Instr where
  | nop
  | advance (delta : ℕ)
  | offset (reg value : ℕ)
  | defCfa (reg value : ℕ)
  | defCfaRegister (reg : ℕ)
  | defCfaOffset (value : ℕ)
  deriving DecidableEq, Repr

/-- What an instruction does to a table. -/
def Instr.entry (m : Machine) (codeAlignmentFactor : ℕ) : Instr → Entry CfaRow
  | nop => .edit id
  | advance delta => .advance (delta * codeAlignmentFactor)
  | offset reg value => .edit fun row =>
    -- the rules of other registers are not kept
    if reg < m.arch.numRegisters then
      { row with rules := Function.update row.rules reg ⟨.offset, value⟩ }
    else row
  | defCfa reg value => .edit fun row => { row with cfaReg := reg, cfaOffset := value }
  | defCfaRegister reg => .edit fun row => { row with cfaReg := reg }
  | defCfaOffset value => .edit fun row => { row with cfaOffset := value }

/-- The register of a CFA definition exists. -/
def Instr.Valid (m : Machine) : Instr → Prop
  | defCfa reg _ | defCfaRegister reg => reg < m.arch.numRegisters
  | _ => True

/-- The instruction that the data starts with. -/
def readInstr (m : Machine) (fuel : ℕ) : Reader Instr := do
  let opcode ← ehConsume m 1
  if opcode / 64 = 1 then return .advance (opcode % 64)
  else if opcode / 64 = 2 then do
    let value ← decodeValue m fuel dwEhPeUleb128
    return .offset (opcode % 64) value
  else if opcode = 0x00 then return .nop
  else if opcode = 0x02 ∨ opcode = 0x03 ∨ opcode = 0x04 then do
    -- 1, 2 or 4 bytes
    let delta ← consumeChecked m (2 ^ (opcode - 2)) einval
    return .advance delta
  else if opcode = 0x0C then do
    let reg ← decodeValue m fuel dwEhPeUleb128
    let value ← decodeValue m fuel dwEhPeUleb128
    return .defCfa reg value
  else if opcode = 0x0D then do
    let reg ← decodeValue m fuel dwEhPeUleb128
    return .defCfaRegister reg
  else if opcode = 0x0E then do
    let value ← decodeValue m fuel dwEhPeUleb128
    return .defCfaOffset value
  else unhandled (.opcode (BitVec.ofNat 8 opcode))

/-- The data is these instructions. -/
inductive Stream (m : Machine) (fuel : ℕ) : EhData → List Instr → Prop
  | nil {data} (h : data.bytesLeft = 0) : Stream m fuel data []
  | cons {data rest i is} (h : readInstr m fuel data = .done (.ok i, rest))
      (hrest : Stream m fuel rest is) : Stream m fuel data (i :: is)

/-! ### One instruction -/

/-- The state in which the instructions have led to a location and a row. -/
def Unwinder.place (u : Unwinder) (data : EhData) (location : ℕ) (row : CfaRow) : Unwinder :=
  ⟨{ u.state with pc := location, cfaRegIdx := row.cfaReg, cfaOffset := row.cfaOffset }, row.rules,
    data⟩

section Steps

variable {m : Machine} {fuel : ℕ} {u : Unwinder} {data rest : EhData} {location : ℕ} {row : CfaRow}
  {i : Instr} {is : List Instr}

theorem onData_of_ok {α : Type} {x : Reader α} {value : α} (h : x data = .done (.ok value, rest)) :
    onData x (u.place data location row) = .done (.ok value, u.place rest location row) :=
  zoom_of_ok h

theorem setCfaOffset_place (value : ℕ) :
    modifyState (fun st => { st with cfaOffset := value }) (u.place data location row) =
      .done (.ok (), u.place data location { row with cfaOffset := value }) := rfl

theorem decodeCfaOffset_of_ok {value : ℕ}
    (h : decodeValue m fuel dwEhPeUleb128 data = .done (.ok value, rest)) :
    decodeInto m fuel dwEhPeUleb128 (fun value st => { st with cfaOffset := value })
        (u.place data location row) =
      .done (.ok (), u.place rest location { row with cfaOffset := value }) := by
  obtain ⟨base, _, hbase, hvalue⟩ := bind_eq_ok.mp h
  rw [decodeInto, bind_of_ok (onData_of_ok hbase), bind_of_ok (setCfaOffset_place base),
    bind_of_ok (onData_of_ok hvalue), setCfaOffset_place]

theorem advanceLoc_place {delta : ℕ}
    (hwrap : location + delta * u.state.codeAlignmentFactor < 2 ^ 64) :
    advanceLoc delta (u.place data location row) =
      .done (.ok (), u.place data (location + delta * u.state.codeAlignmentFactor) row) := by
  have hmul : mul64 delta u.state.codeAlignmentFactor = delta * u.state.codeAlignmentFactor :=
    mul64_of_lt (by omega)
  have hadd : add64 location (mul64 delta u.state.codeAlignmentFactor) =
      location + delta * u.state.codeAlignmentFactor := by
    rw [hmul, add64_of_lt hwrap]
  rw [← hadd]
  rfl

theorem storeRule_place (reg : ℕ) (rule : RegisterRule) :
    storeRule m reg rule (u.place data location row) = .done (.ok (), u.place data location
      (if reg < m.arch.numRegisters then { row with rules := Function.update row.rules reg rule }
      else row)) := by
  unfold storeRule setRule
  split_ifs
  · rfl
  · rfl

theorem setCfaRegIdx_place {reg : ℕ} (hreg : reg < m.arch.numRegisters) :
    setCfaRegIdx m reg (u.place data location row) =
      .done (.ok (), u.place data location { row with cfaReg := reg }) := by
  rw [setCfaRegIdx, if_pos hreg]
  rfl

/-- The register of a CFA definition is refused if it does not exist. -/
theorem cfaRegister_of_ok {reg : ℕ} (u : Unwinder) (location : ℕ) (row : CfaRow) (x : Unwinding Unit)
    (h : decodeValue m fuel dwEhPeUleb128 data = .done (.ok reg, rest)) :
    (reg < m.arch.numRegisters →
      (do
        let value ← onData (decodeValue m fuel dwEhPeUleb128)
        refuse (m.arch.numRegisters ≤ value) einval
        setCfaRegIdx m value
        x) (u.place data location row) = x (u.place rest location { row with cfaReg := reg })) ∧
    (¬ reg < m.arch.numRegisters →
      (do
        let value ← onData (decodeValue m fuel dwEhPeUleb128)
        refuse (m.arch.numRegisters ≤ value) einval
        setCfaRegIdx m value
        x) (u.place data location row) = .done (.error einval, u.place rest location row)) := by
  rw [bind_of_ok (onData_of_ok h)]
  constructor
  · intro hreg
    rw [bind_of_ok (refuse_of_not (not_le.mpr hreg) _ _), bind_of_ok (setCfaRegIdx_place hreg)]
  · intro hreg
    rw [bind_of_error (refuse_of (not_lt.mp hreg) _ _)]

theorem execOpcode_delta {opcode : ℕ} (h : opcode = 0x02 ∨ opcode = 0x03 ∨ opcode = 0x04) :
    execOpcode m fuel opcode =
      onData (consumeChecked m (2 ^ (opcode - 2)) einval) >>= fun delta => advanceLoc delta := by
  rcases h with rfl | rfl | rfl
  · rfl
  · rfl
  · rfl

/-- **One instruction** does what it does to a table, or fails at a register that does not exist. -/
theorem execStep_reads (h : readInstr m fuel data = .done (.ok i, rest))
    (hwrap : ((i.entry m u.state.codeAlignmentFactor).apply location row).1 < 2 ^ 64) :
    (i.Valid m → execStep m fuel (u.place data location row) =
      .done (.ok (), u.place rest
        ((i.entry m u.state.codeAlignmentFactor).apply location row).1
        ((i.entry m u.state.codeAlignmentFactor).apply location row).2)) ∧
    (¬ i.Valid m → ∃ e u', execStep m fuel (u.place data location row) = .done (.error e, u')) := by
  obtain ⟨opcode, operands, hopcode, h⟩ := bind_eq_ok.mp h
  rw [execStep, bind_of_ok (onData_of_ok hopcode)]
  by_cases hadvance : opcode / 64 = 1
  · rw [if_pos hadvance, pure_run] at h
    obtain ⟨rfl, rfl⟩ : Instr.advance (opcode % 64) = i ∧ operands = rest := by simpa using h
    rw [if_neg (by omega), if_pos hadvance]
    exact ⟨fun _ => advanceLoc_place hwrap, fun hnot => absurd trivial hnot⟩
  rw [if_neg hadvance] at h
  by_cases hoffset : opcode / 64 = 2
  · rw [if_pos hoffset] at h
    obtain ⟨value, hvalue, rfl⟩ := bind_pure_eq_ok.mp h
    rw [if_neg (by omega), if_neg hadvance, if_pos hoffset, bind_of_ok (onData_of_ok hvalue)]
    exact ⟨fun _ => storeRule_place _ _, fun hnot => absurd trivial hnot⟩
  rw [if_neg hoffset] at h
  by_cases hnop : opcode = 0x00
  · subst hnop
    obtain ⟨rfl, rfl⟩ : Instr.nop = i ∧ operands = rest := by simpa using h
    exact ⟨fun _ => rfl, fun hnot => absurd trivial hnot⟩
  rw [if_neg hnop] at h
  by_cases hdelta : opcode = 0x02 ∨ opcode = 0x03 ∨ opcode = 0x04
  · rw [if_pos hdelta] at h
    obtain ⟨delta, hread, rfl⟩ := bind_pure_eq_ok.mp h
    rw [if_pos (by omega), execOpcode_delta hdelta, bind_of_ok (onData_of_ok hread)]
    exact ⟨fun _ => advanceLoc_place hwrap, fun hnot => absurd trivial hnot⟩
  rw [if_neg hdelta] at h
  by_cases hdefCfa : opcode = 0x0C
  · subst hdefCfa
    obtain ⟨reg, between, hreg, h⟩ := bind_eq_ok.mp h
    obtain ⟨value, hvalue, rfl⟩ := bind_pure_eq_ok.mp h
    obtain ⟨hok, herror⟩ := cfaRegister_of_ok u location row
      (decodeInto m fuel dwEhPeUleb128 fun value st => { st with cfaOffset := value }) hreg
    exact ⟨fun hvalid => (hok hvalid).trans (decodeCfaOffset_of_ok hvalue),
      fun hnot => ⟨_, _, herror hnot⟩⟩
  rw [if_neg hdefCfa] at h
  by_cases hdefCfaRegister : opcode = 0x0D
  · subst hdefCfaRegister
    obtain ⟨reg, hreg, rfl⟩ := bind_pure_eq_ok.mp h
    obtain ⟨hok, herror⟩ := cfaRegister_of_ok u location row (pure ()) hreg
    exact ⟨fun hvalid => hok hvalid, fun hnot => ⟨_, _, herror hnot⟩⟩
  rw [if_neg hdefCfaRegister] at h
  by_cases hdefCfaOffset : opcode = 0x0E
  · subst hdefCfaOffset
    obtain ⟨value, hvalue, rfl⟩ := bind_pure_eq_ok.mp h
    exact ⟨fun _ => decodeCfaOffset_of_ok hvalue, fun hnot => absurd trivial hnot⟩
  · rw [if_neg hdefCfaOffset, unhandled_run] at h
    cases h

/-! ### The loop -/

/-- The entries of the instructions. -/
def entries (m : Machine) (codeAlignmentFactor : ℕ) (is : List Instr) : List (Entry CfaRow) :=
  is.map (Instr.entry m codeAlignmentFactor)

theorem bytesLeft_of_reads (h : readInstr m fuel data = .done (.ok i, rest)) :
    data.bytesLeft ≠ 0 := by
  intro hempty
  obtain ⟨opcode, _, hopcode, _⟩ := bind_eq_ok.mp h
  rw [ehConsume, consumeChecked, bind_of_ok (get_run _),
    bind_of_error (refuse_of (by omega) _ _)] at hopcode
  cases hopcode

theorem execLoop_empty (hempty : data.bytesLeft = 0) (rounds : ℕ) :
    execLoop m fuel (rounds + 1) (u.place data location row) =
      .done (.ok (), u.place data location row) := by
  rw [execLoop, bind_of_ok (get_run _)]
  exact congrFun (if_pos hempty) _

theorem execLoop_past {ra : ℕ} (hleft : data.bytesLeft ≠ 0)
    (hra : returnAddressOf m u.state = .done ra) (hpast : ra < location) (rounds : ℕ) :
    execLoop m fuel (rounds + 1) (u.place data location row) =
      .done (.ok (), u.place data location row) := by
  have hra' : unwindGetReturnAddress m (u.place data location row) = .done (.ok ra, _) :=
    unwindGetReturnAddress_eq_ok.mpr ⟨rfl, hra⟩
  rw [execLoop, bind_of_ok (get_run _)]
  refine (congrFun (if_neg hleft) _).trans ?_
  rw [bind_of_ok hra']
  exact congrFun (if_pos hpast) _

theorem execLoop_round {ra : ℕ} (hleft : data.bytesLeft ≠ 0)
    (hra : returnAddressOf m u.state = .done ra) (hpast : location ≤ ra) (rounds : ℕ) :
    execLoop m fuel (rounds + 1) (u.place data location row) =
      (execStep m fuel >>= fun _ => execLoop m fuel rounds) (u.place data location row) := by
  have hra' : unwindGetReturnAddress m (u.place data location row) = .done (.ok ra, _) :=
    unwindGetReturnAddress_eq_ok.mpr ⟨rfl, hra⟩
  rw [execLoop, bind_of_ok (get_run _)]
  refine (congrFun (if_neg hleft) _).trans ?_
  rw [bind_of_ok hra']
  exact congrFun (if_neg (not_lt.mpr hpast)) _

/-- **The loop of `dwarf_exec`** leads to where the entries lead to, stopping once the location is
past the return address. -/
theorem execLoop_stream (hs : Stream m fuel data is) {rounds ra : ℕ} (hrounds : is.length < rounds)
    (hra : returnAddressOf m u.state = .done ra)
    (hwrap : location + extent (entries m u.state.codeAlignmentFactor is) < 2 ^ 64) :
    ∃ ret u', execLoop m fuel rounds (u.place data location row) = .done (ret, u') ∧
      ((∀ i ∈ is, i.Valid m) → ret = .ok ()) ∧
      (ret = .ok () → ∃ rest, u' = u.place rest
        (runUntil ra location row (entries m u.state.codeAlignmentFactor is)).1
        (runUntil ra location row (entries m u.state.codeAlignmentFactor is)).2) := by
  induction hs generalizing rounds location row with
  | @nil data hempty =>
    obtain ⟨rounds, rfl⟩ : ∃ n, rounds = n + 1 := ⟨rounds - 1, by omega⟩
    exact ⟨.ok (), _, execLoop_empty hempty rounds, fun _ => rfl, fun _ => ⟨data, rfl⟩⟩
  | @cons data rest i is hread hrest ih =>
    obtain ⟨rounds, rfl⟩ : ∃ n, rounds = n + 1 := ⟨rounds - 1, by omega⟩
    have hleft := bytesLeft_of_reads hread
    rcases Nat.lt_or_ge ra location with hpast | hpast
    · refine ⟨.ok (), _, execLoop_past hleft hra hpast rounds, fun _ => rfl, fun _ => ⟨data, ?_⟩⟩
      rw [runUntil_of_lt hpast]
    · rw [entries, List.map_cons, ← apply_extent location row] at hwrap
      rw [execLoop_round hleft hra hpast]
      obtain ⟨hvalid, hinvalid⟩ := execStep_reads hread ((Nat.le_add_right _ _).trans_lt hwrap)
      by_cases hi : i.Valid m
      · rw [bind_of_ok (hvalid hi), entries, List.map_cons, runUntil_of_le hpast]
        obtain ⟨ret, u', hrun, hok, hplace⟩ := ih (Nat.lt_of_succ_lt_succ hrounds) hwrap
        exact ⟨ret, u', hrun, fun his => hok fun j hj => his j (List.mem_cons_of_mem _ hj), hplace⟩
      · obtain ⟨e, u', hrun⟩ := hinvalid hi
        refine ⟨.error e, u', bind_of_error hrun, fun his => ?_, fun hok => by cases hok⟩
        exact absurd (his i List.mem_cons_self) hi

/-- `dwarf_exec` on data that is a field of the state. -/
theorem execCode_stream (u : Unwinder) (data : EhData) (location : ℕ) (row : CfaRow)
    (read : UnwindState → EhData) (write : EhData → UnwindState → UnwindState)
    (hs : Stream m fuel (read (u.place data location row).state) is) (hlength : is.length < fuel)
    {ra : ℕ} (hra : returnAddressOf m u.state = .done ra)
    (hwrap : location + extent (entries m u.state.codeAlignmentFactor is) < 2 ^ 64) :
    ∃ ret u', execCode m fuel read write (u.place data location row) = .done (ret, u') ∧
      ((∀ i ∈ is, i.Valid m) → ret = .ok ()) ∧
      (ret = .ok () → ∃ rest next, next = u.place data
          (runUntil ra location row (entries m u.state.codeAlignmentFactor is)).1
          (runUntil ra location row (entries m u.state.codeAlignmentFactor is)).2 ∧
        u' = { next with state := write rest next.state }) := by
  obtain ⟨ret, u', hrun, hok, hplace⟩ := execLoop_stream (u := u) hs hlength hra hwrap
  refine ⟨ret, { u' with state := write u'.data u'.state, data := data }, ?_, hok, fun hret => ?_⟩
  · exact congrArg (fun x => x >>= fun p => Outcome.done (p.1,
      { p.2 with state := write p.2.data p.2.state, data := data })) hrun
  · obtain ⟨rest, rfl⟩ := hplace hret
    exact ⟨rest, _, rfl, rfl⟩

end Steps

/-! ### The table of a frame -/

/-- The row that is applied. -/
def rowOf (u : Unwinder) : CfaRow := ⟨u.state.cfaRegIdx, u.state.cfaOffset, u.rules⟩

/-- The table of the instructions of a CIE and an FDE, from the location that the FDE begins with and
the rules that a frame starts with. -/
def table (m : Machine) (st : UnwindState) (is : List Instr) : List (Row CfaRow) :=
  rows st.pc ⟨st.cfaRegIdx, st.cfaOffset, initialRules m⟩ (entries m st.codeAlignmentFactor is)

section Frame

variable {m : Machine} {fuel : ℕ} {st : UnwindState} {p : Unwinder} {cie fde : List Instr} {ra : ℕ}

/-- **The row that is applied** covers the return address. -/
theorem findRules_table
    (hprepare : prepareUnwindState m fuel (Unwinder.start m st) = .done (.ok (), p))
    (hcie : Stream m fuel p.state.cieCode cie) (hfde : Stream m fuel p.state.fdeCode fde)
    (hcieLength : cie.length < fuel) (hfdeLength : fde.length < fuel)
    (hra : returnAddressOf m p.state = .done ra) (hbegin : p.state.pc ≤ ra)
    (hwrap : p.state.pc + extent (entries m p.state.codeAlignmentFactor (cie ++ fde)) < 2 ^ 64) :
    ∃ ret u, findRules m fuel (Unwinder.start m st) = .done (ret, u) ∧
      ((∀ i ∈ cie ++ fde, i.Valid m) → ret = .ok ()) ∧
      (ret = .ok () →
        (covering (table m p.state (cie ++ fde)) ra).map Row.value = some (rowOf u)) := by
  let row : CfaRow := ⟨p.state.cfaRegIdx, p.state.cfaOffset, initialRules m⟩
  let q : Unwinder := { p with state := { p.state with signalFrame := false } }
  let first := runUntil ra p.state.pc row (entries m p.state.codeAlignmentFactor cie)
  have hsplit : findRules m fuel (Unwinder.start m st) = (do
      execCode m fuel UnwindState.cieCode fun data st => { st with cieCode := data }
      execCode m fuel UnwindState.fdeCode fun data st => { st with fdeCode := data } :
        Unwinding Unit) (q.place p.data p.state.pc row) := by
    rw [findRules, bind_of_ok hprepare]
    rfl
  have hfirst : first.1 ≤ p.state.pc + extent (entries m p.state.codeAlignmentFactor cie) :=
    runUntil_le_extent ..
  rw [entries, List.map_append, ← entries, ← entries, extent_append] at hwrap
  obtain ⟨ret, u₁, hrun₁, hok₁, hplace₁⟩ := execCode_stream q p.data p.state.pc row
    UnwindState.cieCode (fun data st => { st with cieCode := data }) hcie hcieLength hra
    (show _ + extent (entries m p.state.codeAlignmentFactor cie) < _ by omega)
  rw [hsplit]
  cases ret with
  | error e =>
    refine ⟨.error e, u₁, bind_of_error hrun₁, fun hvalid => ?_, fun hok => by cases hok⟩
    exact hok₁ fun i hi => hvalid i (List.mem_append_left _ hi)
  | ok value =>
    obtain ⟨rest, next, rfl, rfl⟩ := hplace₁ rfl
    rw [bind_of_ok hrun₁]
    obtain ⟨ret, u₂, hrun₂, hok₂, hplace₂⟩ := execCode_stream
      { q with state := { q.state with cieCode := rest } } p.data first.1 first.2
      UnwindState.fdeCode (fun data st => { st with fdeCode := data }) hfde hfdeLength hra
      (show _ + extent (entries m p.state.codeAlignmentFactor fde) < _ by omega)
    refine ⟨ret, u₂, hrun₂, fun hvalid => ?_, fun hok => ?_⟩
    · exact hok₂ fun i hi => hvalid i (List.mem_append_right _ hi)
    · obtain ⟨rest', next, rfl, rfl⟩ := hplace₂ hok
      rw [table, entries, List.map_append, covering_rows hbegin, runUntil_append]
      rfl

/-- An FDE that was parsed contains the return address. -/
theorem parseFde_begin {u u' : Unwinder} (hparse : parseFde m fuel u = .done (.ok (), u'))
    (hra : returnAddressOf m u'.state = .done ra) : u'.state.pc ≤ ra := by
  obtain ⟨_, _, _, hrest₁⟩ := bind_eq_ok.mp hparse
  obtain ⟨_, _, _, hrest₂⟩ := bind_eq_ok.mp hrest₁
  rw [parseFdeFields, bind_of_ok (get_run _)] at hrest₂
  obtain ⟨_, _, _, hrest₃⟩ := bind_eq_ok.mp hrest₂
  obtain ⟨pcSize, _, _, hrest₄⟩ := bind_eq_ok.mp hrest₃
  obtain ⟨currentPc, _, hcurrentPc, hrest₅⟩ := bind_eq_ok.mp hrest₄
  rw [bind_of_ok (get_run _)] at hrest₅
  obtain ⟨_, v, hinside, hrest₆⟩ := bind_eq_ok.mp hrest₅
  obtain ⟨hinside, rfl⟩ := refuse_eq_ok.mp hinside
  obtain ⟨_, _, haugLength, hrest₇⟩ := bind_eq_ok.mp hrest₆
  obtain ⟨data, _, rfl⟩ := zoom_eq_ok.mp haugLength
  obtain ⟨_, _, hrefuse, hmodify⟩ := bind_eq_ok.mp hrest₇
  obtain ⟨_, rfl⟩ := refuse_eq_ok.mp hrefuse
  obtain ⟨_, rfl⟩ := Prod.mk.inj (Outcome.done.inj hmodify)
  obtain ⟨rfl, ra', hra', rfl⟩ := getReliablePc_eq_ok.mp hcurrentPc
  change returnAddressOf m v.state = .done ra at hra
  obtain rfl := Outcome.done.inj (hra'.symm.trans hra)
  change v.state.pc ≤ ra'
  have hend := add64_lt v.state.pc pcSize
  rw [not_or, not_lt, not_le] at hinside
  obtain ⟨hbegin, hsize⟩ := hinside
  split_ifs at hbegin hsize
  · exact hbegin
  · -- the return address 0 would wrap to the last address, which no FDE contains
    unfold sub64 at hbegin hsize
    omega

/-! ### What is applied -/

theorem returnAddressOf_of_indexed (hst : Indexed m st) :
    returnAddressOf m st = .done (if st.isEnd then 0 else st.frame st.retRegIdx) := by
  unfold returnAddressOf
  split_ifs
  · rfl
  · rfl
  · exact absurd hst.retReg ‹_›

/-- The value of a register in the next frame, by a row. -/
def CfaRow.register (m : Machine) (st : UnwindState) (row : CfaRow) (reg : ℕ) : ℕ :=
  let cfa := add64 (st.frame row.cfaReg) row.cfaOffset
  match (row.rules reg).rule with
  | .sameValue => st.frame reg
  | .offset => readBytes m.mem (add64 cfa (mul64 (row.rules reg).offset st.dataAlignmentFactor)) 8
  | .defCfa => cfa

theorem frameAt_run {u : Unwinder} {idx : ℕ} (hidx : idx < m.arch.numRegisters) :
    frameAt m idx u = .done (.ok (u.state.frame idx), u) := by
  rw [frameAt, bind_of_ok (get_run u), if_pos hidx, pure_run]

theorem applyRule_run {u : Unwinder} (hcfa : u.state.cfaRegIdx < m.arch.numRegisters) (reg : ℕ) :
    applyRule m reg u = .done (.ok ((rowOf u).register m u.state reg), u) := by
  rw [applyRule, bind_of_ok (get_run u), CfaRow.register, rowOf]
  cases (u.rules reg).rule with
  | sameValue => rfl
  | offset => exact bind_of_ok (frameAt_run hcfa)
  | defCfa => exact bind_of_ok (frameAt_run hcfa)

theorem applyLoop_run {u : Unwinder} (hcfa : u.state.cfaRegIdx < m.arch.numRegisters)
    (left reg : ℕ) (newFrame : ℕ → ℕ) :
    ∃ frame, applyLoop m left reg newFrame u = .done (.ok frame, u) ∧
      (∀ i < reg, frame i = newFrame i) ∧
      ∀ i, reg ≤ i → i < reg + left → frame i = (rowOf u).register m u.state i := by
  induction left generalizing reg newFrame with
  | zero => exact ⟨newFrame, rfl, fun _ _ => rfl, fun i hi hlt => absurd hi (not_le.mpr hlt)⟩
  | succ left ih =>
    obtain ⟨frame, hrun, hbelow, habove⟩ := ih (reg + 1)
      (Function.update newFrame reg ((rowOf u).register m u.state reg))
    rw [applyLoop, bind_of_ok (applyRule_run hcfa reg)]
    refine ⟨frame, hrun, fun i hi => ?_, fun i hi hlt => ?_⟩
    · rw [hbelow i (by omega), Function.update_of_ne (by omega)]
    · rcases Nat.eq_or_lt_of_le hi with rfl | hi
      · rw [hbelow reg (by omega), Function.update_self]
      · exact habove i hi (by omega)

/-- **The next frame** is computed from the row that was found. -/
theorem unwindNextFrame_applies {u : Unwinder} (hend : st.isEnd = false)
    (hrules : findRules m fuel (Unwinder.start m st) = .done (.ok (), u))
    (hu : Indexed m u.state) :
    ∃ next, unwindNextFrame m fuel st = .done (eok, next) ∧
      ∀ reg < m.arch.numRegisters, next.frame reg = (rowOf u).register m u.state reg := by
  obtain ⟨frame, hloop, _, hframe⟩ := applyLoop_run hu.cfaReg m.arch.numRegisters 0 fun _ => 0
  have happly : applyRegRules m u = .done (.ok frame, { u with
      state := { u.state with cfaRegIdx := m.arch.spReg, cfaOffset := 0 } }) := by
    rw [applyRegRules, bind_of_ok hloop]
    rfl
  let applied : UnwindState :=
    { u.state with frame := frame, cfaRegIdx := m.arch.spReg, cfaOffset := 0 }
  have hra : returnAddressOf m applied = .done _ :=
    returnAddressOf_of_indexed ⟨hu.retReg, m.arch.spReg_lt⟩
  let next : UnwindState := { applied with
    isEnd := (if applied.isEnd then 0 else applied.frame applied.retRegIdx) = 0 }
  have hnext : nextFrame m fuel (Unwinder.start m st) = .done (.ok (), { u with state := next }) := by
    rw [nextFrame, bind_of_ok hrules, bind_of_ok happly, modifyState, bind_of_ok (modify_run _ _)]
    exact bind_of_ok (unwindGetReturnAddress_eq_ok.mpr ⟨rfl, hra⟩)
  refine ⟨next, ?_, fun reg hreg => hframe reg (Nat.zero_le reg) (by omega)⟩
  rw [unwindNextFrame, if_neg (by simp [hend]), hnext]
  rfl

/-- **The row that is applied** is the one that covers the PC the FDE was looked up by exactly when
that row says the same as the one that covers the return address. -/
theorem applied_row_iff {pc fdeAddr : ℕ}
    (hpc : getReliablePc m (Unwinder.start m st) = .done (.ok pc, Unwinder.start m st))
    (hfind : findFde m fuel pc = .done fdeAddr) (hfdeAddr : maxErrno < fdeAddr)
    (hparse : withData (ehDataInit m fdeAddr) (parseFde m fuel) (Unwinder.start m st) =
      .done (.ok (), p))
    (hcie : Stream m fuel p.state.cieCode cie) (hfde : Stream m fuel p.state.fdeCode fde)
    (hcieLength : cie.length < fuel) (hfdeLength : fde.length < fuel)
    (hra : returnAddressOf m p.state = .done ra)
    (hwrap : p.state.pc + extent (entries m p.state.codeAlignmentFactor (cie ++ fde)) < 2 ^ 64) :
    ∃ ret u, findRules m fuel (Unwinder.start m st) = .done (ret, u) ∧
      ((∀ i ∈ cie ++ fde, i.Valid m) → ret = .ok ()) ∧
      (ret = .ok () →
        ((covering (table m p.state (cie ++ fde)) pc).map Row.value = some (rowOf u) ↔
          (covering (table m p.state (cie ++ fde)) ra).map Row.value =
            (covering (table m p.state (cie ++ fde)) pc).map Row.value)) := by
  let find : Unwinding Returned := fun u => (findFde m fuel pc).bind fun pret => .done (.ok pret, u)
  have hfound : find (Unwinder.start m st) = .done (.ok fdeAddr, Unwinder.start m st) := by
    change (findFde m fuel pc).bind _ = _
    rw [hfind]
    rfl
  have hprepare : prepareUnwindState m fuel (Unwinder.start m st) = .done (.ok (), p) := by
    rw [prepareUnwindState, bind_of_ok hpc]
    refine (bind_of_ok hfound).trans ?_
    rw [if_neg (not_le.mpr hfdeAddr), hparse]
  obtain ⟨data, hparse', rfl⟩ := zoom_eq_ok.mp hparse
  have hbegin := parseFde_begin hparse' hra
  obtain ⟨ret, u, hrun, hok, hrow⟩ := findRules_table hprepare hcie hfde hcieLength hfdeLength hra
    hbegin hwrap
  refine ⟨ret, u, hrun, hok, fun hret => ?_⟩
  rw [hrow hret]
  exact eq_comm

end Frame

/-- An ordinary frame with the given return address. -/
def returningTo (ra : ℕ) : UnwindState := initialState twoRows (fun _ => ra) false

theorem twoRows_cie : Stream twoRows 32 ⟨0x1019, 5⟩ [.defCfa 7 8, .offset 16 1] := by
  have hfirst : readInstr twoRows 32 ⟨0x1019, 5⟩ = .done (.ok (.defCfa 7 8), ⟨0x101C, 2⟩) := by
    decide +kernel
  have hsecond : readInstr twoRows 32 ⟨0x101C, 2⟩ = .done (.ok (.offset 16 1), ⟨0x101E, 0⟩) := by
    decide +kernel
  exact .cons hfirst (.cons hsecond (.nil rfl))

theorem twoRows_fde : Stream twoRows 32 ⟨0x102F, 3⟩ [.advance 4, .defCfaOffset 16] := by
  have hfirst : readInstr twoRows 32 ⟨0x102F, 3⟩ = .done (.ok (.advance 4), ⟨0x1030, 2⟩) := by
    decide +kernel
  have hsecond : readInstr twoRows 32 ⟨0x1030, 2⟩ = .done (.ok (.defCfaOffset 16), ⟨0x1032, 0⟩) := by
    decide +kernel
  exact .cons hfirst (.cons hsecond (.nil rfl))

theorem twoRows_parsed :
    ∃ p, withData (ehDataInit twoRows 0x101E) (parseFde twoRows 32)
        (Unwinder.start twoRows (returningTo 0x2004)) = .done (.ok (), p) ∧
      p.state.cieCode = ⟨0x1019, 5⟩ ∧ p.state.fdeCode = ⟨0x102F, 3⟩ ∧ p.state.pc = 0x2000 ∧
      p.state.codeAlignmentFactor = 1 ∧
      returnAddressOf twoRows p.state = .done 0x2004 := by
  have hrun : (withData (ehDataInit twoRows 0x101E) (parseFde twoRows 32)
      (Unwinder.start twoRows (returningTo 0x2004))).value?.map (fun q =>
        (q.1, [q.2.state.cieCode, q.2.state.fdeCode], [q.2.state.pc, q.2.state.codeAlignmentFactor],
          returnAddressOf twoRows q.2.state)) =
      some (.ok (), [⟨0x1019, 5⟩, ⟨0x102F, 3⟩], [0x2000, 1], .done 0x2004) := by
    decide +kernel
  obtain ⟨⟨ret, p⟩, hvalue, hp⟩ := Option.map_eq_some_iff.mp hrun
  simp only [Prod.mk.injEq, List.cons.injEq, and_true, and_assoc] at hp
  obtain ⟨rfl, hp⟩ := hp
  exact ⟨p, Outcome.value?_eq_some.mp hvalue, hp⟩

theorem twoRows_rules :
    ∃ u, findRules twoRows 32 (Unwinder.start twoRows (returningTo 0x2004)) = .done (.ok (), u) ∧
      u.state.cfaOffset = 16 := by
  have hrun : (findRules twoRows 32 (Unwinder.start twoRows (returningTo 0x2004))).value?.map
      (fun q => (q.1, q.2.state.cfaOffset)) = some (.ok (), 16) := by
    decide +kernel
  obtain ⟨⟨ret, u⟩, hvalue, hu⟩ := Option.map_eq_some_iff.mp hrun
  simp only [Prod.mk.injEq] at hu
  obtain ⟨rfl, hu⟩ := hu
  exact ⟨u, Outcome.value?_eq_some.mp hvalue, hu⟩

/-- **A row that starts at the return address** is applied: to the return address 0x2004, although the
FDE was looked up by 0x2003, which the row of the CIE covers. -/
theorem applied_row_boundary :
    ∃ p u, getReliablePc twoRows (Unwinder.start twoRows (returningTo 0x2004)) =
        .done (.ok 0x2003, Unwinder.start twoRows (returningTo 0x2004)) ∧
      findFde twoRows 32 0x2003 = .done ⟨0x101E, none⟩ ∧
      withData (ehDataInit twoRows 0x101E) (parseFde twoRows 32)
        (Unwinder.start twoRows (returningTo 0x2004)) = .done (.ok (), p) ∧
      Stream twoRows 32 p.state.cieCode [.defCfa 7 8, .offset 16 1] ∧
      Stream twoRows 32 p.state.fdeCode [.advance 4, .defCfaOffset 16] ∧
      findRules twoRows 32 (Unwinder.start twoRows (returningTo 0x2004)) = .done (.ok (), u) ∧
      (covering (table twoRows p.state [.defCfa 7 8, .offset 16 1, .advance 4, .defCfaOffset 16])
        0x2003).map Row.value ≠ some (rowOf u) := by
  obtain ⟨p, hparse, hcie, hfde, hpc, hfactor, _⟩ := twoRows_parsed
  obtain ⟨u, hrules, hu⟩ := twoRows_rules
  refine ⟨p, u, rfl, rfl, hparse, hcie ▸ twoRows_cie, hfde ▸ twoRows_fde, hrules, fun h => ?_⟩
  have hoffset := congrArg (Option.map CfaRow.cfaOffset) h
  rw [Option.map_some, rowOf, hu, table, hpc, hfactor] at hoffset
  cases hoffset

/-- To the return address 0x2004. -/
theorem applied_row_iff_boundary :
    ∃ p ret u, findRules twoRows 32 (Unwinder.start twoRows (returningTo 0x2004)) = .done (ret, u) ∧
      (ret = .ok () →
        ((covering (table twoRows p [.defCfa 7 8, .offset 16 1, .advance 4, .defCfaOffset 16])
            0x2003).map Row.value = some (rowOf u) ↔
          (covering (table twoRows p [.defCfa 7 8, .offset 16 1, .advance 4, .defCfaOffset 16])
            0x2004).map Row.value =
          (covering (table twoRows p [.defCfa 7 8, .offset 16 1, .advance 4, .defCfaOffset 16])
            0x2003).map Row.value)) := by
  obtain ⟨p, hparse, hcie, hfde, hpc, hfactor, hra⟩ := twoRows_parsed
  have hentry : getReliablePc twoRows (Unwinder.start twoRows (returningTo 0x2004)) =
      .done (.ok 0x2003, Unwinder.start twoRows (returningTo 0x2004)) := rfl
  have hfind : findFde twoRows 32 0x2003 = .done ⟨0x101E, none⟩ := rfl
  obtain ⟨ret, u, hrun, _, hiff⟩ := applied_row_iff hentry hfind (by decide) hparse
    (hcie ▸ twoRows_cie) (hfde ▸ twoRows_fde) (by decide) (by decide) hra
    (by rw [hpc, hfactor]; decide)
  exact ⟨p.state, ret, u, hrun, hiff⟩

end UltraKernel.Unwind
