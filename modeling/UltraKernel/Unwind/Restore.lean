import UltraKernel.Lib.Run
import UltraKernel.Unwind.SignalFrames

/-!
# Restored rules

`DW_CFA_restore` is to give a register the rule back that it had after the instructions of the CIE.
The unwinder does not keep these rules, and stores the rule `same_value`.

* `Executes`, `Reached`: the states in the middle of the run of an FDE's instructions;
* `findRules_reached`: that they are;
* `executes_stores`, `run_lastRule`: the rule that instructions leave a register with;
* `restore_iff`: the registers that get their rules back.
-/

namespace UltraKernel.Unwind

open Word Program

/-! ### States in the middle of a run -/

/-- The loop of `dwarf_exec` goes on with the instruction at the cursor, which succeeds. -/
structure Executes (m : Machine) (fuel : ℕ) (u : Unwinder) (opcode : ℕ) (v : Unwinder) : Prop where
  left : u.data.bytesLeft ≠ 0
  before : ∃ ra, returnAddressOf m u.state = .done ra ∧ u.state.pc ≤ ra
  opcode_eq : (m.mem u.data.cursor).toNat = opcode
  step : execStep m fuel u = .done (.ok (), v)

/-- The loop of `dwarf_exec` ends here. -/
def Stopped (m : Machine) (u : Unwinder) : Prop :=
  u.data.bytesLeft = 0 ∨ ∃ ra, returnAddressOf m u.state = .done ra ∧ ra < u.state.pc

/-- The start of the instructions of the CIE, after `prepare_unwind_state`. -/
def cieStart (m : Machine) (p : Unwinder) : Unwinder :=
  ⟨{ p.state with signalFrame := false }, initialRules m, p.state.cieCode⟩

/-- The start of the instructions of the FDE, after those of the CIE. -/
def fdeStart (c : Unwinder) : Unwinder :=
  ⟨{ c.state with cieCode := c.data }, c.rules, c.state.fdeCode⟩

/-- **A state in the middle**: the instructions of the CIE were executed up to `c`, and some of those
of the FDE up to `v`. -/
structure Reached (m : Machine) (fuel : ℕ) (p : Unwinder) (cie fde : List ℕ) (c v : Unwinder) :
    Prop where
  cie : Run (Executes m fuel) (cieStart m p) cie c
  stopped : Stopped m c
  fde : Run (Executes m fuel) (fdeStart c) fde v

section Runs

variable {m : Machine} {fuel : ℕ} {u v c p : Unwinder} {opcodes cie fde : List ℕ}

theorem execLoop_executes {opcode : ℕ} (h : Executes m fuel u opcode v) (rounds : ℕ) :
    execLoop m fuel (rounds + 1) u = execLoop m fuel rounds v := by
  obtain ⟨ra, hra, hpast⟩ := h.before
  have hra' : unwindGetReturnAddress m u = .done (.ok ra, u) :=
    unwindGetReturnAddress_eq_ok.mpr ⟨rfl, hra⟩
  rw [execLoop, bind_of_ok (get_run _)]
  refine (congrFun (if_neg h.left) _).trans ?_
  rw [bind_of_ok hra']
  refine (congrFun (if_neg (not_lt.mpr hpast)) _).trans ?_
  exact bind_of_ok h.step

/-- **The loop passes** through the state. -/
theorem execLoop_run (h : Run (Executes m fuel) u opcodes v) (rounds : ℕ) :
    execLoop m fuel (rounds + opcodes.length) u = execLoop m fuel rounds v := by
  induction h with
  | nil => rfl
  | cons hstep _ ih => exact (execLoop_executes hstep _).trans ih

theorem execLoop_stopped (h : Stopped m u) (rounds : ℕ) :
    execLoop m fuel (rounds + 1) u = .done (.ok (), u) := by
  rw [execLoop, bind_of_ok (get_run _)]
  by_cases hempty : u.data.bytesLeft = 0
  · exact congrFun (if_pos hempty) _
  · obtain ⟨ra, hra, hpast⟩ := h.resolve_left hempty
    refine (congrFun (if_neg hempty) _).trans ?_
    rw [bind_of_ok (unwindGetReturnAddress_eq_ok.mpr ⟨rfl, hra⟩)]
    exact congrFun (if_pos hpast) _

/-- The end of `dwarf_exec` on the instructions of an FDE. -/
def endFde (data : EhData) (u : Unwinder) : Unwinder :=
  { u with state := { u.state with fdeCode := u.data }, data := data }

/-- **The run of a frame** passes through the state. -/
theorem findRules_reached {st : UnwindState} (h : Reached m fuel p cie fde c v)
    (hprepare : prepareUnwindState m fuel (Unwinder.start m st) = .done (.ok (), p))
    (hcie : cie.length < fuel) (hfde : fde.length ≤ fuel) :
    findRules m fuel (Unwinder.start m st) =
      execLoop m fuel (fuel - fde.length) v >>= fun q => .done (q.1, endFde p.data q.2) := by
  have hcieRun : dwarfExec m fuel (cieStart m p) = .done (.ok (), c) := by
    have hrun := execLoop_run h.cie (fuel - cie.length - 1 + 1)
    rw [show fuel - cie.length - 1 + 1 + cie.length = fuel by omega] at hrun
    exact hrun.trans (execLoop_stopped h.stopped _)
  have hfdeRun : dwarfExec m fuel (fdeStart c) = execLoop m fuel (fuel - fde.length) v := by
    have hrun := execLoop_run h.fde (fuel - fde.length)
    rwa [Nat.sub_add_cancel hfde] at hrun
  let start : Unwinder := ⟨{ p.state with signalFrame := false }, initialRules m, p.data⟩
  let middle : Unwinder := ⟨{ c.state with cieCode := c.data }, c.rules, p.data⟩
  have hsplit : findRules m fuel (Unwinder.start m st) = (do
      execCode m fuel UnwindState.cieCode fun data st => { st with cieCode := data }
      execCode m fuel UnwindState.fdeCode fun data st => { st with fdeCode := data } :
        Unwinding Unit) start := by
    rw [findRules, bind_of_ok hprepare]
    rfl
  have hfirst : execCode m fuel UnwindState.cieCode
      (fun data st => { st with cieCode := data }) start = .done (.ok (), middle) :=
    zoom_of_ok hcieRun
  rw [hsplit, bind_of_ok hfirst, ← hfdeRun]
  rfl

end Runs

/-! ### Rules -/

/-- The kind of rule that an instruction stores for a register. -/
def storedKind (reg opcode : ℕ) : Option RuleKind :=
  if opcode % 64 = reg then
    if opcode / 64 = 2 then some .offset else if opcode / 64 = 3 then some .sameValue else none
  else none

/-- The last rule that is stored for a register. -/
def lastRule (reg : ℕ) (opcodes : List ℕ) : Option RuleKind :=
  (opcodes.filterMap (storedKind reg)).getLast?

/-- The rules stay as they are. -/
abbrev KeepsRules {α : Type} (rules : ℕ → RegisterRule) (x : Unwinding α) : Prop :=
  Raises (fun u => u.rules = rules) (fun _ => True) x

section Rules

variable {m : Machine} {fuel reg : ℕ} {u v : Unwinder} {rules : ℕ → RegisterRule}

theorem onData_keepsRules {α : Type} (x : Reader α) : KeepsRules rules (onData x) := by
  intro u hu
  rw [onData, zoom]
  cases x u.data with
  | done p =>
    obtain ⟨r, data⟩ := p
    cases r with
    | ok value => exact hu
    | error e => trivial
  | halt e => trivial
  | outOfFuel => trivial

theorem modifyState_keepsRules (f : UnwindState → UnwindState) :
    KeepsRules rules (modifyState f) := Raises.modify fun _ hu => hu

theorem decodeInto_keepsRules (encoding : ℕ) (field : ℕ → UnwindState → UnwindState) :
    KeepsRules rules (decodeInto m fuel encoding field) := by
  refine Raises.bind (onData_keepsRules _) fun base => ?_
  refine Raises.bind (modifyState_keepsRules _) fun _ => ?_
  exact Raises.bind (onData_keepsRules _) fun value => modifyState_keepsRules _

/-- **The other instructions** leave the rules as they are. -/
theorem execOpcode_keepsRules (opcode : ℕ) : KeepsRules rules (execOpcode m fuel opcode) := by
  unfold execOpcode
  by_cases hnop : opcode = 0x00
  · rw [if_pos hnop]
    exact Raises.pure _
  rw [if_neg hnop]
  by_cases hadvance : opcode = 0x04 ∨ opcode = 0x03 ∨ opcode = 0x02
  · rw [if_pos hadvance]
    exact Raises.bind (onData_keepsRules _) fun delta => modifyState_keepsRules _
  rw [if_neg hadvance]
  by_cases hdefCfa : opcode = 0x0C ∨ opcode = 0x0D
  · rw [if_pos hdefCfa]
    refine Raises.bind (onData_keepsRules _) fun value => ?_
    refine Raises.bind (Raises.refuse trivial) fun _ => ?_
    refine Raises.bind ?_ fun _ => ?_
    · unfold setCfaRegIdx
      split_ifs
      · exact modifyState_keepsRules _
      · exact Raises.halt _
    · split_ifs
      · exact Raises.pure _
      · exact decodeInto_keepsRules _ _
  rw [if_neg hdefCfa]
  split_ifs
  · exact decodeInto_keepsRules _ _
  · exact Raises.fail trivial

theorem storeRule_rules {r : ℕ} {rule : RegisterRule}
    (h : storeRule m r rule u = .done (.ok (), v)) (hreg : reg < m.arch.numRegisters) :
    v.rules reg = if r = reg then rule else u.rules reg := by
  unfold storeRule setRule at h
  by_cases hr : r < m.arch.numRegisters
  · rw [if_pos hr, if_pos hr, modify_run] at h
    obtain ⟨-, rfl⟩ := Prod.mk.inj (Outcome.done.inj h)
    by_cases heq : r = reg
    · rw [if_pos heq, ← heq]
      exact Function.update_self _ _ _
    · rw [if_neg heq]
      exact Function.update_of_ne (Ne.symm heq) _ _
  · rw [if_neg hr, pure_run] at h
    obtain ⟨-, rfl⟩ := Prod.mk.inj (Outcome.done.inj h)
    rw [if_neg (by omega)]

theorem storedKind_store {r kind : ℕ} (hkind : kind = 2 ∨ kind = 3) {opcode : ℕ}
    (hhigh : opcode / 64 = kind) (hlow : opcode % 64 = r) :
    storedKind reg opcode =
      if r = reg then some (if kind = 2 then .offset else .sameValue) else none := by
  rw [storedKind, hhigh, hlow]
  rcases hkind with rfl | rfl
  · rfl
  · rfl

theorem storedKind_none {opcode : ℕ} (h2 : opcode / 64 ≠ 2) (h3 : opcode / 64 ≠ 3) :
    storedKind reg opcode = none := by
  rw [storedKind, if_neg h2, if_neg h3, ite_self]

/-- What an instruction leaves of the rule of a register. -/
structure Stores (reg opcode : ℕ) (u v : Unwinder) : Prop where
  none : storedKind reg opcode = none → v.rules reg = u.rules reg
  sameValue : storedKind reg opcode = some .sameValue → v.rules reg = ⟨.sameValue, 0⟩
  rule : ∀ kind, storedKind reg opcode = some kind → (v.rules reg).rule = kind

theorem stores_of_none {opcode : ℕ} (hnone : storedKind reg opcode = none)
    (h : v.rules = u.rules) : Stores reg opcode u v := by
  refine ⟨fun _ => congrFun h reg, ?_, ?_⟩
  · intro hsame
    exact nomatch (hnone.symm.trans hsame)
  · intro kind hkind
    exact nomatch (hnone.symm.trans hkind)

theorem stores_of_storeRule {w : Unwinder} {kind opcode : ℕ} {rule : RegisterRule}
    (hkind : kind = 2 ∨ kind = 3) (hhigh : opcode / 64 = kind) (hreg : reg < m.arch.numRegisters)
    (hsame : w.rules = u.rules) (hstore : storeRule m (opcode % 64) rule w = .done (.ok (), v))
    (hrule : rule.rule = if kind = 2 then .offset else .sameValue)
    (hvalue : rule.rule = .sameValue → rule = ⟨.sameValue, 0⟩) : Stores reg opcode u v := by
  have hrules := storeRule_rules hstore hreg
  have hstored : storedKind reg opcode = if opcode % 64 = reg then
      some (if kind = 2 then .offset else .sameValue) else none :=
    storedKind_store hkind hhigh rfl
  rw [hsame] at hrules
  rw [← hrule] at hstored
  by_cases heq : opcode % 64 = reg
  · rw [if_pos heq] at hrules hstored
    refine ⟨fun hnone => absurd (hstored.symm.trans hnone) (Option.some_ne_none _), ?_, ?_⟩
    · intro h
      rw [hrules]
      exact hvalue (Option.some.inj (hstored.symm.trans h))
    · intro k h
      rw [hrules]
      exact Option.some.inj (hstored.symm.trans h)
  · rw [if_neg heq] at hrules hstored
    refine ⟨fun _ => hrules, ?_, ?_⟩
    · intro h
      exact nomatch (hstored.symm.trans h)
    · intro k h
      exact nomatch (hstored.symm.trans h)

/-- **One instruction** stores a rule for at most one register. -/
theorem executes_stores {opcode : ℕ} (h : Executes m fuel u opcode v)
    (hreg : reg < m.arch.numRegisters) : Stores reg opcode u v := by
  obtain ⟨byte, w, hbyte, hstep⟩ := bind_eq_ok.mp h.step
  have hw : w.rules = u.rules := (onData_keepsRules _).of_ok rfl hbyte
  obtain ⟨data, hread, -⟩ := zoom_eq_ok.mp hbyte
  have hopcode : byte = opcode := (ehConsume_eq_ok hread).1.trans h.opcode_eq
  rw [hopcode] at hstep
  by_cases h0 : opcode / 64 = 0
  · rw [if_pos h0] at hstep
    exact stores_of_none (storedKind_none (by omega) (by omega))
      ((execOpcode_keepsRules opcode).of_ok hw hstep)
  rw [if_neg h0] at hstep
  by_cases h1 : opcode / 64 = 1
  · rw [if_pos h1] at hstep
    exact stores_of_none (storedKind_none (by omega) (by omega))
      ((modifyState_keepsRules _).of_ok hw hstep)
  rw [if_neg h1] at hstep
  by_cases h2 : opcode / 64 = 2
  · rw [if_pos h2] at hstep
    obtain ⟨value, _, hdecode, hstore⟩ := bind_eq_ok.mp hstep
    exact stores_of_storeRule (Or.inl rfl) h2 hreg ((onData_keepsRules _).of_ok hw hdecode) hstore
      rfl fun heq => nomatch heq
  rw [if_neg h2] at hstep
  by_cases h3 : opcode / 64 = 3
  · rw [if_pos h3] at hstep
    exact stores_of_storeRule (Or.inr rfl) h3 hreg hw hstep rfl fun _ => rfl
  · rw [if_neg h3] at hstep
    exact nomatch hstep

/-- **The rule after some instructions** is the last one that they store, if they store one. -/
theorem run_lastRule {opcodes : List ℕ} (h : Run (Executes m fuel) u opcodes v)
    (hreg : reg < m.arch.numRegisters) :
    (v.rules reg).rule = (lastRule reg opcodes).getD (u.rules reg).rule := by
  induction h with
  | nil => rfl
  | @cons u w v opcode opcodes hstep _ ih =>
    have hstores := executes_stores hstep hreg
    rw [ih]
    cases hkind : storedKind reg opcode with
    | none =>
      rw [lastRule, lastRule, List.filterMap_cons_none hkind, hstores.none hkind]
    | some kind =>
      rw [lastRule, lastRule, List.filterMap_cons_some hkind, List.getLast?_cons,
        hstores.rule kind hkind]
      rfl

end Rules

/-! ### What is recovered -/

/-- Two rules that say the same: only `offset` has an operand. -/
structure RegisterRule.Same (a b : RegisterRule) : Prop where
  rule : a.rule = b.rule
  offset : b.rule = .offset → a.offset = b.offset

/-- A register is recovered as a value in the next frame. -/
def Recovers (m : Machine) (reg : ℕ) (u : Unwinder) (value : ℕ) : Prop :=
  ∃ w, applyRule m reg u = .done (.ok value, w)

/-- `state->frame[state->cfa_reg_idx]` -/
def cfaRegister (m : Machine) (st : UnwindState) : Outcome UnwindBug ℕ :=
  if st.cfaRegIdx < m.arch.numRegisters then .done (st.frame st.cfaRegIdx) else .halt .index

/-- The value that a rule recovers for a register. -/
def ruleValue (m : Machine) (reg : ℕ) (st : UnwindState) (rule : RegisterRule) :
    Outcome UnwindBug ℕ :=
  match rule.rule with
  | .sameValue => .done (st.frame reg)
  | .offset => do
    let cfa ← cfaRegister m st
    return readBytes m.mem (add64 (add64 cfa st.cfaOffset)
      (mul64 rule.offset st.dataAlignmentFactor)) 8
  | .defCfa => do
    let cfa ← cfaRegister m st
    return add64 cfa st.cfaOffset

/-- The state with another rule for a register. -/
def Unwinder.withRule (u : Unwinder) (reg : ℕ) (rule : RegisterRule) : Unwinder :=
  { u with rules := Function.update u.rules reg rule }

/-- **The register is restored**: it has the rule that it had, and is recovered as the value that
this rule recovers. -/
structure Restored (m : Machine) (reg : ℕ) (c v : Unwinder) : Prop where
  same : (v.rules reg).Same (c.rules reg)
  recovers : ∀ value, Recovers m reg v value ↔ Recovers m reg (v.withRule reg (c.rules reg)) value

/-- **The condition**: the CIE's last rule for the register is `DW_CFA_restore`, or it has none and
the register is not the stack pointer. -/
def CieLeaves (m : Machine) (reg : ℕ) (cie : List ℕ) : Prop :=
  lastRule reg cie = some .sameValue ∨ lastRule reg cie = none ∧ reg ≠ m.arch.spReg

section Restore

variable {m : Machine} {fuel reg opcode : ℕ} {p c v v' : Unwinder} {cie fde : List ℕ}

/-- The rule after the instructions of the CIE. -/
theorem Reached.cie_rule (h : Reached m fuel p cie fde c v) (hreg : reg < m.arch.numRegisters) :
    (c.rules reg).rule = .sameValue ↔ CieLeaves m reg cie := by
  rw [run_lastRule h.cie hreg, CieLeaves]
  cases lastRule reg cie with
  | none =>
    show (if reg = m.arch.spReg then RuleKind.defCfa else RuleKind.sameValue) = .sameValue ↔ _
    by_cases hsp : reg = m.arch.spReg
    · simp [hsp]
    · simp [hsp]
  | some kind => simp

theorem recovers_iff {u : Unwinder} {value : ℕ} :
    Recovers m reg u value ↔ ruleValue m reg u.state (u.rules reg) = .done value := by
  have hcfa : frameAt m u.state.cfaRegIdx u =
      cfaRegister m u.state >>= fun cfa => .done (.ok cfa, u) := by
    rw [frameAt, bind_of_ok (get_run u), cfaRegister]
    by_cases hidx : u.state.cfaRegIdx < m.arch.numRegisters
    · rw [if_pos hidx, if_pos hidx]
      rfl
    · rw [if_neg hidx, if_neg hidx]
      rfl
  rw [Recovers, applyRule, bind_of_ok (get_run u), ruleValue]
  cases (u.rules reg).rule with
  | sameValue => simp
  | offset =>
    simp only
    rw [bind_run, hcfa]
    cases cfaRegister m u.state with
    | done cfa => simp
    | halt e => simp
    | outOfFuel => simp
  | defCfa =>
    simp only
    rw [bind_run, hcfa]
    cases cfaRegister m u.state with
    | done cfa => simp
    | halt e => simp
    | outOfFuel => simp

theorem recovers_of_same {a : RegisterRule} (h : (v.rules reg).Same a) (value : ℕ) :
    Recovers m reg v value ↔ Recovers m reg (v.withRule reg a) value := by
  have ha : (v.withRule reg a).rules reg = a := by
    rw [Unwinder.withRule]
    exact Function.update_self _ _ _
  rw [recovers_iff, recovers_iff, ha]
  show ruleValue m reg v.state _ = _ ↔ ruleValue m reg v.state _ = _
  rw [ruleValue, ruleValue, h.rule]
  cases hkind : a.rule with
  | sameValue => rfl
  | offset =>
    rw [h.offset hkind]
  | defCfa => rfl

/-- **`DW_CFA_restore` restores** the rule that a register had after the CIE if and only if the CIE
leaves the register as it was. -/
theorem restore_iff (h : Reached m fuel p cie fde c v) (hrestore : Executes m fuel v opcode v')
    (hopcode : opcode / 64 = 3) (hreg : opcode % 64 < m.arch.numRegisters) :
    Restored m (opcode % 64) c v' ↔ CieLeaves m (opcode % 64) cie := by
  have hstored : storedKind (opcode % 64) opcode = some .sameValue :=
    (storedKind_store (Or.inr rfl) hopcode rfl).trans (if_pos rfl)
  have hrule := (executes_stores hrestore hreg).sameValue hstored
  rw [← h.cie_rule hreg]
  constructor
  · intro hrestored
    have hsame := hrestored.same.rule
    rw [hrule] at hsame
    exact hsame.symm
  · intro hcie
    have hsame : (v'.rules (opcode % 64)).Same (c.rules (opcode % 64)) := by
      rw [hrule]
      refine ⟨hcie.symm, fun hoffset => ?_⟩
      exact nomatch (hcie.symm.trans hoffset)
    exact ⟨hsame, recovers_of_same hsame⟩

end Restore

/-! ### A frame whose CIE has a rule for the return address -/

section Ends

variable {α : Type} {x : Unwinding α} {u : Unwinder} {value : α}

/-- The state that a program ends in. -/
def endOf (x : Unwinding α) (u : Unwinder) : Unwinder :=
  match x u with
  | .done (_, v) => v
  | _ => u

/-- The value that a program returns. -/
def resultOf (x : Unwinding α) (u : Unwinder) : Option α :=
  match x u with
  | .done (.ok value, _) => some value
  | _ => none

theorem eq_of_resultOf (h : resultOf x u = some value) : x u = .done (.ok value, endOf x u) := by
  rw [resultOf] at h
  rw [endOf]
  split at h
  · rename_i hrun
    rw [hrun, Option.some.inj h]
  · exact nomatch h

end Ends

/-- A CIE with `DW_CFA_def_cfa 7 8; DW_CFA_offset 16 1`, and an FDE of the addresses from 0x2000 up to
0x2010 with `DW_CFA_restore 16; DW_CFA_restore 3`. -/
def restoring : Machine := machineOf [
  0x00, 0x20, 0x00, 0x00, 0x1E, 0x10, 0x00, 0x00,
  0x12, 0x00, 0x00, 0x00, 0x00, 0x00, 0x00, 0x00, 0x01, 0x7A, 0x52, 0x00, 0x01, 0x78, 0x10, 0x01,
  0x03, 0x0C, 0x07, 0x08, 0x90, 0x01,
  0x10, 0x00, 0x00, 0x00, 0x1A, 0x00, 0x00, 0x00, 0x00, 0x20, 0x00, 0x00, 0x10, 0x00, 0x00, 0x00,
  0x00, 0xD0, 0xC3, 0x00]

/-- An ordinary frame with the return address 0x2004. -/
def restoringFrame : Unwinder :=
  Unwinder.start restoring (initialState restoring (fun _ => 0x2004) false)

/-- After `prepare_unwind_state`. -/
def restoringParsed : Unwinder := endOf (prepareUnwindState restoring 32) restoringFrame

/-- The state after the given number of instructions. -/
def after (u : Unwinder) : ℕ → Unwinder
  | 0 => u
  | n + 1 => endOf (execStep restoring 32) (after u n)

theorem executes_after {u : Unwinder} {n opcode : ℕ} (hleft : (after u n).data.bytesLeft ≠ 0)
    (hra : returnAddressOf restoring (after u n).state = .done 0x2004)
    (hpc : (after u n).state.pc ≤ 0x2004)
    (hopcode : (restoring.mem (after u n).data.cursor).toNat = opcode)
    (hok : resultOf (execStep restoring 32) (after u n) = some ()) :
    Executes restoring 32 (after u n) opcode (after u (n + 1)) :=
  ⟨hleft, ⟨_, hra, hpc⟩, hopcode, eq_of_resultOf hok⟩

/-- The state after the instructions of the CIE. -/
def restoringCie : Unwinder := after (cieStart restoring restoringParsed) 2

theorem restoring_cie :
    Run (Executes restoring 32) (cieStart restoring restoringParsed) [0x0C, 0x90] restoringCie :=
  .cons (executes_after (n := 0) (by decide +kernel) (by decide +kernel) (by decide +kernel)
      (by decide +kernel) (by decide +kernel))
    (.cons (executes_after (n := 1) (by decide +kernel) (by decide +kernel) (by decide +kernel)
      (by decide +kernel) (by decide +kernel)) (.nil _))

theorem restoring_first :
    Executes restoring 32 (fdeStart restoringCie) 0xD0 (after (fdeStart restoringCie) 1) :=
  executes_after (n := 0) (by decide +kernel) (by decide +kernel) (by decide +kernel)
    (by decide +kernel) (by decide +kernel)

theorem restoring_second :
    Executes restoring 32 (after (fdeStart restoringCie) 1) 0xC3
      (after (fdeStart restoringCie) 2) :=
  executes_after (n := 1) (by decide +kernel) (by decide +kernel) (by decide +kernel)
    (by decide +kernel) (by decide +kernel)

/-- Register 3, for which the CIE has no rule. -/
theorem restore_iff_register3 :
    Restored restoring 3 restoringCie (after (fdeStart restoringCie) 2) := by
  have hreached : Reached restoring 32 restoringParsed [0x0C, 0x90] [0xD0] restoringCie
      (after (fdeStart restoringCie) 1) :=
    ⟨restoring_cie, Or.inl (by decide +kernel), .cons restoring_first (.nil _)⟩
  have hiff := restore_iff hreached restoring_second (by decide) (by decide)
  exact hiff.mpr (Or.inr ⟨by decide, by decide⟩)

/-- **The return address**, which the CIE says is below the CFA, is said to be where it was after
`DW_CFA_restore 16`. -/
theorem restore_loses_cie_rule :
    prepareUnwindState restoring 32 restoringFrame = .done (.ok (), restoringParsed) ∧
      Reached restoring 32 restoringParsed [0x0C, 0x90] [] restoringCie (fdeStart restoringCie) ∧
      Executes restoring 32 (fdeStart restoringCie) 0xD0 (after (fdeStart restoringCie) 1) ∧
      ¬ Restored restoring 16 restoringCie (after (fdeStart restoringCie) 1) := by
  refine ⟨eq_of_resultOf (by decide +kernel), ⟨restoring_cie, Or.inl (by decide +kernel), .nil _⟩,
    restoring_first, ?_⟩
  intro hrestored
  exact absurd hrestored.same.rule (by decide +kernel)

end UltraKernel.Unwind
