import UltraKernel.Unwind.Restore

/-!
# The PC that an FDE has to cover

An FDE is looked up by a PC, and checked against a PC that is computed again after its CIE was
parsed, with the return register and the flag of that CIE.

* `cieReturnRegister`: the return register in a CIE, which `parseCie_returnRegister` stores;
* `FdeRead`: an FDE that was read up to the check;
* `checkedPc_iff`: when the second PC is the first;
* `covered_iff`: when the check accepts an FDE that covers the first PC and refuses one that does
  not.
-/

namespace UltraKernel.Unwind

open Word Program

/-! ### The return register of a CIE -/

/-- The characters of the augmentation, up to its NUL. -/
def skipAugmentation (m : Machine) : ℕ → Reader Unit
  | 0 => outOfFuel
  | fuel + 1 => do
    let augCh ← ehConsume m 1
    if augCh = 0 then pure () else skipAugmentation m fuel

/-- The return register that a CIE names. -/
def cieReturnRegister (m : Machine) (fuel : ℕ) : Reader ℕ := do
  let _ ← ehConsume m 4
  let _ ← ehConsume m 1
  skipAugmentation m fuel
  let _ ← decodeValue m fuel dwEhPeUleb128
  let _ ← decodeValue m fuel dwEhPeSleb128
  decodeValue m fuel dwEhPeUleb128

section ReturnRegister

variable {m : Machine} {fuel : ℕ} {u u' : Unwinder}

theorem onData_eq_ok {α : Type} {x : Reader α} {value : α}
    (h : onData x u = .done (.ok value, u')) :
    x u.data = .done (.ok value, u'.data) ∧ u'.state = u.state := by
  obtain ⟨data, hx, rfl⟩ := zoom_eq_ok.mp h
  exact ⟨hx, rfl⟩

theorem modifyState_eq_ok {f : UnwindState → UnwindState}
    (h : modifyState f u = .done (.ok (), u')) : u'.data = u.data ∧ u'.state = f u.state := by
  obtain ⟨-, rfl⟩ := Prod.mk.inj (Outcome.done.inj h)
  exact ⟨rfl, rfl⟩

/-- **A value that is read into a field** is read as any other. -/
theorem decodeInto_eq_ok {encoding : ℕ} {field : ℕ → UnwindState → UnwindState}
    (h : decodeInto m fuel encoding field u = .done (.ok (), u')) :
    ∃ base value, decodeValue m fuel encoding u.data = .done (.ok value, u'.data) ∧
      u'.state = field value (field base u.state) := by
  obtain ⟨base, v, hbase, h⟩ := bind_eq_ok.mp h
  obtain ⟨_, w, hstore, h⟩ := bind_eq_ok.mp h
  obtain ⟨value, x, hvalue, h⟩ := bind_eq_ok.mp h
  obtain ⟨hbaseRun, hv⟩ := onData_eq_ok hbase
  obtain ⟨hwdata, hw⟩ := modifyState_eq_ok hstore
  obtain ⟨hvalueRun, hx⟩ := onData_eq_ok hvalue
  obtain ⟨hdata, hstate⟩ := modifyState_eq_ok h
  refine ⟨base, value, ?_, ?_⟩
  · rw [decodeValue, bind_of_ok hbaseRun, ← hwdata, hdata]
    exact hvalueRun
  · rw [hstate, hx, hw, hv]

theorem augLoop_skips {augIdx : ℕ} (hidx : augIdx < 3)
    (h : augLoop m fuel augIdx u = .done (.ok (), u')) :
    skipAugmentation m fuel u.data = .done (.ok (), u'.data) := by
  induction fuel generalizing augIdx u with
  | zero => cases h
  | succ fuel ih =>
    rw [augLoop, if_pos (by simpa [expectedAugString] using hidx)] at h
    obtain ⟨augCh, v, hconsume, h⟩ := bind_eq_ok.mp h
    obtain ⟨hread, -⟩ := onData_eq_ok hconsume
    rw [skipAugmentation, bind_of_ok hread]
    by_cases hexpected : augCh = expectedAugString.getD augIdx 0
    · rw [if_neg (not_not.mpr hexpected)] at h
      rcases Nat.lt_or_ge augIdx 2 with hinside | hlast
      · have hchar : augCh ≠ 0 := by
          rw [hexpected]
          rcases (show augIdx = 0 ∨ augIdx = 1 by omega) with rfl | rfl
          · decide
          · decide
        rw [if_neg hchar]
        exact ih (show augIdx + 1 < 3 by omega) h
      · -- the NUL is the last character that is expected
        obtain rfl : augIdx = 2 := by omega
        rw [if_pos (show augCh = 0 from hexpected)]
        cases fuel with
        | zero => cases h
        | succ fuel =>
          obtain ⟨-, rfl⟩ := Prod.mk.inj (Outcome.done.inj h)
          rfl
    · rw [if_pos hexpected] at h
      by_cases hsignal : augCh = 'S'.toNat
      · rw [if_pos hsignal] at h
        obtain ⟨_, w, hmodify, h⟩ := bind_eq_ok.mp h
        have hchar : augCh ≠ 0 := by
          rw [hsignal]
          decide
        rw [if_neg hchar, ← (modifyState_eq_ok hmodify).1]
        exact ih hidx h
      · rw [if_neg hsignal] at h
        cases h

theorem parseCieFields_returnRegister (h : parseCieFields m fuel u = .done (.ok (), u')) :
    u'.state.retRegIdx < m.arch.numRegisters ∧ ∃ rest, (do
      let _ ← decodeValue m fuel dwEhPeUleb128
      let _ ← decodeValue m fuel dwEhPeSleb128
      decodeValue m fuel dwEhPeUleb128 : Reader ℕ) u.data = .done (.ok u'.state.retRegIdx, rest) := by
  obtain ⟨_, u₁, hcode, h₁⟩ := bind_eq_ok.mp h
  obtain ⟨_, u₂, hdata, h₂⟩ := bind_eq_ok.mp h₁
  obtain ⟨retReg, u₃, hretReg, h₃⟩ := bind_eq_ok.mp h₂
  obtain ⟨_, u₄, -, h₄⟩ := bind_eq_ok.mp h₃
  obtain ⟨_, u₅, hset, h₅⟩ := bind_eq_ok.mp h₄
  obtain ⟨_, u₆, haugLength, h₆⟩ := bind_eq_ok.mp h₅
  obtain ⟨_, u₇, hrefuse, h₇⟩ := bind_eq_ok.mp h₆
  obtain ⟨_, u₈, hencoding, h₈⟩ := bind_eq_ok.mp h₇
  obtain ⟨_, u₉, hstore, h₉⟩ := bind_eq_ok.mp h₈
  have hstored : retReg < m.arch.numRegisters ∧ u₅.state.retRegIdx = retReg := by
    rw [setRetRegIdx] at hset
    split_ifs at hset with hlt
    · rw [(modifyState_eq_ok hset).2]
      exact ⟨hlt, rfl⟩
    · cases hset
  -- what is read afterwards does not change it
  have hlast : u'.state.retRegIdx = u₉.state.retRegIdx := by
    obtain ⟨-, rfl⟩ := Prod.mk.inj (Outcome.done.inj h₉)
    rfl
  have hkept : u₉.state.retRegIdx = u₈.state.retRegIdx := by
    rw [(modifyState_eq_ok hstore).2]
  rw [(onData_eq_ok hencoding).2, (refuse_eq_ok.mp hrefuse).2, (onData_eq_ok haugLength).2,
    hstored.2] at hkept
  obtain ⟨_, _, hcodeRun, -⟩ := decodeInto_eq_ok hcode
  obtain ⟨_, _, hdataRun, -⟩ := decodeInto_eq_ok hdata
  rw [bind_of_ok hcodeRun, bind_of_ok hdataRun, (onData_eq_ok hretReg).1, hlast, hkept]
  exact ⟨hstored.1, _, rfl⟩

/-- **The return register** is stored. -/
theorem parseCie_returnRegister (h : parseCie m fuel u = .done (.ok (), u')) :
    u'.state.retRegIdx < m.arch.numRegisters ∧
      ∃ rest, cieReturnRegister m fuel u.data = .done (.ok u'.state.retRegIdx, rest) := by
  obtain ⟨_, u₁, hid, h₁⟩ := bind_eq_ok.mp h
  obtain ⟨_, u₂, hrefuse, h₂⟩ := bind_eq_ok.mp h₁
  obtain ⟨_, rfl⟩ := refuse_eq_ok.mp hrefuse
  obtain ⟨_, u₃, hversion, h₃⟩ := bind_eq_ok.mp h₂
  obtain ⟨_, u₄, hrefuse', h₄⟩ := bind_eq_ok.mp h₃
  obtain ⟨_, rfl⟩ := refuse_eq_ok.mp hrefuse'
  obtain ⟨_, u₅, haug, hfields⟩ := bind_eq_ok.mp h₄
  rw [cieReturnRegister, bind_of_ok (onData_eq_ok hid).1, bind_of_ok (onData_eq_ok hversion).1,
    bind_of_ok (augLoop_skips (by decide) haug)]
  exact parseCieFields_returnRegister hfields

end ReturnRegister

/-! ### Up to the check -/

/-- The end of `parse_fde`, after the check of the range. -/
def parseFdeEnd (m : Machine) : Unwinding Unit := do
  let augLength ← onData (ehConsume m 1)
  refuse (augLength ≠ 0) enosys
  modify fun u => { u with state := { u.state with fdeCode := u.data } }

/-- **An FDE with a well-formed CIE** is read up to the check of its range, which begins at
`v.state.pc` and has the size `pcSize`. -/
structure FdeRead (m : Machine) (fuel : ℕ) (u : Unwinder) (cie : EhData) (pcSize : ℕ)
    (v : Unwinder) : Prop where
  read : ∃ u₁ u₂ u₃, findCie m u = .done (.ok cie, u₁) ∧
    withData cie (parseCie m fuel) u₁ = .done (.ok (), u₂) ∧
    decodeInto m fuel u₂.state.fdeEncoding (fun value st => { st with pc := value }) u₂ =
      .done (.ok (), u₃) ∧
    onData (decodeValue m fuel (u₂.state.fdeEncoding % 16)) u₃ = .done (.ok pcSize, v)

section Check

variable {m : Machine} {fuel pcSize pc : ℕ} {u v : Unwinder} {cie : EhData} {st : UnwindState}

theorem FdeRead.parseFde_eq (h : FdeRead m fuel u cie pcSize v) :
    parseFde m fuel u = (do
      let currentPc ← getReliablePc m
      let w ← get
      refuse (currentPc < w.state.pc ∨ add64 w.state.pc pcSize ≤ currentPc) einval
      parseFdeEnd m : Unwinding Unit) v := by
  obtain ⟨u₁, u₂, u₃, hcie, hparse, hbegin, hsize⟩ := h.read
  rw [parseFde, bind_of_ok hcie, bind_of_ok hparse, parseFdeFields, bind_of_ok (get_run _),
    bind_of_ok hbegin, bind_of_ok hsize]
  rfl

theorem findCie_state {u' : Unwinder} (h : findCie m u = .done (.ok cie, u')) :
    u'.state = u.state := by
  obtain ⟨_, u₁, hoffset, h₁⟩ := bind_eq_ok.mp h
  obtain ⟨_, u₂, hrefuse, h₂⟩ := bind_eq_ok.mp h₁
  obtain ⟨-, rfl⟩ := refuse_eq_ok.mp hrefuse
  rw [bind_of_ok (get_run _), pure_run] at h₂
  rw [← (Prod.mk.inj (Outcome.done.inj h₂)).2]
  exact (onData_eq_ok hoffset).2

/-- **The state at the check**: the frame is as it was, with the return register and the flag of the
CIE. -/
theorem FdeRead.state (h : FdeRead m fuel u cie pcSize v) :
    v.state.frame = u.state.frame ∧ v.state.isEnd = u.state.isEnd ∧
      (v.state.signalFrame = true ↔ u.state.signalFrame = true ∨ HasSignal m cie) ∧
      v.state.retRegIdx < m.arch.numRegisters ∧
      ∃ rest, cieReturnRegister m fuel cie = .done (.ok v.state.retRegIdx, rest) := by
  obtain ⟨u₁, u₂, u₃, hcie, hparse, hbegin, hsize⟩ := h.read
  obtain ⟨parsed, hparsed, rfl⟩ := zoom_eq_ok.mp hparse
  have hfind : u₁.state = u.state := findCie_state hcie
  -- the FDE's own fields are written to `pc`
  obtain ⟨_, _, -, hpc⟩ := decodeInto_eq_ok hbegin
  have hlast : v.state = { parsed.state with pc := u₃.state.pc } := by
    rw [(onData_eq_ok hsize).2, hpc]
  have hkeep : Reports (OnState fun st => st.frame = u₁.state.frame ∧ st.isEnd = u₁.state.isEnd)
      (parseCie m fuel) :=
    parseCie_reports (fun _ hst => hst)
      fun _ _ _ hframe hend hst => ⟨hframe.trans hst.1, hend.trans hst.2⟩
  let start : Unwinder := { u₁ with data := cie }
  have hstart : start.state.frame = u₁.state.frame ∧ start.state.isEnd = u₁.state.isEnd := ⟨rfl, rfl⟩
  have hframe := hkeep.of_ok (s := start) hstart hparsed
  have hsignal := parseCie_signal hparsed
  obtain ⟨hlt, rest, hreg⟩ := parseCie_returnRegister hparsed
  rw [hlast, ← hfind]
  exact ⟨hframe.1, hframe.2, hsignal, hlt, rest, hreg⟩

/-! ### The two PCs -/

/-- The address that is found in a register, or 0 at the end. -/
def addressIn (st : UnwindState) (reg : ℕ) : ℕ := if st.isEnd then 0 else st.frame reg

/-- The PC that is found in a register, of a signal frame or another one. -/
def pcIn (st : UnwindState) (signal : Bool) (reg : ℕ) : ℕ :=
  if signal then addressIn st reg else sub64 (addressIn st reg) 1

/-- **The condition**: either the flag is the same and both registers hold the same, or the flag is
set by the CIE and its register holds one less. -/
def SamePc (m : Machine) (st : UnwindState) (cie : EhData) (reg : ℕ) : Prop :=
  ((st.signalFrame = true ∨ ¬ HasSignal m cie) ∧ addressIn st reg = addressIn st st.retRegIdx) ∨
    (st.signalFrame = false ∧ HasSignal m cie ∧
      addressIn st reg = sub64 (addressIn st st.retRegIdx) 1)

theorem sub64_one_inj {a b : ℕ} (ha : a < 2 ^ 64) (hb : b < 2 ^ 64) :
    sub64 a 1 = sub64 b 1 ↔ a = b := by
  unfold sub64
  omega

theorem addressIn_lt (hframe : ∀ i, st.frame i < 2 ^ 64) (reg : ℕ) : addressIn st reg < 2 ^ 64 := by
  rw [addressIn]
  split_ifs
  · decide
  · exact hframe reg

theorem pcIn_lt (hframe : ∀ i, st.frame i < 2 ^ 64) (signal : Bool) (reg : ℕ) :
    pcIn st signal reg < 2 ^ 64 := by
  rw [pcIn]
  split_ifs
  · exact addressIn_lt hframe reg
  · exact Nat.mod_lt _ (by decide)

theorem returnAddressOf_eq {ra : ℕ} (h : returnAddressOf m st = .done ra) :
    ra = addressIn st st.retRegIdx := by
  rw [returnAddressOf] at h
  rw [addressIn]
  by_cases hend : st.isEnd = true
  · rw [if_pos hend] at h ⊢
    exact (Outcome.done.inj h).symm
  · rw [if_neg hend] at h ⊢
    split_ifs at h
    exact (Outcome.done.inj h).symm

/-- **The second PC is the first** exactly when the condition holds. -/
theorem checkedPc_iff {reg : ℕ} {signal : Bool} (hframe : ∀ i, st.frame i < 2 ^ 64)
    (hsignal : signal = true ↔ st.signalFrame = true ∨ HasSignal m cie) :
    pcIn st signal reg = pcIn st st.signalFrame st.retRegIdx ↔ SamePc m st cie reg := by
  rw [pcIn, pcIn, SamePc]
  cases hflag : st.signalFrame with
  | true =>
    rw [hflag] at hsignal
    rw [hsignal.mpr (Or.inl rfl)]
    simp
  | false =>
    rw [hflag] at hsignal
    by_cases hcie : HasSignal m cie
    · rw [hsignal.mpr (Or.inr hcie)]
      simp [hcie]
    · have hnone : signal = false := by simpa [hcie] using hsignal
      rw [hnone]
      simp [hcie, sub64_one_inj (addressIn_lt hframe reg) (addressIn_lt hframe st.retRegIdx)]

/-- **What is checked**: the PC in the return register of the CIE, with the flag of the CIE. -/
theorem FdeRead.currentPc {reg : ℕ} (h : FdeRead m fuel u cie pcSize v)
    (hreg : v.state.retRegIdx = reg) :
    getReliablePc m v = .done (.ok (pcIn u.state v.state.signalFrame reg), v) := by
  obtain ⟨hframe, hend, -, hlt, -⟩ := h.state
  refine getReliablePc_eq_ok.mpr ⟨rfl, addressIn u.state reg, ?_, rfl⟩
  rw [returnAddressOf, addressIn, ← hend, ← hframe, ← hreg]
  by_cases hlast : v.state.isEnd = true
  · rw [if_pos hlast, if_pos hlast]
  · rw [if_neg hlast, if_neg hlast, if_pos hlt]

theorem decodeValue_lt {encoding value : ℕ} {data rest : EhData}
    (h : decodeValue m fuel encoding data = .done (.ok value, rest)) : value < 2 ^ 64 := by
  obtain ⟨base, _, -, hformat⟩ := bind_eq_ok.mp h
  have hcopy {format numBytes : ℕ} {start : EhData}
      (hrun : copyData m format numBytes base start = .done (.ok value, rest)) :
      value < 2 ^ 64 := by
    obtain ⟨_, _, -, hvalue⟩ := bind_eq_ok.mp hrun
    rw [← Except.ok.inj (Prod.mk.inj (Outcome.done.inj hvalue)).1]
    exact Nat.mod_lt _ (by decide)
  rw [decodeFormat] at hformat
  split_ifs at hformat
  · exact hcopy hformat
  · obtain ⟨_, _, -, hvalue⟩ := bind_eq_ok.mp hformat
    rw [← Except.ok.inj (Prod.mk.inj (Outcome.done.inj hvalue)).1]
    exact Nat.mod_lt _ (by decide)
  · exact hcopy hformat
  · exact hcopy hformat
  · exact hcopy hformat
  · exact nomatch hformat

theorem FdeRead.pc_lt (h : FdeRead m fuel u cie pcSize v) : v.state.pc < 2 ^ 64 := by
  obtain ⟨_, _, _, -, -, hbegin, hsize⟩ := h.read
  obtain ⟨_, _, hvalue, hpc⟩ := decodeInto_eq_ok hbegin
  rw [(onData_eq_ok hsize).2, hpc]
  exact decodeValue_lt hvalue

theorem FdeRead.pcSize_lt (h : FdeRead m fuel u cie pcSize v) : pcSize < 2 ^ 64 := by
  obtain ⟨_, _, _, -, -, -, hsize⟩ := h.read
  exact decodeValue_lt (onData_eq_ok hsize).1

/-! ### The check of the range -/

/-- **The FDE is taken as it covers the PC** that it was looked up by: this PC is checked, it is
accepted if the FDE covers it, and `EINVAL` is returned if not. -/
structure Covered (m : Machine) (fuel : ℕ) (u v : Unwinder) (pc pcSize : ℕ) : Prop where
  same : getReliablePc m v = .done (.ok pc, v)
  accepted : v.state.pc ≤ pc → pc < v.state.pc + pcSize → parseFde m fuel u = parseFdeEnd m v
  refused : ¬ (v.state.pc ≤ pc ∧ pc < v.state.pc + pcSize) →
    parseFde m fuel u = .done (.error einval, v)

theorem parseFdeEnd_ne_einval (w : Unwinder) : parseFdeEnd m v ≠ .done (.error einval, w) := by
  have hend : Raises Anyway (fun e => e ≠ (einval : Returned)) (parseFdeEnd m) := by
    have hread : Raises Anyway (fun e => e ≠ (einval : Returned)) (ehConsume m 1) :=
      consumeChecked_raises 1 (by decide)
    refine Raises.bind (Raises.zoom hread (fun _ _ => trivial) fun _ _ _ _ => trivial) fun _ => ?_
    exact Raises.bind (Raises.refuse (by decide)) fun _ => Raises.modify fun _ _ => trivial
  exact fun h => hend.of_error trivial h rfl

/-- **The check**, once the PC is known. -/
theorem FdeRead.parseFde_checked (h : FdeRead m fuel u cie pcSize v)
    (hrun : getReliablePc m v = .done (.ok pc, v)) :
    parseFde m fuel u =
      if pc < v.state.pc ∨ add64 v.state.pc pcSize ≤ pc then .done (.error einval, v)
      else parseFdeEnd m v := by
  rw [h.parseFde_eq, bind_of_ok hrun, bind_of_ok (get_run v)]
  by_cases hrange : pc < v.state.pc ∨ add64 v.state.pc pcSize ≤ pc
  · rw [if_pos hrange, refuse, if_pos hrange]
    rfl
  · rw [if_neg hrange, refuse, if_neg hrange]
    rfl

/-- **An FDE is taken as it covers the PC** that is checked, if the end of its range does not wrap
around at or below this PC. -/
theorem FdeRead.covered_iff_checked (h : FdeRead m fuel u cie pcSize v) (hpc : pc < 2 ^ 64) :
    Covered m fuel u v pc pcSize ↔ getReliablePc m v = .done (.ok pc, v) ∧
      (v.state.pc + pcSize < 2 ^ 64 ∨ pc < v.state.pc) := by
  have hbegin := h.pc_lt
  have hsize := h.pcSize_lt
  constructor
  · intro hcovered
    refine ⟨hcovered.same, ?_⟩
    by_contra hwrap
    -- the FDE covers the PC, but the end of its range is not above it
    have hinside : v.state.pc ≤ pc ∧ pc < v.state.pc + pcSize := by omega
    have hrefused : add64 v.state.pc pcSize ≤ pc := by
      unfold add64
      omega
    have hend := hcovered.accepted hinside.1 hinside.2
    rw [h.parseFde_checked hcovered.same, if_pos (Or.inr hrefused)] at hend
    exact parseFdeEnd_ne_einval v hend.symm
  · intro ⟨hrun, hwrap⟩
    refine ⟨hrun, ?_, ?_⟩
    · intro hfirst hlast
      rw [h.parseFde_checked hrun]
      refine if_neg ?_
      unfold add64
      omega
    · intro houtside
      rw [h.parseFde_checked hrun]
      refine if_pos ?_
      unfold add64
      omega

/-- **The PC is covered** as it was looked up if and only if the condition holds and the end of the
range does not wrap around at or below the PC. -/
theorem covered_iff (hframe : ∀ i, st.frame i < 2 ^ 64) {fde : EhData}
    (hpc : getReliablePc m (Unwinder.start m st) = .done (.ok pc, Unwinder.start m st))
    (h : FdeRead m fuel { Unwinder.start m st with data := fde } cie pcSize v) :
    ∃ reg rest, cieReturnRegister m fuel cie = .done (.ok reg, rest) ∧
      (Covered m fuel { Unwinder.start m st with data := fde } v pc pcSize ↔
        SamePc m st cie reg ∧ (v.state.pc + pcSize < 2 ^ 64 ∨ pc < v.state.pc)) := by
  obtain ⟨-, -, hsignal, -, rest, hreg⟩ := h.state
  refine ⟨v.state.retRegIdx, rest, hreg, ?_⟩
  obtain ⟨-, ra, hra, hvalue⟩ := getReliablePc_eq_ok.mp hpc
  have hlooked : pc = pcIn st st.signalFrame st.retRegIdx := by
    rw [hvalue, returnAddressOf_eq hra]
    rfl
  have hlt : pc < 2 ^ 64 := by
    rw [hlooked]
    exact pcIn_lt hframe _ _
  have hsame : getReliablePc m v = .done (.ok pc, v) ↔ SamePc m st cie v.state.retRegIdx := by
    rw [h.currentPc rfl, ← checkedPc_iff hframe hsignal, hlooked]
    simp
    rfl
  rw [h.covered_iff_checked hlt, hsame]

end Check

/-! ### A call at the end of a function -/

/-- A frame, not one of a signal, whose registers all hold 0x2010. -/
def callAtEnd (m : Machine) : UnwindState := initialState m (fun _ => 0x2010) false

/-- Before `parse_fde` of the FDE at the address. -/
def foundFde (m : Machine) (fde : ℕ) : Unwinder :=
  { Unwinder.start m (callAtEnd m) with data := ehDataInit m fde }

/-- After the CIE was parsed. -/
def parsedCie (m : Machine) (fde : ℕ) (cie : EhData) : Unwinder :=
  endOf (withData cie (parseCie m 32)) (endOf (findCie m) (foundFde m fde))

/-- Before the range is checked. -/
def atCheck (m : Machine) (fde : ℕ) (cie : EhData) : Unwinder :=
  let parsed := parsedCie m fde cie
  endOf (onData (decodeValue m 32 (parsed.state.fdeEncoding % 16)))
    (endOf (decodeInto m 32 parsed.state.fdeEncoding fun value st => { st with pc := value }) parsed)

theorem callAtEnd_pc (m : Machine) :
    getReliablePc m (Unwinder.start m (callAtEnd m)) =
      .done (.ok 0x200F, Unwinder.start m (callAtEnd m)) := by
  refine getReliablePc_eq_ok.mpr ⟨rfl, 0x2010, ?_, rfl⟩
  exact (if_neg Bool.false_ne_true).trans (if_pos m.arch.pcReg_lt)

theorem restoring_fdeRead :
    FdeRead restoring 32 (foundFde restoring 0x101E) ⟨0x100C, 18⟩ 0x10
      (atCheck restoring 0x101E ⟨0x100C, 18⟩) :=
  ⟨_, parsedCie restoring 0x101E ⟨0x100C, 18⟩, _, eq_of_resultOf (by decide +kernel),
    eq_of_resultOf (by decide +kernel), eq_of_resultOf (by decide +kernel),
    eq_of_resultOf (by decide +kernel)⟩

theorem interrupted_fdeRead :
    FdeRead interrupted 32 (foundFde interrupted 0x101F) ⟨0x100C, 19⟩ 0x10
      (atCheck interrupted 0x101F ⟨0x100C, 19⟩) :=
  ⟨_, parsedCie interrupted 0x101F ⟨0x100C, 19⟩, _, eq_of_resultOf (by decide +kernel),
    eq_of_resultOf (by decide +kernel), eq_of_resultOf (by decide +kernel),
    eq_of_resultOf (by decide +kernel)⟩

/-- The call is covered by a CIE without an `S`. -/
theorem covered_iff_restoring :
    Covered restoring 32 (foundFde restoring 0x101E) (atCheck restoring 0x101E ⟨0x100C, 18⟩)
      0x200F 0x10 := by
  obtain ⟨reg, rest, -, hiff⟩ :=
    covered_iff (fun _ => show 0x2010 < 2 ^ 64 by decide) (callAtEnd_pc restoring) restoring_fdeRead
  have hnone : ¬ HasSignal restoring ⟨0x100C, 18⟩ := by
    rintro ⟨k, hk, hbefore⟩
    have hshort : k < 3 := by
      by_contra hlong
      exact hbefore 2 (by omega) (by decide)
    have hchars : ∀ j < 3, (restoring.mem (0x100C + 5 + j)).toNat ≠ 'S'.toNat := by decide
    exact hchars k hshort hk
  have hwrap : (atCheck restoring 0x101E ⟨0x100C, 18⟩).state.pc + 0x10 < 2 ^ 64 := by
    decide +kernel
  exact hiff.mpr ⟨Or.inl ⟨Or.inr hnone, rfl⟩, Or.inl hwrap⟩

/-- **A call before an interrupt stub**: the FDE that is found covers the PC before the return
address, and is refused for the return address itself, since its CIE has an `S`. -/
theorem covered_lost_at_signal :
    getReliablePc interrupted (Unwinder.start interrupted (callAtEnd interrupted)) =
        .done (.ok 0x200F, Unwinder.start interrupted (callAtEnd interrupted)) ∧
      findFde interrupted 32 0x200F = .done ⟨0x101F, none⟩ ∧
      FdeRead interrupted 32 (foundFde interrupted 0x101F) ⟨0x100C, 19⟩ 0x10
        (atCheck interrupted 0x101F ⟨0x100C, 19⟩) ∧
      (atCheck interrupted 0x101F ⟨0x100C, 19⟩).state.pc = 0x2000 ∧
      (∃ w, parseFde interrupted 32 (foundFde interrupted 0x101F) = .done (.error einval, w)) ∧
      ¬ Covered interrupted 32 (foundFde interrupted 0x101F)
        (atCheck interrupted 0x101F ⟨0x100C, 19⟩) 0x200F 0x10 := by
  have hbegin : (atCheck interrupted 0x101F ⟨0x100C, 19⟩).state.pc = 0x2000 := by decide +kernel
  have hchecked : getReliablePc interrupted (atCheck interrupted 0x101F ⟨0x100C, 19⟩) =
      .done (.ok 0x2010, atCheck interrupted 0x101F ⟨0x100C, 19⟩) := by
    have hregister : (atCheck interrupted 0x101F ⟨0x100C, 19⟩).state.retRegIdx = 16 := by
      decide +kernel
    rw [interrupted_fdeRead.currentPc hregister]
    have hflag : (atCheck interrupted 0x101F ⟨0x100C, 19⟩).state.signalFrame = true := by
      decide +kernel
    rw [hflag]
    rfl
  have hrefused : parseFde interrupted 32 (foundFde interrupted 0x101F) =
      .done (.error einval, atCheck interrupted 0x101F ⟨0x100C, 19⟩) := by
    rw [interrupted_fdeRead.parseFde_eq, bind_of_ok hchecked, bind_of_ok (get_run _), hbegin]
    rfl
  refine ⟨callAtEnd_pc interrupted, by decide +kernel, interrupted_fdeRead, hbegin, ⟨_, hrefused⟩,
    fun hcovered => ?_⟩
  have hsame := hcovered.same
  rw [hchecked] at hsame
  exact absurd (Except.ok.inj (Prod.mk.inj (Outcome.done.inj hsame)).1) (by decide)

end UltraKernel.Unwind
