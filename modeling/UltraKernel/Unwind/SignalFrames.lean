import UltraKernel.Unwind.Errors
import UltraKernel.Unwind.Rows
import Mathlib.Data.List.Chain

/-!
# Signal frames

A frame whose CIE has an `S` in its augmentation was interrupted, not left by a call, so that the PC
found in it is exact.  `parse_cie` sets a flag for this, which `unwind_next_frame` resets before the
next frame is reached.

* `CieOf`, `HasSignal`: the CIE of a frame, and whether it says so;
* `unwindNextFrame_signalFrame`: the flag after a frame was passed;
* `walkLoop_calls`, `unwindWalk_calls`: the frames of a walk, and the calls for them;
* `signal_frames_iff`: when the frames of a chain are treated as their CIEs say.
-/

namespace UltraKernel.Unwind

open Word Program

/-! ### What is claimed of a frame -/

/-- There is an `S` in the string at the address. -/
def SignalAt (m : Machine) (address : ℕ) : Prop :=
  ∃ k, (m.mem (address + k)).toNat = 'S'.toNat ∧ ∀ j < k, (m.mem (address + j)).toNat ≠ 0

/-- The augmentation of the CIE, after its id and its version, contains an `S`. -/
def HasSignal (m : Machine) (cie : EhData) : Prop := SignalAt m (cie.cursor + 5)

/-- The CIE that is found for the frame. -/
def CieOf (m : Machine) (fuel : ℕ) (st : UnwindState) (cie : EhData) : Prop :=
  ∃ (pc fdeAddr : ℕ) (u : Unwinder),
    getReliablePc m (Unwinder.start m st) = .done (.ok pc, Unwinder.start m st) ∧
    findFde m fuel pc = .done fdeAddr ∧ maxErrno < fdeAddr ∧
    findCie m { Unwinder.start m st with data := ehDataInit m fdeAddr } = .done (.ok cie, u)

/-- `unwind_next_frame` succeeds. -/
def Succeeds (m : Machine) (fuel : ℕ) (st next : UnwindState) : Prop :=
  unwindNextFrame m fuel st = .done (eok, next)

/-- The arguments of the callback for a state. -/
def CalledFor (m : Machine) (st : UnwindState) (call : ℕ × Bool) : Prop :=
  returnAddressOf m st = .done call.1 ∧ call.2 = !st.signalFrame

/-- The PC is looked up as `pc` of the return address, and passed with `addressAfterCall`. -/
def TreatedAs (m : Machine) (pc : ℕ → ℕ) (addressAfterCall : Bool) (st : UnwindState) : Prop :=
  ∃ ra, returnAddressOf m st = .done ra ∧
    getReliablePc m (Unwinder.start m st) = .done (.ok (pc ra), Unwinder.start m st) ∧
    ∀ call, CalledFor m st call → call = (ra, addressAfterCall)

/-- The state after a frame treats the PC as the CIE of the frame says. -/
def Treats (m : Machine) (fuel : ℕ) (st next : UnwindState) : Prop :=
  ∀ cie, CieOf m fuel st cie →
    (HasSignal m cie → TreatedAs m id false next) ∧
    (¬ HasSignal m cie → TreatedAs m (fun ra => sub64 ra 1) true next)

/-- The frame's CIE has no `S`. -/
def NoSignal (m : Machine) (fuel : ℕ) (st _next : UnwindState) : Prop :=
  ∀ cie, CieOf m fuel st cie → ¬ HasSignal m cie

/-! ### Reporting errors -/

/-- The program keeps `I` while it returns values, and the codes it fails with are not `EOK`. -/
abbrev Reports {σ α : Type} (I : σ → Prop) (x : Program UnwindBug Returned σ α) : Prop :=
  Raises I (fun e => e.value ≠ eok) x

/-! ### Readers -/

section Readers

variable {m : Machine} {fuel : ℕ}

theorem unhandled_ne_eok {warning : Warning} :
    (⟨enosys, some warning⟩ : Returned).value ≠ eok := show enosys ≠ eok by decide

theorem consumeChecked_reports (numBytes : ℕ) {e : ErrorT} (he : e ≠ eok) :
    Reports Anyway (consumeChecked m numBytes e) := consumeChecked_raises numBytes he

theorem decodeFormat_reports (format outValue : ℕ) :
    Reports Anyway (decodeFormat m fuel format outValue) :=
  (decodeFormat_raises format outValue).mono fun _ => ReadError.ne_eok

theorem scalingBase_reports (encoding : ℕ) : Reports Anyway (scalingBase m encoding) :=
  (scalingBase_raises encoding).mono fun _ => ReadError.ne_eok

theorem decodeValue_reports (encoding : ℕ) : Reports Anyway (decodeValue m fuel encoding) :=
  (decodeValue_raises encoding).mono fun _ => ReadError.ne_eok

end Readers

/-! ### The unwinder -/

section Unwinder

variable {m : Machine} {fuel : ℕ} {I : UnwindState → Prop}

/-- An invariant of the state alone. -/
abbrev OnState (I : UnwindState → Prop) (u : Unwinder) : Prop := I u.state

theorem onData_reports {α : Type} {x : Reader α} (h : Reports Anyway x) :
    Reports (OnState I) (onData x) :=
  Raises.zoom h (fun _ _ => trivial) fun _ _ hu _ => hu

theorem modifyState_reports {f : UnwindState → UnwindState} (hf : ∀ st, I st → I (f st)) :
    Reports (OnState I) (modifyState f) := Raises.modify fun u hu => hf u.state hu

theorem decodeInto_reports (encoding : ℕ) {field : ℕ → UnwindState → UnwindState}
    (hfield : ∀ value st, I st → I (field value st)) :
    Reports (OnState I) (decodeInto m fuel encoding field) := by
  apply Raises.bind (onData_reports (scalingBase_reports encoding))
  intro base
  apply Raises.bind (modifyState_reports (hfield base))
  intro _
  apply Raises.bind (onData_reports (decodeFormat_reports _ base))
  intro value
  exact modifyState_reports (hfield value)

theorem frameAt_reports (idx : ℕ) : Reports (OnState I) (frameAt m idx) := by
  apply Raises.get_bind
  intro u _
  split_ifs
  · exact Raises.pure _
  · exact Raises.halt _

theorem returnAddress_reports : Reports (OnState I) (unwindGetReturnAddress m) := by
  apply Raises.get_bind
  intro u _
  split_ifs
  · exact Raises.pure _
  · exact frameAt_reports _

theorem getReliablePc_reports : Reports (OnState I) (getReliablePc m) :=
  Raises.bind returnAddress_reports fun _ => Raises.get_bind fun _ _ => Raises.pure _

theorem storeRule_reports (reg : ℕ) (rule : RegisterRule) :
    Reports (OnState I) (storeRule m reg rule) := by
  unfold storeRule setRule
  split_ifs
  · exact Raises.modify fun _ hu => hu
  · exact Raises.pure _

/-! ### CIE and FDE -/

theorem augLoop_reports (hI : ∀ st, I st → I { st with signalFrame := true }) (augIdx : ℕ) :
    Reports (OnState I) (augLoop m fuel augIdx) := by
  induction fuel generalizing augIdx with
  | zero => exact Raises.outOfFuel
  | succ fuel ih =>
    rw [augLoop]
    split_ifs
    · refine Raises.bind (onData_reports (consumeChecked_reports 1 (by decide))) fun augCh => ?_
      split_ifs
      · exact Raises.bind (modifyState_reports hI) fun _ => ih augIdx
      · exact Raises.fail unhandled_ne_eok
      · exact ih _
    · exact Raises.pure _

/-- What `parse_cie` reads after the augmentation leaves the flag and the frame as they are. -/
theorem parseCieFields_reports (hI : ∀ st st', st'.signalFrame = st.signalFrame →
    st'.frame = st.frame → st'.isEnd = st.isEnd → I st → I st') :
    Reports (OnState I) (parseCieFields m fuel) := by
  refine Raises.bind (decodeInto_reports _ fun _ _ => hI _ _ rfl rfl rfl) fun _ => ?_
  refine Raises.bind (decodeInto_reports _ fun _ _ => hI _ _ rfl rfl rfl) fun _ => ?_
  refine Raises.bind (onData_reports (decodeValue_reports _)) fun retReg => ?_
  refine Raises.bind (Raises.refuse (by decide)) fun _ => ?_
  refine Raises.bind ?_ fun _ => ?_
  · unfold setRetRegIdx
    split_ifs
    · exact modifyState_reports fun _ => hI _ _ rfl rfl rfl
    · exact Raises.halt _
  refine Raises.bind (onData_reports (decodeValue_reports _)) fun augLength => ?_
  refine Raises.bind (Raises.refuse (by decide)) fun _ => ?_
  refine Raises.bind (onData_reports (consumeChecked_reports 1 (by decide))) fun fdeEncoding => ?_
  refine Raises.bind (modifyState_reports fun _ => hI _ _ rfl rfl rfl) fun _ => ?_
  exact Raises.modify fun _ => hI _ _ rfl rfl rfl

theorem parseCie_reports (hflag : ∀ st, I st → I { st with signalFrame := true })
    (hI : ∀ st st', st'.signalFrame = st.signalFrame → st'.frame = st.frame →
      st'.isEnd = st.isEnd → I st → I st') : Reports (OnState I) (parseCie m fuel) := by
  refine Raises.bind (onData_reports (consumeChecked_reports 4 (by decide))) fun id => ?_
  refine Raises.bind (Raises.refuse (by decide)) fun _ => ?_
  refine Raises.bind (onData_reports (consumeChecked_reports 1 (by decide))) fun version => ?_
  refine Raises.bind (Raises.refuse (by decide)) fun _ => ?_
  exact Raises.bind (augLoop_reports hflag 0) fun _ => parseCieFields_reports hI

theorem ehConsume_eq_ok {size value : ℕ} {data rest : EhData}
    (h : ehConsume m size data = .done (.ok value, rest)) :
    value = readBytes m.mem data.cursor size ∧ rest.cursor = data.cursor + size := by
  rw [ehConsume, consumeChecked, bind_of_ok (get_run data)] at h
  obtain ⟨_, _, hrefuse, hraw⟩ := bind_eq_ok.mp h
  obtain ⟨_, rfl⟩ := refuse_eq_ok.mp hrefuse
  rw [consumeRaw] at hraw
  split_ifs at hraw
  obtain ⟨hvalue, rfl⟩ := Prod.mk.inj (Outcome.done.inj hraw)
  exact ⟨(Except.ok.inj hvalue).symm, rfl⟩

theorem signalAt_head {address : ℕ} (h : (m.mem address).toNat = 'S'.toNat) :
    SignalAt m address := ⟨0, h, fun j hj => absurd hj (Nat.not_lt_zero j)⟩

theorem not_signalAt_end {address : ℕ} (h : (m.mem address).toNat = 0) : ¬ SignalAt m address := by
  rintro ⟨k, hk, hbefore⟩
  cases k with
  | zero =>
    rw [Nat.add_zero, h] at hk
    exact absurd hk (by decide)
  | succ k => exact hbefore 0 (Nat.succ_pos k) h

theorem signalAt_succ {address : ℕ} (hsignal : (m.mem address).toNat ≠ 'S'.toNat)
    (hend : (m.mem address).toNat ≠ 0) : SignalAt m address ↔ SignalAt m (address + 1) := by
  constructor
  · rintro ⟨k, hk, hbefore⟩
    cases k with
    | zero => exact absurd hk hsignal
    | succ k =>
      refine ⟨k, by rwa [Nat.add_right_comm], fun j hj => ?_⟩
      have hne := hbefore (j + 1) (Nat.succ_lt_succ hj)
      rwa [← Nat.add_assoc, Nat.add_right_comm] at hne
  · rintro ⟨k, hk, hbefore⟩
    refine ⟨k + 1, by rwa [Nat.add_right_comm] at hk, fun j hj => ?_⟩
    cases j with
    | zero => exact hend
    | succ j =>
      have hne := hbefore j (Nat.lt_of_succ_lt_succ hj)
      rwa [Nat.add_right_comm] at hne

/-- **The augmentation loop** sets the flag where there is an `S`. -/
theorem augLoop_signal {augIdx : ℕ} (hidx : augIdx < 3) {u u' : Unwinder}
    (h : augLoop m fuel augIdx u = .done (.ok (), u')) :
    u'.state.signalFrame = true ↔ u.state.signalFrame = true ∨ SignalAt m u.data.cursor := by
  induction fuel generalizing augIdx u with
  | zero => cases h
  | succ fuel ih =>
    rw [augLoop, if_pos (by simpa [expectedAugString] using hidx)] at h
    obtain ⟨augCh, _, hconsume, h⟩ := bind_eq_ok.mp h
    obtain ⟨data, hread, rfl⟩ := zoom_eq_ok.mp hconsume
    obtain ⟨hch, hcursor⟩ := ehConsume_eq_ok hread
    have hbyte : augCh = (m.mem u.data.cursor).toNat := hch
    by_cases hexpected : augCh = expectedAugString.getD augIdx 0
    · rw [if_neg (not_not.mpr hexpected)] at h
      rcases Nat.lt_or_ge augIdx 2 with hinside | hlast
      · have hchar : augCh ≠ 'S'.toNat ∧ augCh ≠ 0 := by
          rw [hexpected]
          rcases (show augIdx = 0 ∨ augIdx = 1 by omega) with rfl | rfl
          · decide
          · decide
        rw [hbyte] at hchar
        rw [signalAt_succ hchar.1 hchar.2, ← hcursor]
        exact ih (show augIdx + 1 < 3 by omega) h
      · obtain rfl : augIdx = 2 := by omega
        have hnone : ¬ SignalAt m u.data.cursor := not_signalAt_end (hbyte.symm.trans hexpected)
        cases fuel with
        | zero => cases h
        | succ fuel =>
          obtain ⟨_, rfl⟩ := Prod.mk.inj (Outcome.done.inj h)
          exact ⟨.inl, fun hor => hor.resolve_right hnone⟩
    · rw [if_pos hexpected] at h
      split_ifs at h with hsignal
      · obtain ⟨_, _, hmodify, h⟩ := bind_eq_ok.mp h
        obtain ⟨_, rfl⟩ := Prod.mk.inj (Outcome.done.inj hmodify)
        have hset := (ih hidx h).mpr (.inl rfl)
        exact iff_of_true hset (.inr (signalAt_head (hbyte ▸ hsignal)))
      · cases h

/-- **`parse_cie` sets the flag** where the augmentation has an `S`. -/
theorem parseCie_signal {u u' : Unwinder} (h : parseCie m fuel u = .done (.ok (), u')) :
    u'.state.signalFrame = true ↔ u.state.signalFrame = true ∨ HasSignal m u.data := by
  obtain ⟨_, _, hid, h₁⟩ := bind_eq_ok.mp h
  obtain ⟨afterId, hreadId, rfl⟩ := zoom_eq_ok.mp hid
  obtain ⟨_, _, hrefuse, h₂⟩ := bind_eq_ok.mp h₁
  obtain ⟨_, rfl⟩ := refuse_eq_ok.mp hrefuse
  obtain ⟨_, _, hversion, h₃⟩ := bind_eq_ok.mp h₂
  obtain ⟨afterVersion, hreadVersion, rfl⟩ := zoom_eq_ok.mp hversion
  obtain ⟨_, _, hrefuse', h₄⟩ := bind_eq_ok.mp h₃
  obtain ⟨_, rfl⟩ := refuse_eq_ok.mp hrefuse'
  obtain ⟨_, middle, haug, hfields⟩ := bind_eq_ok.mp h₄
  have hcursor : afterVersion.cursor = u.data.cursor + 5 := by
    rw [(ehConsume_eq_ok hreadVersion).2]
    exact congrArg (fun cursor => cursor + 1) (ehConsume_eq_ok hreadId).2
  have hkeep : Reports (OnState fun st => st.signalFrame = middle.state.signalFrame)
      (parseCieFields m fuel) :=
    parseCieFields_reports fun _ _ hsame _ _ hst => hsame.trans hst
  have hsame : u'.state.signalFrame = middle.state.signalFrame := hkeep.of_ok rfl hfields
  rw [hsame, augLoop_signal (by decide) haug, HasSignal, ← hcursor]

theorem withData_reports {α : Type} {x : Unwinding α} (data : EhData)
    (h : Reports (OnState Anyway) x) : Reports (OnState Anyway) (withData data x) :=
  Raises.zoom h (fun _ _ => trivial) fun _ _ _ _ => trivial

theorem findCie_reports : Reports (OnState Anyway) (findCie m) := by
  refine Raises.bind (onData_reports (consumeChecked_reports 4 (by decide))) fun cieOffset => ?_
  refine Raises.bind (Raises.refuse (by decide)) fun _ => ?_
  exact Raises.get_bind fun _ _ => Raises.pure _

theorem parseFdeFields_reports : Reports (OnState Anyway) (parseFdeFields m fuel) := by
  apply Raises.get_bind
  intro _ _
  apply Raises.bind (decodeInto_reports _ fun _ _ _ => trivial)
  intro _
  apply Raises.bind (onData_reports (decodeValue_reports _))
  intro pcSize
  apply Raises.bind getReliablePc_reports
  intro currentPc
  apply Raises.get_bind
  intro _ _
  refine Raises.bind (Raises.refuse (by decide)) fun _ => ?_
  refine Raises.bind (onData_reports (consumeChecked_reports 1 (by decide))) fun augLength => ?_
  refine Raises.bind (Raises.refuse (by decide)) fun _ => ?_
  exact Raises.modify fun _ _ => trivial

theorem prepareUnwindState_reports : Reports (OnState Anyway) (prepareUnwindState m fuel) := by
  apply Raises.bind getReliablePc_reports
  intro pc
  refine Raises.bind ?_ fun pret => ?_
  · intro u _
    cases findFde m fuel pc with
    | done pret => trivial
    | halt b => trivial
    | outOfFuel => trivial
  · split_ifs with _ hnull
    · exact Raises.pure _
    · exact Raises.fail hnull
    · refine withData_reports _ (Raises.bind findCie_reports fun cie => ?_)
      have hcie : Reports (OnState Anyway) (parseCie m fuel) :=
        parseCie_reports (fun _ _ => trivial) fun _ _ _ _ _ _ => trivial
      exact Raises.bind (withData_reports cie hcie) fun _ => parseFdeFields_reports

/-! ### Instructions and rules -/

/-- The flag is not set. -/
def NoFlag (st : UnwindState) : Prop := st.signalFrame = false

theorem execOpcode_reports (opcode : ℕ) : Reports (OnState NoFlag) (execOpcode m fuel opcode) := by
  have hoffset : Reports (OnState NoFlag) (decodeInto m fuel dwEhPeUleb128
      fun value st => { st with cfaOffset := value }) := decodeInto_reports _ fun _ _ hst => hst
  unfold execOpcode
  by_cases hnop : opcode = 0x00
  · rw [if_pos hnop]
    exact Raises.pure _
  rw [if_neg hnop]
  by_cases hadvance : opcode = 0x04 ∨ opcode = 0x03 ∨ opcode = 0x02
  · rw [if_pos hadvance]
    exact Raises.bind (onData_reports (consumeChecked_reports _ (by decide))) fun delta =>
      modifyState_reports fun _ hst => hst
  rw [if_neg hadvance]
  by_cases hdefCfa : opcode = 0x0C ∨ opcode = 0x0D
  · rw [if_pos hdefCfa]
    apply Raises.bind (onData_reports (decodeValue_reports _))
    intro value
    refine Raises.bind (Raises.refuse (by decide)) fun _ => ?_
    refine Raises.bind ?_ fun _ => ?_
    · unfold setCfaRegIdx
      split_ifs
      · exact modifyState_reports fun _ hst => hst
      · exact Raises.halt _
    · split_ifs
      · exact Raises.pure _
      · exact hoffset
  rw [if_neg hdefCfa]
  split_ifs
  · exact hoffset
  · exact Raises.fail unhandled_ne_eok

theorem execStep_reports : Reports (OnState NoFlag) (execStep m fuel) := by
  refine Raises.bind (onData_reports (consumeChecked_reports 1 (by decide))) fun opcode => ?_
  split_ifs
  · exact execOpcode_reports opcode
  · exact modifyState_reports fun _ hst => hst
  · exact Raises.bind (onData_reports (decodeValue_reports _)) fun value => storeRule_reports _ _
  · exact storeRule_reports _ _
  · exact Raises.fail unhandled_ne_eok

theorem execLoop_reports (rounds : ℕ) : Reports (OnState NoFlag) (execLoop m fuel rounds) := by
  induction rounds with
  | zero => exact Raises.outOfFuel
  | succ rounds ih =>
    rw [execLoop]
    apply Raises.get_bind
    intro u _
    split_ifs
    · exact Raises.pure _
    apply Raises.bind returnAddress_reports
    intro returnAddress
    split_ifs
    · exact Raises.pure _
    · exact Raises.bind execStep_reports fun _ => ih

theorem applyRule_reports (reg : ℕ) : Reports (OnState I) (applyRule m reg) := by
  apply Raises.get_bind
  intro u _
  cases (u.rules reg).rule with
  | sameValue => exact Raises.pure _
  | offset => exact Raises.bind (frameAt_reports _) fun _ => Raises.pure _
  | defCfa => exact Raises.bind (frameAt_reports _) fun _ => Raises.pure _

theorem applyLoop_reports (left reg : ℕ) (newFrame : ℕ → ℕ) :
    Reports (OnState I) (applyLoop m left reg newFrame) := by
  induction left generalizing reg newFrame with
  | zero => exact Raises.pure _
  | succ left ih => exact Raises.bind (applyRule_reports reg) fun value => ih _ _

theorem applyRegRules_reports : Reports (OnState NoFlag) (applyRegRules m) := by
  apply Raises.bind (applyLoop_reports _ _ _)
  intro newFrame
  exact Raises.bind (modifyState_reports fun _ hst => hst) fun _ => Raises.pure _

/-- **The flag after a frame**: it is not set, whatever the CIE says. -/
theorem findRules_flag : Meets True Anyway (findRules m fuel) (fun _ u => NoFlag u.state)
    fun e _ => e.value ≠ eok := by
  have hcode : ∀ (read : UnwindState → EhData) (write : EhData → UnwindState → UnwindState),
      (∀ data st, NoFlag st → NoFlag (write data st)) →
      Reports (OnState NoFlag) (execCode m fuel read write) := fun read write hwrite =>
    Raises.zoom (execLoop_reports fuel) (fun _ hu => hu) fun _ _ _ hu => hwrite _ _ hu
  apply Meets.bind prepareUnwindState_reports
  intro _
  apply Meets.bind (Raises.modify fun _ _ => trivial : Reports (OnState Anyway) _)
  intro _
  have hreset : Meets True Anyway (modifyState fun st => { st with signalFrame := false })
      (fun _ u => NoFlag u.state) fun e _ => e.value ≠ eok := fun u _ =>
    show NoFlag { u.state with signalFrame := false } from rfl
  apply Meets.bind hreset
  intro _
  exact Raises.bind (hcode _ _ fun _ _ hst => hst) fun _ => hcode _ _ fun _ _ hst => hst

/-- The return address of a state is not changed by recording that it is 0. -/
theorem returnAddressOf_ended {st : UnwindState} {ra : ℕ} (h : returnAddressOf m st = .done ra) :
    returnAddressOf m { st with isEnd := ra = 0 } = .done ra := by
  rw [returnAddressOf] at h ⊢
  by_cases hzero : ra = 0
  · rw [if_pos (by simp [hzero]), hzero]
  · by_cases hend : st.isEnd = true
    · rw [if_pos hend] at h
      exact absurd (Outcome.done.inj h).symm hzero
    · rw [if_neg hend] at h
      rw [if_neg (by simp [hzero])]
      exact h

theorem nextFrame_flag : Meets True Anyway (nextFrame m fuel)
    (fun _ u => NoFlag u.state ∧ ∃ ra, returnAddressOf m u.state = .done ra)
    fun e _ => e.value ≠ eok := by
  apply Meets.bind findRules_flag
  intro _
  apply Meets.bind applyRegRules_reports
  intro newFrame
  have hframe : Reports (OnState NoFlag) (modifyState fun st => { st with frame := newFrame }) :=
    modifyState_reports fun _ hst => hst
  apply Meets.bind hframe
  intro _ u hu
  have hreport := returnAddress_reports (m := m) (I := NoFlag) u hu
  rw [bind_run]
  match hra : unwindGetReturnAddress m u with
  | .done (.ok ra, u') =>
    obtain ⟨rfl, hra⟩ := unwindGetReturnAddress_eq_ok.mp hra
    exact ⟨hu, ra, returnAddressOf_ended hra⟩
  | .done (.error e, u') =>
    rw [hra] at hreport
    exact hreport
  | .halt _ => trivial
  | .outOfFuel => trivial

end Unwinder

/-! ### Chains of frames -/

section Chains

variable {m : Machine} {fuel : ℕ} {st next : UnwindState}

/-- What `EOK` says: there was no warning, and the flag is not set, whatever the CIE of the frame says. -/
theorem unwindNextFrame_flag {ret : Returned} (h : unwindNextFrame m fuel st = .done (ret, next))
    (hret : ret.value = eok) :
    ret = eok ∧ next.signalFrame = false ∧ ∃ ra, returnAddressOf m next = .done ra := by
  have hflag := @nextFrame_flag m fuel (Unwinder.start m st) trivial
  rw [unwindNextFrame] at h
  split_ifs at h with hend
  · obtain ⟨rfl, -⟩ := Prod.mk.inj (Outcome.done.inj h)
    exact absurd hret (show einval ≠ eok by decide)
  · obtain ⟨⟨result, u⟩, hrun, hresult⟩ := Outcome.bind_eq_done.mp h
    rw [hrun] at hflag
    cases result with
    | ok value =>
      obtain ⟨rfl, rfl⟩ := Prod.mk.inj (Outcome.done.inj hresult)
      exact ⟨rfl, hflag⟩
    | error e =>
      obtain ⟨rfl, -⟩ := Prod.mk.inj (Outcome.done.inj hresult)
      exact absurd hret hflag

/-- **The flag after a frame was passed** is not set, whatever the CIE of the frame says. -/
theorem unwindNextFrame_signalFrame (h : Succeeds m fuel st next) :
    next.signalFrame = false ∧ ∃ ra, returnAddressOf m next = .done ra :=
  (unwindNextFrame_flag h rfl).2

/-- **One frame**: the next one is treated as its CIE says exactly when it has no `S`. -/
theorem treats_iff (h : Succeeds m fuel st next) :
    Treats m fuel st next ↔ NoSignal m fuel st next := by
  obtain ⟨hflag, ra, hra⟩ := unwindNextFrame_signalFrame h
  constructor
  · intro htreats cie hcie hsignal
    obtain ⟨ra', _, _, hcall⟩ := (htreats cie hcie).1 hsignal
    have hpassed := hcall (ra, true) ⟨hra, by rw [hflag]; rfl⟩
    exact absurd (congrArg Prod.snd hpassed) (show true ≠ false by decide)
  · intro hnone cie hcie
    refine ⟨fun hsignal => absurd hsignal (hnone cie hcie), fun _ => ⟨ra, hra, ?_, ?_⟩⟩
    · exact getReliablePc_eq_ok.mpr ⟨rfl, ra, hra, by rw [if_neg (by simp [Unwinder.start, hflag])]⟩
    · rintro call ⟨hra', hafterCall⟩
      rw [hflag] at hafterCall
      exact Prod.ext (Outcome.done.inj (hra'.symm.trans hra)) hafterCall

theorem chain_treats_iff {frames : List UnwindState} (h : frames.IsChain (Succeeds m fuel)) :
    frames.IsChain (Treats m fuel) ↔ frames.IsChain (NoSignal m fuel) := by
  induction h with
  | nil => simp
  | singleton => simp
  | cons_cons hstep _ ih => rw [List.isChain_cons_cons, List.isChain_cons_cons, treats_iff hstep, ih]

/-! ### Walks -/

theorem succeeds_of_not_end {ret : Returned} (h : unwindNextFrame m fuel st = .done (ret, next))
    (hend : next.isEnd = false) : Succeeds m fuel st next := by
  rw [Succeeds]
  rw [unwindNextFrame] at h ⊢
  split_ifs at h ⊢ with hst
  · obtain rfl := congrArg Prod.snd (Outcome.done.inj h)
    exact absurd (show st.isEnd = false from hend) (by simp [hst])
  · obtain ⟨⟨result, u⟩, hrun, hresult⟩ := Outcome.bind_eq_done.mp h
    rw [hrun]
    cases result with
    | ok value =>
      obtain rfl := congrArg Prod.snd (Outcome.done.inj hresult)
      rfl
    | error e =>
      obtain rfl := congrArg Prod.snd (Outcome.done.inj hresult)
      cases hend

/-- **The loop of `unwind_walk`** calls the callback for each frame of a chain. -/
theorem walkLoop_calls {callback : List (ℕ × Bool) → Bool} {rounds : ℕ} {ret : Returned}
    {calls : List (ℕ × Bool)} {result : Returned × List (ℕ × Bool)}
    (h : walkLoop m fuel callback rounds ret st calls = .done result) :
    ∃ frames new, (st :: frames).IsChain (Succeeds m fuel) ∧ result.2 = calls ++ new ∧
      List.Forall₂ (CalledFor m) (st :: frames) new := by
  induction rounds generalizing ret st calls with
  | zero => cases h
  | succ rounds ih =>
    obtain ⟨ra, hra, h⟩ := Outcome.bind_eq_done.mp h
    have hcall : CalledFor m st (ra, !st.signalFrame) := ⟨hra, rfl⟩
    have hlast : ∀ ret', result = (ret', calls ++ [(ra, !st.signalFrame)]) → ∃ frames new,
        (st :: frames).IsChain (Succeeds m fuel) ∧ result.2 = calls ++ new ∧
          List.Forall₂ (CalledFor m) (st :: frames) new := by
      rintro ret' rfl
      exact ⟨[], _, .singleton _, rfl, .cons hcall .nil⟩
    dsimp only at h
    by_cases hstop : callback (calls ++ [(ra, !st.signalFrame)]) = true
    · rw [if_neg (not_not.mpr hstop)] at h
      obtain ⟨⟨ret', next⟩, hnext, h⟩ := Outcome.bind_eq_done.mp h
      dsimp only at h
      by_cases hend : next.isEnd = true
      · rw [if_neg (not_not.mpr hend)] at h
        exact hlast ret' (Outcome.done.inj h).symm
      · rw [if_pos hend] at h
        obtain ⟨frames, new, hchain, hresult, hcalls⟩ := ih h
        have hstep : Succeeds m fuel st next := succeeds_of_not_end hnext (by simpa using hend)
        exact ⟨next :: frames, _ :: new, .cons_cons hstep hchain, by rw [hresult]; simp,
          .cons hcall hcalls⟩
    · rw [if_pos hstop] at h
      exact hlast ret (Outcome.done.inj h).symm

/-- **The loop of `unwind_current_begin`** passes the frames of a chain. -/
theorem unwindCurrentBegin_chain {startingPc rounds : ℕ} {ret : Returned}
    (h : unwindCurrentBegin m fuel startingPc rounds st = .done (ret, next)) (hret : ret.value = eok) :
    ∃ frames, (st :: frames ++ [next]).IsChain (Succeeds m fuel) := by
  induction rounds generalizing st with
  | zero => cases h
  | succ rounds ih =>
    obtain ⟨⟨passedRet, passed⟩, hpassed, h⟩ := Outcome.bind_eq_done.mp h
    obtain ⟨ra, _, h⟩ := Outcome.bind_eq_done.mp h
    split_ifs at h with hloop
    · obtain ⟨frames, hchain⟩ := ih h
      exact ⟨passed :: frames, .cons_cons (succeeds_of_not_end hpassed (by simpa using hloop.1)) hchain⟩
    · obtain ⟨rfl, rfl⟩ := Prod.mk.inj (Outcome.done.inj h)
      obtain ⟨rfl, -⟩ := unwindNextFrame_flag hpassed hret
      exact ⟨[], .cons_cons hpassed (.singleton _)⟩

/-- **A walk** passes the frames of a chain, and calls the callback for the last of them. -/
theorem unwindWalk_calls {currentFrame : ℕ → ℕ} {regs : Option (ℕ → ℕ)} {startingPc : ℕ}
    {callback : List (ℕ × Bool) → Bool} {ret : Returned} {calls : List (ℕ × Bool)}
    (h : unwindWalk m fuel currentFrame regs startingPc callback = .done (ret, calls)) :
    ∃ uncalled called, (uncalled ++ called).IsChain (Succeeds m fuel) ∧
      List.Forall₂ (CalledFor m) called calls ∧
      ∀ first ∈ (uncalled ++ called).head?,
        first = initialState m (regs.getD currentFrame) regs.isSome := by
  have hnone : calls = [] → ∃ uncalled called,
      (uncalled ++ called).IsChain (Succeeds m fuel) ∧ List.Forall₂ (CalledFor m) called calls ∧
      ∀ first ∈ (uncalled ++ called).head?,
        first = initialState m (regs.getD currentFrame) regs.isSome := by
    rintro rfl
    exact ⟨[], [], .nil, .nil, by simp⟩
  obtain ⟨begun, hbegun, h⟩ := Outcome.bind_eq_done.mp h
  cases begun with
  | error e => exact hnone (congrArg Prod.snd (Outcome.done.inj h)).symm
  | ok begun =>
    obtain ⟨begunRet, st⟩ := begun
    dsimp only at h
    split_ifs at h with hret
    · exact hnone (congrArg Prod.snd (Outcome.done.inj h)).symm
    · obtain ⟨frames, new, hchain, hnew, hcalls⟩ := walkLoop_calls h
      rw [List.nil_append] at hnew
      subst hnew
      rw [not_not] at hret
      cases regs with
      | none =>
        rw [unwindBegin] at hbegun
        split_ifs at hbegun with havailable
        · obtain ⟨begun, hrun, hbegun⟩ := Outcome.bind_eq_done.mp hbegun
          obtain rfl := Except.ok.inj (Outcome.done.inj hbegun)
          obtain ⟨before, hbefore⟩ := unwindCurrentBegin_chain hrun hret
          exact ⟨initialState m currentFrame false :: before, st :: frames,
            List.isChain_split.mpr ⟨hbefore, hchain⟩, hcalls, by simp⟩
        · cases hbegun
      | some frame =>
        rw [unwindBegin] at hbegun
        split_ifs at hbegun with havailable
        · obtain ⟨_, rfl⟩ := Prod.mk.inj (Except.ok.inj (Outcome.done.inj hbegun))
          exact ⟨[], _, hchain, hcalls, by simp⟩
        · cases hbegun

end Chains

/-- **Signal frames**: along every chain of frames, the next PC is looked up and passed on as the CIE
of the frame says exactly when no frame that was passed has an `S` in its CIE; and the calls of every
walk are for the frames of such a chain, from the one that it begins with. -/
theorem signal_frames_iff (m : Machine) (fuel : ℕ) :
    (∀ frames : List UnwindState, frames.IsChain (Succeeds m fuel) →
      (frames.IsChain (Treats m fuel) ↔ frames.IsChain (NoSignal m fuel))) ∧
    ∀ (currentFrame : ℕ → ℕ) (regs : Option (ℕ → ℕ)) (startingPc : ℕ)
      (callback : List (ℕ × Bool) → Bool) (ret : Returned) (calls : List (ℕ × Bool)),
      unwindWalk m fuel currentFrame regs startingPc callback = .done (ret, calls) →
      ∃ uncalled called, (uncalled ++ called).IsChain (Succeeds m fuel) ∧
        List.Forall₂ (CalledFor m) called calls ∧
        ∀ first ∈ (uncalled ++ called).head?,
          first = initialState m (regs.getD currentFrame) regs.isSome :=
  ⟨fun _ => chain_treats_iff, fun _ _ _ _ _ _ => unwindWalk_calls⟩

/-- An FDE of the addresses from 0x2000 up to 0x2010 whose CIE has the augmentation `zRS`, and the
stack of an interrupt at 0x2004 that was itself taken at 0x2000. -/
def interrupted : Machine := machineOf [
  0x00, 0x20, 0x00, 0x00, 0x1F, 0x10, 0x00, 0x00,
  0x13, 0x00, 0x00, 0x00, 0x00, 0x00, 0x00, 0x00, 0x01, 0x7A, 0x52, 0x53, 0x00, 0x01, 0x78, 0x10,
  0x01, 0x03, 0x0C, 0x07, 0x08, 0x90, 0x01,
  0x0D, 0x00, 0x00, 0x00, 0x1B, 0x00, 0x00, 0x00, 0x00, 0x20, 0x00, 0x00, 0x10, 0x00, 0x00, 0x00,
  0x00,
  0x00, 0x20, 0x00, 0x00, 0x00, 0x00, 0x00, 0x00]

/-- The registers at 0x2004. -/
def interruptedRegs (reg : ℕ) : ℕ := if reg = 16 then 0x2004 else 0x1030

/-- **A signal frame is not told from a call**: after the frame with the `S`, the PC 0x2000 is looked
up as 0x1FFF, and `address_after_call` is passed for it. -/
theorem signal_frames_interrupted :
    CieOf interrupted 32 (initialState interrupted interruptedRegs true) ⟨0x100C, 19⟩ ∧
      HasSignal interrupted ⟨0x100C, 19⟩ ∧
      (∃ next, Succeeds interrupted 32 (initialState interrupted interruptedRegs true) next ∧
        returnAddressOf interrupted next = .done 0x2000 ∧
        getReliablePc interrupted (Unwinder.start interrupted next) =
          .done (.ok 0x1FFF, Unwinder.start interrupted next) ∧
        ¬ Treats interrupted 32 (initialState interrupted interruptedRegs true) next) ∧
      unwindWalk interrupted 32 interruptedRegs (some interruptedRegs) 0
        (fun calls => calls.length < 2) = .done (eok, [(0x2004, false), (0x2000, true)]) := by
  have hcie : CieOf interrupted 32 (initialState interrupted interruptedRegs true) ⟨0x100C, 19⟩ :=
    ⟨_, _, _, rfl, rfl, by decide, rfl⟩
  have hsignal : HasSignal interrupted ⟨0x100C, 19⟩ := ⟨2, by decide, by decide⟩
  have hnext : (unwindNextFrame interrupted 32
      (initialState interrupted interruptedRegs true)).value?.map (fun q => (q.1,
        returnAddressOf interrupted q.2)) = some (⟨eok, none⟩, .done 0x2000) := by
    decide +kernel
  have hwalk : unwindWalk interrupted 32 interruptedRegs (some interruptedRegs) 0
      (fun calls => calls.length < 2) = .done (eok, [(0x2004, false), (0x2000, true)]) := by
    decide +kernel
  obtain ⟨⟨ret, next⟩, hvalue, hpair⟩ := Option.map_eq_some_iff.mp hnext
  obtain ⟨rfl, hra⟩ := Prod.mk.inj hpair
  have hsucceeds : Succeeds interrupted 32 _ next := Outcome.value?_eq_some.mp hvalue
  have hflag := (unwindNextFrame_signalFrame hsucceeds).1
  refine ⟨hcie, hsignal, ⟨next, hsucceeds, hra, ?_, fun htreats => ?_⟩, hwalk⟩
  · refine getReliablePc_eq_ok.mpr ⟨rfl, 0x2000, hra, ?_⟩
    rw [if_neg (by simp [Unwinder.start, hflag])]
    decide
  · exact (treats_iff hsucceeds).mp htreats _ hcie hsignal

end UltraKernel.Unwind
