import UltraKernel.Unwind.SignalFrames
import UltraKernel.Unwind.Rows

/-!
# Walks over a call stack

A call stack is what the rows of call frame information say: in each frame, the row that is found has
the registers of the caller, up to a frame whose caller has the PC 0.

* `Unwinder.next`: the state behind a frame;
* `CallStack`: the callers of a state, one behind the other;
* `walkLoop_callStack`, `unwindWalk_registers`: the callback is called for each of them;
* `unwindCurrentBegin_callStack`, `unwindWalk_current`: so it is from a PC on, if there is one.
-/

namespace UltraKernel.Unwind

open Word Program

/-! ### One frame -/

/-- The state in the next frame. -/
def Unwinder.next (m : Machine) (u : Unwinder) : UnwindState :=
  let frame := fun reg => if reg < m.arch.numRegisters then (rowOf u).register m u.state reg else 0
  { u.state with
    frame := frame
    cfaRegIdx := m.arch.spReg
    cfaOffset := 0
    isEnd := frame u.state.retRegIdx = 0 }

/-- From a state, the unwinder finds the row that has the registers of the caller. -/
structure Passes (m : Machine) (fuel : ℕ) (st : UnwindState) (u : Unwinder) (caller : ℕ → ℕ) :
    Prop where
  running : st.isEnd = false
  rules : findRules m fuel (Unwinder.start m st) = .done (.ok (), u)
  remains : u.state.isEnd = false
  retReg : u.state.retRegIdx = m.arch.pcReg
  cfaReg : u.state.cfaRegIdx < m.arch.numRegisters
  finds : ∀ reg < m.arch.numRegisters, (rowOf u).register m u.state reg = caller reg

/-- **A call stack**: the registers of the callers of a state. -/
inductive CallStack (m : Machine) (fuel : ℕ) : UnwindState → List (ℕ → ℕ) → Prop where
  | outermost {st u caller} (h : Passes m fuel st u caller) (hend : caller m.arch.pcReg = 0) :
    CallStack m fuel st []
  | call {st u caller callers} (h : Passes m fuel st u caller) (hpc : caller m.arch.pcReg ≠ 0)
    (hrest : CallStack m fuel (u.next m) callers) : CallStack m fuel st (caller :: callers)

section Frames

variable {m : Machine} {fuel : ℕ} {st next : UnwindState} {u : Unwinder} {caller : ℕ → ℕ}
  {callers : List (ℕ → ℕ)}

/-- The loop of `apply_reg_rules` sets the registers one after the other. -/
theorem applyLoop_eq (hcfa : u.state.cfaRegIdx < m.arch.numRegisters) (left reg : ℕ)
    (newFrame : ℕ → ℕ) :
    applyLoop m left reg newFrame u = .done (.ok fun i =>
      if reg ≤ i ∧ i < reg + left then (rowOf u).register m u.state i else newFrame i, u) := by
  induction left generalizing reg newFrame with
  | zero =>
    have hframe : (fun i => if reg ≤ i ∧ i < reg + 0 then (rowOf u).register m u.state i
        else newFrame i) = newFrame := by
      funext i
      rw [if_neg (by omega)]
    rw [hframe]
    rfl
  | succ left ih =>
    rw [applyLoop, bind_of_ok (applyRule_run hcfa reg), ih]
    have hframe : (fun i => if reg + 1 ≤ i ∧ i < reg + 1 + left then (rowOf u).register m u.state i
        else Function.update newFrame reg ((rowOf u).register m u.state reg) i) =
        fun i => if reg ≤ i ∧ i < reg + (left + 1) then (rowOf u).register m u.state i
          else newFrame i := by
      funext i
      rcases Nat.lt_trichotomy i reg with hlt | rfl | hgt
      · rw [if_neg (by omega), if_neg (by omega), Function.update_of_ne (by omega)]
      · rw [if_neg (by omega), if_pos (by omega), Function.update_self]
      · by_cases hin : i < reg + 1 + left
        · rw [if_pos (by omega), if_pos (by omega)]
        · rw [if_neg (by omega), if_neg (by omega), Function.update_of_ne (by omega)]
    rw [hframe]

/-- **The next frame** is the caller's. -/
theorem Passes.unwindNextFrame_eq (h : Passes m fuel st u caller) :
    unwindNextFrame m fuel st = .done (eok, u.next m) := by
  have hframe : (fun i => if 0 ≤ i ∧ i < 0 + m.arch.numRegisters then (rowOf u).register m u.state i
      else 0) = (u.next m).frame := by
    funext i
    rw [Nat.zero_add]
    exact if_congr (and_iff_right (Nat.zero_le i)) rfl rfl
  have happly : applyRegRules m u = .done (.ok (u.next m).frame, { u with
      state := { u.state with cfaRegIdx := m.arch.spReg, cfaOffset := 0 } }) := by
    rw [applyRegRules, bind_of_ok (applyLoop_eq h.cfaReg _ _ _), hframe]
    rfl
  let applied : UnwindState :=
    { u.state with frame := (u.next m).frame, cfaRegIdx := m.arch.spReg, cfaOffset := 0 }
  have hra : returnAddressOf m applied = .done ((u.next m).frame u.state.retRegIdx) := by
    have hend : applied.isEnd = false := h.remains
    rw [returnAddressOf, if_neg (by rw [hend]; exact Bool.false_ne_true),
      if_pos (show u.state.retRegIdx < _ by rw [h.retReg]; exact m.arch.pcReg_lt)]
  have hnext : nextFrame m fuel (Unwinder.start m st) =
      .done (.ok (), { u with state := u.next m }) := by
    rw [nextFrame, bind_of_ok h.rules, bind_of_ok happly, modifyState, bind_of_ok (modify_run _ _)]
    exact bind_of_ok (unwindGetReturnAddress_eq_ok.mpr ⟨rfl, hra⟩)
  rw [unwindNextFrame, if_neg (by rw [h.running]; exact Bool.false_ne_true), hnext]
  rfl

theorem Passes.next_frame (h : Passes m fuel st u caller) {reg : ℕ} (hreg : reg < m.arch.numRegisters) :
    (u.next m).frame reg = caller reg := by
  show (if reg < m.arch.numRegisters then (rowOf u).register m u.state reg else 0) = caller reg
  rw [if_pos hreg, h.finds reg hreg]

theorem Passes.next_isEnd (h : Passes m fuel st u caller) :
    (u.next m).isEnd = decide (caller m.arch.pcReg = 0) := by
  rw [← h.next_frame m.arch.pcReg_lt, ← h.retReg]
  rfl

/-- The address in the next frame. -/
theorem Passes.next_returnAddress (h : Passes m fuel st u caller) :
    returnAddressOf m (u.next m) = .done (caller m.arch.pcReg) := by
  rw [returnAddressOf, h.next_isEnd]
  have hret : (u.next m).retRegIdx = m.arch.pcReg := h.retReg
  rw [hret, if_pos m.arch.pcReg_lt, h.next_frame m.arch.pcReg_lt]
  by_cases hend : caller m.arch.pcReg = 0
  · rw [if_pos (decide_eq_true hend), hend]
  · rw [if_neg (by simpa using hend)]

theorem Passes.next_signalFrame (h : Passes m fuel st u caller) : (u.next m).signalFrame = false :=
  (unwindNextFrame_signalFrame h.unwindNextFrame_eq).1

/-! ### Walks -/

/-- The calls that are made of those that are left: up to the first that is answered with a no. -/
def answered (callback : List (ℕ × Bool) → Bool) : List (ℕ × Bool) → List (ℕ × Bool) → List (ℕ × Bool)
  | calls, [] => calls
  | calls, call :: left =>
    if callback (calls ++ [call]) then answered callback (calls ++ [call]) left else calls ++ [call]

/-- All of them are made if each is answered with a yes. -/
theorem answered_all (calls left : List (ℕ × Bool)) :
    answered (fun _ => true) calls left = calls ++ left := by
  induction left generalizing calls with
  | nil => exact (List.append_nil calls).symm
  | cons call left ih => rw [answered, if_pos rfl, ih, List.append_assoc, List.singleton_append]

/-- The calls for the callers: their addresses are behind calls. -/
def callsFor (m : Machine) (callers : List (ℕ → ℕ)) : List (ℕ × Bool) :=
  callers.map fun caller => (caller m.arch.pcReg, true)

/-- A round of `unwind_walk`. -/
theorem walkLoop_round (h : Passes m fuel st u caller) (callback : List (ℕ × Bool) → Bool)
    {ra : ℕ} (hra : returnAddressOf m st = .done ra) (rounds : ℕ) (calls : List (ℕ × Bool)) :
    walkLoop m fuel callback (rounds + 1) eok st calls =
      if callback (calls ++ [(ra, !st.signalFrame)]) = true ∧ caller m.arch.pcReg ≠ 0 then
        walkLoop m fuel callback rounds eok (u.next m) (calls ++ [(ra, !st.signalFrame)])
      else .done (eok, calls ++ [(ra, !st.signalFrame)]) := by
  rw [walkLoop, hra, Outcome.done_bind]
  dsimp only
  rw [h.unwindNextFrame_eq, Outcome.done_bind]
  dsimp only
  rw [h.next_isEnd]
  by_cases hmore : callback (calls ++ [(ra, !st.signalFrame)]) = true
  · rw [if_neg (not_not.mpr hmore)]
    by_cases hpc : caller m.arch.pcReg = 0
    · rw [if_neg (by simpa using hpc), if_neg (fun hand => hand.2 hpc)]
      rfl
    · rw [if_pos (by simpa using hpc), if_pos ⟨hmore, hpc⟩]
  · rw [if_pos hmore, if_neg (fun hand => hmore hand.1)]
    rfl

/-- **The loop of `unwind_walk`** calls the callback for a state and all its callers, until it is told
to stop. -/
theorem walkLoop_callStack (h : CallStack m fuel st callers) (callback : List (ℕ × Bool) → Bool)
    {rounds ra : ℕ} (hra : returnAddressOf m st = .done ra) (hrounds : callers.length < rounds)
    (calls : List (ℕ × Bool)) :
    walkLoop m fuel callback rounds eok st calls =
      .done (eok, answered callback calls ((ra, !st.signalFrame) :: callsFor m callers)) := by
  induction h generalizing rounds ra calls with
  | outermost h hend =>
    obtain ⟨rounds, rfl⟩ : ∃ n, rounds = n + 1 := ⟨rounds - 1, by omega⟩
    rw [walkLoop_round h callback hra, if_neg (fun hand => hand.2 hend), callsFor, List.map_nil,
      answered]
    split_ifs
    · rfl
    · rfl
  | call h hpc hrest ih =>
    obtain ⟨rounds, rfl⟩ : ∃ n, rounds = n + 1 := ⟨rounds - 1, by omega⟩
    rw [List.length_cons] at hrounds
    rw [walkLoop_round h callback hra, answered]
    split_ifs with hmore hmore' hmore'
    · rw [ih h.next_returnAddress (by omega), h.next_signalFrame]
      rfl
    · exact absurd hmore.1 hmore'
    · exact absurd ⟨hmore', hpc⟩ hmore
    · rfl

/-- A state whose registers are given: the first call is for its own PC. -/
theorem initialState_returnAddress (m : Machine) (frame : ℕ → ℕ) (signalFrame : Bool) :
    returnAddressOf m (initialState m frame signalFrame) = .done (frame m.arch.pcReg) := by
  rw [returnAddressOf, if_neg (show ¬ (initialState m frame signalFrame).isEnd = true from
    Bool.false_ne_true)]
  exact if_pos m.arch.pcReg_lt

/-- **The loop of `unwind_current_begin`** passes the callers up to the first with the PC. -/
theorem unwindCurrentBegin_callStack {before : List (ℕ → ℕ)} {target : ℕ → ℕ} {rounds : ℕ}
    (h : CallStack m fuel st (before ++ target :: callers)) (hrounds : before.length < rounds)
    (hbefore : ∀ caller ∈ before, caller m.arch.pcReg ≠ target m.arch.pcReg) :
    ∃ st', unwindCurrentBegin m fuel (target m.arch.pcReg) rounds st = .done (eok, st') ∧
      CallStack m fuel st' callers ∧
      returnAddressOf m st' = .done (target m.arch.pcReg) ∧ st'.signalFrame = false := by
  induction before generalizing st rounds with
  | nil =>
    obtain ⟨rounds, rfl⟩ : ∃ n, rounds = n + 1 := ⟨rounds - 1, by omega⟩
    cases h with
    | call h hpc hrest =>
      refine ⟨_, ?_, hrest, h.next_returnAddress, h.next_signalFrame⟩
      rw [unwindCurrentBegin, h.unwindNextFrame_eq, Outcome.done_bind]
      dsimp only
      rw [h.next_returnAddress, Outcome.done_bind, if_neg (fun hand => hand.2 rfl)]
      rfl
  | cons first before ih =>
    obtain ⟨rounds, rfl⟩ : ∃ n, rounds = n + 1 := ⟨rounds - 1, by omega⟩
    cases h with
    | call h hpc hrest =>
      obtain ⟨st', hrun, hstack, hra, hsignal⟩ := @ih _ rounds hrest
        (by rw [List.length_cons] at hrounds; omega)
        fun caller hcaller => hbefore caller (List.mem_cons_of_mem _ hcaller)
      refine ⟨st', ?_, hstack, hra, hsignal⟩
      rw [unwindCurrentBegin, h.unwindNextFrame_eq, Outcome.done_bind]
      dsimp only
      rw [h.next_returnAddress, Outcome.done_bind, h.next_isEnd,
        if_pos ⟨by simpa using hpc, hbefore first List.mem_cons_self⟩, hrun]

/-- Without such a caller, it passes all of them and ends. -/
theorem unwindCurrentBegin_absent {startingPc rounds : ℕ} (h : CallStack m fuel st callers)
    (hrounds : callers.length < rounds)
    (habsent : ∀ caller ∈ callers, caller m.arch.pcReg ≠ startingPc) :
    ∃ st', unwindCurrentBegin m fuel startingPc rounds st = .done (eok, st') ∧
      st'.isEnd = true ∧ st'.signalFrame = false := by
  induction h generalizing rounds with
  | outermost h hend =>
    obtain ⟨rounds, rfl⟩ : ∃ n, rounds = n + 1 := ⟨rounds - 1, by omega⟩
    have hisEnd := h.next_isEnd.trans (decide_eq_true hend)
    refine ⟨_, ?_, hisEnd, h.next_signalFrame⟩
    rw [unwindCurrentBegin, h.unwindNextFrame_eq, Outcome.done_bind]
    dsimp only
    rw [h.next_returnAddress, Outcome.done_bind, if_neg (fun hand => hand.1 hisEnd)]
    rfl
  | call h hpc hrest ih =>
    obtain ⟨rounds, rfl⟩ : ∃ n, rounds = n + 1 := ⟨rounds - 1, by omega⟩
    rw [List.length_cons] at hrounds
    obtain ⟨st', hrun, hisEnd, hsignal⟩ := @ih rounds (by omega)
      fun caller hcaller => habsent caller (List.mem_cons_of_mem _ hcaller)
    refine ⟨st', ?_, hisEnd, hsignal⟩
    rw [unwindCurrentBegin, h.unwindNextFrame_eq, Outcome.done_bind]
    dsimp only
    rw [h.next_returnAddress, Outcome.done_bind, h.next_isEnd,
      if_pos ⟨by simpa using hpc, habsent _ List.mem_cons_self⟩, hrun]

/-- **A walk from registers** goes over the whole stack. -/
theorem unwindWalk_registers (havailable : m.unwinderAvailable = true) {frame : ℕ → ℕ}
    (h : CallStack m fuel (initialState m frame true) callers) (hfuel : callers.length < fuel)
    (currentFrame : ℕ → ℕ) (startingPc : ℕ) (callback : List (ℕ × Bool) → Bool) :
    unwindWalk m fuel currentFrame (some frame) startingPc callback =
      .done (eok, answered callback [] ((frame m.arch.pcReg, false) :: callsFor m callers)) := by
  have hbegin : unwindBegin m fuel currentFrame (some frame) startingPc =
      .done (.ok (eok, initialState m frame true)) := by
    rw [unwindBegin, if_neg (not_not.mpr havailable)]
    rfl
  rw [unwindWalk, hbegin, Outcome.done_bind]
  dsimp only
  rw [if_neg (not_not.mpr rfl),
    walkLoop_callStack h callback (initialState_returnAddress m frame true) hfuel]
  rfl

theorem unwindBegin_current (havailable : m.unwinderAvailable = true) {currentFrame : ℕ → ℕ}
    {startingPc : ℕ}
    (hrun : unwindCurrentBegin m fuel startingPc fuel (initialState m currentFrame false) =
      .done (eok, st)) :
    unwindBegin m fuel currentFrame none startingPc = .done (.ok (eok, st)) := by
  rw [unwindBegin, if_neg (not_not.mpr havailable)]
  show (unwindCurrentBegin m fuel startingPc fuel (initialState m currentFrame false) >>= _) = _
  rw [hrun]
  rfl

/-- **A walk from the current frame** goes over the stack from the first caller with the PC on. -/
theorem unwindWalk_current (havailable : m.unwinderAvailable = true) {currentFrame : ℕ → ℕ}
    {before : List (ℕ → ℕ)} {target : ℕ → ℕ}
    (h : CallStack m fuel (initialState m currentFrame false) (before ++ target :: callers))
    (hfuel : before.length + callers.length < fuel)
    (hbefore : ∀ caller ∈ before, caller m.arch.pcReg ≠ target m.arch.pcReg)
    (callback : List (ℕ × Bool) → Bool) :
    unwindWalk m fuel currentFrame none (target m.arch.pcReg) callback =
      .done (eok, answered callback [] (callsFor m (target :: callers))) := by
  obtain ⟨st', hrun, hstack, hra, hsignal⟩ :=
    unwindCurrentBegin_callStack h (show before.length < fuel by omega) hbefore
  have hwalk := walkLoop_callStack hstack callback hra (show callers.length < fuel by omega) []
  rw [hsignal] at hwalk
  rw [unwindWalk, unwindBegin_current havailable hrun, Outcome.done_bind]
  exact (if_neg (not_not.mpr rfl)).trans hwalk

/-- **A walk from a PC that no caller has** calls the callback once, for the address 0. -/
theorem unwindWalk_absent (havailable : m.unwinderAvailable = true) {currentFrame : ℕ → ℕ}
    (h : CallStack m fuel (initialState m currentFrame false) callers) (hfuel : callers.length < fuel)
    {startingPc : ℕ} (habsent : ∀ caller ∈ callers, caller m.arch.pcReg ≠ startingPc)
    (callback : List (ℕ × Bool) → Bool) :
    unwindWalk m fuel currentFrame none startingPc callback =
      .done (if callback [(0, true)] then einval else eok, [(0, true)]) := by
  obtain ⟨st', hrun, hisEnd, hsignal⟩ := unwindCurrentBegin_absent h hfuel habsent
  obtain ⟨rounds, rfl⟩ : ∃ n, fuel = n + 1 := ⟨fuel - 1, by omega⟩
  rw [unwindWalk, unwindBegin_current havailable hrun, Outcome.done_bind]
  dsimp only
  rw [if_neg (not_not.mpr rfl), walkLoop, returnAddressOf, if_pos hisEnd, Outcome.done_bind, hsignal]
  dsimp only
  rw [unwindNextFrame, if_pos hisEnd, Outcome.done_bind]
  dsimp only
  rw [if_neg (not_not.mpr hisEnd), List.nil_append]
  show (if ¬ callback [(0, true)] = true then Outcome.done ((eok : Returned), [(0, true)])
    else Outcome.done ((einval : Returned), [(0, true)])) = _
  split_ifs
  · rfl
  · rfl

/-- **`unwind_walk` over a call stack.**  From given registers, the callback is called for their PC,
which is an address to be executed, and for the PC of each caller, which is behind a call; from the
current frame, for the callers from the first with the given PC on.  It is called in this order, until
it asks to stop or the stack ends, and the walk succeeds.  If no caller has the given PC, it is called
once, for the address 0. -/
theorem unwindWalk_callStack (havailable : m.unwinderAvailable = true)
    (callback : List (ℕ × Bool) → Bool) (currentFrame : ℕ → ℕ) :
    (∀ frame callers startingPc, CallStack m fuel (initialState m frame true) callers →
      callers.length < fuel →
      unwindWalk m fuel currentFrame (some frame) startingPc callback =
        .done (eok, answered callback [] ((frame m.arch.pcReg, false) :: callsFor m callers))) ∧
    (∀ before target callers,
      CallStack m fuel (initialState m currentFrame false) (before ++ target :: callers) →
      before.length + callers.length < fuel →
      (∀ caller ∈ before, caller m.arch.pcReg ≠ target m.arch.pcReg) →
      unwindWalk m fuel currentFrame none (target m.arch.pcReg) callback =
        .done (eok, answered callback [] (callsFor m (target :: callers)))) ∧
    (∀ callers startingPc, CallStack m fuel (initialState m currentFrame false) callers →
      callers.length < fuel → (∀ caller ∈ callers, caller m.arch.pcReg ≠ startingPc) →
      unwindWalk m fuel currentFrame none startingPc callback =
        .done (if callback [(0, true)] then einval else eok, [(0, true)])) :=
  ⟨fun _ _ startingPc h hfuel =>
      unwindWalk_registers havailable h hfuel currentFrame startingPc callback,
    fun _ _ _ h hfuel hbefore => unwindWalk_current havailable h hfuel hbefore callback,
    fun _ _ h hfuel habsent => unwindWalk_absent havailable h hfuel habsent callback⟩

end Frames

/-! ### A stack of two frames -/

/-- An FDE of the addresses from 0x2000 up to 0x2010, and a stack with the return address 0x2005. -/
def twoCalls : Machine := machineOf [
  0x00, 0x20, 0x00, 0x00, 0x1E, 0x10, 0x00, 0x00,
  0x12, 0x00, 0x00, 0x00, 0x00, 0x00, 0x00, 0x00, 0x01, 0x7A, 0x52, 0x00, 0x01, 0x78, 0x10, 0x01,
  0x03, 0x0C, 0x07, 0x08, 0x90, 0x01,
  0x0D, 0x00, 0x00, 0x00, 0x1A, 0x00, 0x00, 0x00, 0x00, 0x20, 0x00, 0x00, 0x10, 0x00, 0x00, 0x00,
  0x00,
  0x05, 0x20, 0x00, 0x00, 0x00, 0x00, 0x00, 0x00]

/-- The registers at a PC with a stack pointer. -/
def stoppedAt (pc sp reg : ℕ) : ℕ := if reg = 16 then pc else if reg = 7 then sp else 0

/-- What the unwinder finds from a state. -/
def foundFrom (m : Machine) (fuel : ℕ) (st : UnwindState) : Unwinder :=
  ((findRules m fuel (Unwinder.start m st)).value?.map Prod.snd).getD (Unwinder.start m st)

theorem passes_of_run {m : Machine} {fuel : ℕ} {st : UnwindState} {caller : ℕ → ℕ}
    (hrunning : st.isEnd = false)
    (h : (findRules m fuel (Unwinder.start m st)).value?.map (fun q => (q.1, q.2.state.isEnd,
        q.2.state.retRegIdx, decide (q.2.state.cfaRegIdx < m.arch.numRegisters),
        (List.range m.arch.numRegisters).map ((rowOf q.2).register m q.2.state))) =
      some (.ok (), false, m.arch.pcReg, true, (List.range m.arch.numRegisters).map caller)) :
    Passes m fuel st (foundFrom m fuel st) caller := by
  obtain ⟨⟨ret, u⟩, hvalue, heq⟩ := Option.map_eq_some_iff.mp h
  simp only [Prod.mk.injEq, decide_eq_true_eq] at heq
  obtain ⟨rfl, hend, hret, hcfa, hregs⟩ := heq
  have hfound : foundFrom m fuel st = u := by rw [foundFrom, hvalue]; rfl
  rw [hfound]
  refine ⟨hrunning, Outcome.value?_eq_some.mp hvalue, hend, hret, hcfa, fun reg hreg => ?_⟩
  exact List.map_inj_left.mp hregs reg (List.mem_range.mpr hreg)

theorem twoCalls_callStack : CallStack twoCalls 32
    (initialState twoCalls (stoppedAt 0x2003 0x102F) true) [stoppedAt 0x2005 0x1037] :=
  .call (passes_of_run rfl (by decide +kernel)) (by decide)
    (.outermost (@passes_of_run _ _ _ (stoppedAt 0 0x103F) (by decide +kernel)
      (by decide +kernel)) rfl)

theorem twoCalls_current : CallStack twoCalls 300
    (initialState twoCalls (stoppedAt 0x2003 0x102F) false) [stoppedAt 0x2005 0x1037] :=
  .call (passes_of_run rfl (by decide +kernel)) (by decide)
    (.outermost (@passes_of_run _ _ _ (stoppedAt 0 0x103F) (by decide +kernel)
      (by decide +kernel)) rfl)

/-- From the registers at 0x2003, for both frames. -/
theorem unwindWalk_callStack_twoCalls :
    unwindWalk twoCalls 32 (fun _ => 0) (some (stoppedAt 0x2003 0x102F)) 0 (fun _ => true) =
      .done (eok, [(0x2003, false), (0x2005, true)]) :=
  (unwindWalk_callStack rfl (fun _ => true) fun _ => 0).1 _ _ 0 twoCalls_callStack (by decide)

end UltraKernel.Unwind
