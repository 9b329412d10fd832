import UltraKernel.Unwind.Model

/-!
# Reads and indices of the unwinder

Whatever the bytes are, a reader that is given some bytes reads no others, and the registers that
the state names exist.  Every loop consumes a byte in each round, so that it ends.

* `Reads`, `Within`: the invariants, of the data and of the state;
* `decodeValue_keeps`, `parseCie_keeps`, `parseFde_keeps`, `dwarfExec_keeps`: they are kept,
  however the functions end;
* `unwinder_stays_inside`: what this says of a run.
-/

namespace UltraKernel.Unwind

open Program

/-! ### Readers -/

/-- The data ends at `stop`, and at most `n` bytes are left. -/
structure Reads (stop n : ℕ) (data : EhData) : Prop where
  cursor : data.cursor + data.bytesLeft = stop
  left : data.bytesLeft ≤ n

section Readers

variable {m : Machine} {stop n fuel : ℕ}

theorem Reads.mono {n' : ℕ} {data : EhData} (h : Reads stop n data) (hn : n ≤ n') :
    Reads stop n' data := ⟨h.cursor, h.left.trans hn⟩

theorem consumeRaw_meets (k : ℕ) {R : Returned → EhData → Prop} :
    Meets False (fun data => Reads stop n data ∧ k ≤ data.bytesLeft) (consumeRaw m k)
      (fun _ data => Reads stop (n - k) data ∧ k ≤ n) R := by
  rintro data ⟨hreads, hk⟩
  rw [consumeRaw, if_neg (not_lt.mpr hk)]
  have hcursor := hreads.cursor
  have hleft := hreads.left
  exact ⟨⟨by simp only; omega, by simp only; omega⟩, hk.trans hleft⟩

theorem consumeChecked_meets (k : ℕ) (e : ErrorT) :
    Meets False (Reads stop n) (consumeChecked m k e)
      (fun _ data => Reads stop (n - k) data ∧ k ≤ n) fun _ => Reads stop n := by
  apply Meets.get_bind
  intro data hreads
  refine Meets.bind (Q := fun _ s => Reads stop n s ∧ k ≤ s.bytesLeft) ?_ fun _ =>
    consumeRaw_meets k
  refine Meets.refuse ?_ ?_
  · rintro s _ rfl
    exact hreads
  · rintro s hk rfl
    exact ⟨hreads, not_lt.mp hk⟩

theorem consumeChecked_keeps (k : ℕ) (e : ErrorT) :
    Keeps False (Reads stop n) (consumeChecked m k e) fun _ => True :=
  (consumeChecked_meets k e).conseq (fun _ h => h)
    (fun _ _ h => ⟨h.1.mono (Nat.sub_le ..), trivial⟩) fun _ _ h => h

/-- **A LEB128 number** ends with the data at the latest. -/
theorem leb128Loop_keeps (hfuel : n < fuel) (value : BitVec 64) (numBits : ℕ) :
    Keeps False (Reads stop n) (leb128Loop m fuel value numBits) fun _ => True := by
  induction fuel generalizing n value numBits with
  | zero => omega
  | succ fuel ih =>
    rw [leb128Loop]
    apply Meets.bind (consumeChecked_meets 1 erange)
    intro byte
    apply Meets.assume
    intro hn
    dsimp only
    split_ifs
    · refine (ih (n := n - 1) (by omega) _ _).conseq (fun _ h => h) ?_ ?_
      · exact fun _ _ h => ⟨h.1.mono (Nat.sub_le ..), trivial⟩
      · exact fun _ _ h => h.mono (Nat.sub_le ..)
    · exact fun _ h => ⟨h.mono (Nat.sub_le ..), trivial⟩

theorem copyData_keeps (format numBytes outValue : ℕ) :
    Keeps False (Reads stop n) (copyData m format numBytes outValue) fun _ => True :=
  Keeps.bind (consumeChecked_keeps numBytes einval) fun _ _ => Keeps.pure trivial

theorem decodeFormat_keeps (hfuel : n < fuel) (format outValue : ℕ) :
    Keeps False (Reads stop n) (decodeFormat m fuel format outValue) fun _ => True := by
  unfold decodeFormat
  split_ifs
  · exact copyData_keeps format _ outValue
  · exact Keeps.bind (leb128Loop_keeps hfuel _ _) fun _ _ => Keeps.pure trivial
  · exact copyData_keeps format _ outValue
  · exact copyData_keeps format _ outValue
  · exact copyData_keeps format _ outValue
  · exact Keeps.fail _

theorem scalingBase_keeps (encoding : ℕ) :
    Keeps False (Reads stop n) (scalingBase m encoding) fun _ => True := by
  apply Keeps.get_bind
  intro data _
  split_ifs
  · exact Keeps.pure trivial
  · exact Keeps.pure trivial
  · exact Keeps.pure trivial
  · exact Keeps.pure trivial
  · exact Keeps.fail _

theorem decodeValue_keeps (hfuel : n < fuel) (encoding : ℕ) :
    Keeps False (Reads stop n) (decodeValue m fuel encoding) fun _ => True :=
  Keeps.bind (scalingBase_keeps encoding) fun _ _ => decodeFormat_keeps hfuel _ _

end Readers

/-! ### The state -/

/-- The registers that the state names exist. -/
structure Indexed (m : Machine) (st : UnwindState) : Prop where
  retReg : st.retRegIdx < m.arch.numRegisters
  cfaReg : st.cfaRegIdx < m.arch.numRegisters

/-- The invariant of the state and the data. -/
structure Within (m : Machine) (stop n : ℕ) (u : Unwinder) : Prop where
  data : Reads stop n u.data
  state : Indexed m u.state

section State

variable {m : Machine} {stop n fuel : ℕ}

theorem Within.mono {n' : ℕ} {u : Unwinder} (h : Within m stop n u) (hn : n ≤ n') :
    Within m stop n' u := ⟨h.data.mono hn, h.state⟩

/-- What keeps to fewer bytes keeps to more. -/
theorem keeps_weaken {α : Type} {n' : ℕ} {x : Unwinding α} {Q : α → Prop}
    (h : Keeps False (Within m stop n) x Q) (hn : n ≤ n') :
    Meets False (Within m stop n) x (fun a u => Within m stop n' u ∧ Q a)
      fun _ => Within m stop n' :=
  h.conseq (fun _ h => h) (fun _ _ h => ⟨h.1.mono hn, h.2⟩) fun _ _ h => h.mono hn

theorem onData_keeps {α : Type} {x : Reader α} {Q : α → Prop} (h : Keeps False (Reads stop n) x Q) :
    Keeps False (Within m stop n) (onData x) Q :=
  Meets.zoom h (fun _ hu => hu.data) (fun _ _ _ hu hx => ⟨⟨hx.1, hu.state⟩, hx.2⟩)
    fun _ _ _ hu hx => ⟨hx, hu.state⟩

/-- A byte that is consumed is one less that is left. -/
theorem ehConsume_meets :
    Meets False (Within m stop n) (onData (ehConsume m 1))
      (fun _ u => Within m stop (n - 1) u ∧ 1 ≤ n) fun _ => Within m stop n :=
  Meets.zoom (consumeChecked_meets 1 erange) (fun _ hu => hu.data)
    (fun _ _ _ hu hx => ⟨⟨hx.1, hu.state⟩, hx.2⟩) fun _ _ _ hu hx => ⟨hx, hu.state⟩

/-- A change of the state that keeps the registers it names. -/
theorem modifyState_keeps {f : UnwindState → UnwindState} (hf : ∀ st, Indexed m st → Indexed m (f st)) :
    Keeps False (Within m stop n) (modifyState f) fun _ => True :=
  Keeps.modify fun _ hu => ⟨hu.data, hf _ hu.state⟩

/-- A change that leaves the names of registers alone. -/
structure SameRegisters (f : UnwindState → UnwindState) : Prop where
  retReg : ∀ st, (f st).retRegIdx = st.retRegIdx
  cfaReg : ∀ st, (f st).cfaRegIdx = st.cfaRegIdx

theorem SameRegisters.indexed {f : UnwindState → UnwindState} (h : SameRegisters f)
    (st : UnwindState) (hst : Indexed m st) : Indexed m (f st) :=
  ⟨(h.retReg st).trans_lt hst.retReg, (h.cfaReg st).trans_lt hst.cfaReg⟩

theorem decodeInto_keeps (hfuel : n < fuel) (encoding : ℕ) {field : ℕ → UnwindState → UnwindState}
    (hfield : ∀ value, SameRegisters (field value)) :
    Keeps False (Within m stop n) (decodeInto m fuel encoding field) fun _ => True := by
  apply Keeps.bind (onData_keeps (scalingBase_keeps encoding))
  intro base _
  apply Keeps.bind (modifyState_keeps (hfield base).indexed)
  intro _ _
  apply Keeps.bind (onData_keeps (decodeFormat_keeps hfuel _ base))
  intro value _
  exact modifyState_keeps (hfield value).indexed

theorem setRetRegIdx_keeps {idx : ℕ} (hidx : ¬ m.arch.numRegisters ≤ idx) :
    Keeps False (Within m stop n) (setRetRegIdx m idx) fun _ => True := by
  rw [setRetRegIdx, if_pos (not_le.mp hidx)]
  exact modifyState_keeps fun st hst => ⟨not_le.mp hidx, hst.cfaReg⟩

theorem setCfaRegIdx_keeps {idx : ℕ} (hidx : ¬ m.arch.numRegisters ≤ idx) :
    Keeps False (Within m stop n) (setCfaRegIdx m idx) fun _ => True := by
  rw [setCfaRegIdx, if_pos (not_le.mp hidx)]
  exact modifyState_keeps fun st hst => ⟨hst.retReg, not_le.mp hidx⟩

theorem storeRule_keeps (reg : ℕ) (rule : RegisterRule) :
    Keeps False (Within m stop n) (storeRule m reg rule) fun _ => True := by
  unfold storeRule setRule
  split_ifs
  · exact Keeps.modify fun _ hu => ⟨hu.data, hu.state⟩
  · exact Keeps.pure trivial

theorem returnAddress_keeps :
    Keeps False (Within m stop n) (unwindGetReturnAddress m) fun _ => True := by
  apply Keeps.get_bind
  intro u hu
  split_ifs
  · exact Keeps.pure trivial
  · apply Keeps.get_bind
    intro _ _
    rw [if_pos hu.state.retReg]
    exact Keeps.pure trivial

theorem getReliablePc_keeps : Keeps False (Within m stop n) (getReliablePc m) fun _ => True := by
  apply Keeps.bind returnAddress_keeps
  intro pc _
  exact Keeps.get_bind fun _ _ => Keeps.pure trivial

/-! ### CIE and FDE -/

/-- **The augmentation string** ends with the data at the latest. -/
theorem augLoop_keeps (hfuel : n < fuel) (augIdx : ℕ) :
    Keeps False (Within m stop n) (augLoop m fuel augIdx) fun _ => True := by
  induction fuel generalizing n augIdx with
  | zero => omega
  | succ fuel ih =>
    rw [augLoop]
    split_ifs
    · apply Meets.bind ehConsume_meets
      intro augCh
      apply Meets.assume
      intro hn
      split_ifs
      · refine keeps_weaken (Keeps.bind (modifyState_keeps ?_) fun _ _ => ih (by omega) augIdx)
          (Nat.sub_le ..)
        exact fun _ hst => ⟨hst.retReg, hst.cfaReg⟩
      · exact keeps_weaken (Keeps.fail _) (Nat.sub_le ..)
      · exact keeps_weaken (ih (by omega) _) (Nat.sub_le ..)
    · exact Keeps.pure trivial

theorem parseCieFields_keeps (hfuel : n < fuel) :
    Keeps False (Within m stop n) (parseCieFields m fuel) fun _ => True := by
  refine Keeps.bind (decodeInto_keeps hfuel _ fun _ => ⟨fun _ => rfl, fun _ => rfl⟩) fun _ _ => ?_
  refine Keeps.bind (decodeInto_keeps hfuel _ fun _ => ⟨fun _ => rfl, fun _ => rfl⟩) fun _ _ => ?_
  apply Keeps.bind (onData_keeps (decodeValue_keeps hfuel _))
  intro retReg _
  apply Keeps.bind Keeps.refuse
  intro _ hretReg
  apply Keeps.bind (setRetRegIdx_keeps hretReg)
  intro _ _
  apply Keeps.bind (onData_keeps (decodeValue_keeps hfuel _))
  intro augLength _
  apply Keeps.bind Keeps.refuse
  intro _ _
  apply Keeps.bind (onData_keeps (consumeChecked_keeps 1 erange))
  intro fdeEncoding _
  refine Keeps.bind (modifyState_keeps fun _ hst => ⟨hst.retReg, hst.cfaReg⟩) fun _ _ => ?_
  exact Keeps.modify fun _ hu => ⟨hu.data, hu.state.retReg, hu.state.cfaReg⟩

/-- **`parse_cie`** on any bytes. -/
theorem parseCie_keeps (hfuel : n < fuel) :
    Keeps False (Within m stop n) (parseCie m fuel) fun _ => True := by
  apply Keeps.bind (onData_keeps (consumeChecked_keeps 4 erange))
  intro id _
  apply Keeps.bind Keeps.refuse
  intro _ _
  apply Keeps.bind (onData_keeps (consumeChecked_keeps 1 erange))
  intro version _
  apply Keeps.bind Keeps.refuse
  intro _ _
  apply Keeps.bind (augLoop_keeps hfuel 0)
  intro _ _
  exact parseCieFields_keeps hfuel

theorem readBytes_lt (mem : ℕ → BitVec 8) (address k : ℕ) :
    readBytes mem address k < 256 ^ k := by
  induction k generalizing address with
  | zero => simp [readBytes]
  | succ k ih =>
    have hbyte := (mem address).isLt
    have hrest := ih (address + 1)
    rw [readBytes, pow_succ]
    omega

theorem ehDataInit_bytesLeft (cursor : ℕ) : (ehDataInit m cursor).bytesLeft < 2 ^ 64 := by
  unfold ehDataInit
  dsimp only
  split_ifs
  · exact (readBytes_lt m.mem (cursor + 4) 8).trans_eq (by norm_num)
  · exact (readBytes_lt m.mem cursor 4).trans (by decide)

theorem findCie_keeps :
    Keeps False (Within m stop n) (findCie m) fun cie => cie.bytesLeft < 2 ^ 64 := by
  apply Keeps.bind (onData_keeps (consumeChecked_keeps 4 erange))
  intro cieOffset _
  apply Keeps.bind Keeps.refuse
  intro _ _
  exact Keeps.get_bind fun _ _ => Keeps.pure (ehDataInit_bytesLeft _)

/-- Other data is read inside its own bounds. -/
theorem withData_keeps {α : Type} {x : Unwinding α} {data : EhData} {Q : α → Prop}
    (h : Keeps False (Within m (data.cursor + data.bytesLeft) data.bytesLeft) x Q) :
    Keeps False (Within m stop n) (withData data x) Q :=
  Meets.zoom h (fun _ hu => ⟨⟨rfl, le_refl _⟩, hu.state⟩)
    (fun _ _ _ hu hx => ⟨⟨hu.data, hx.1.state⟩, hx.2⟩) fun _ _ _ hu hx => ⟨hu.data, hx.state⟩

theorem parseFdeFields_keeps (hfuel : n < fuel) :
    Keeps False (Within m stop n) (parseFdeFields m fuel) fun _ => True := by
  apply Keeps.get_bind
  intro _ _
  refine Keeps.bind (decodeInto_keeps hfuel _ fun _ => ⟨fun _ => rfl, fun _ => rfl⟩) fun _ _ => ?_
  apply Keeps.bind (onData_keeps (decodeValue_keeps hfuel _))
  intro pcSize _
  apply Keeps.bind getReliablePc_keeps
  intro currentPc _
  apply Keeps.get_bind
  intro _ _
  apply Keeps.bind Keeps.refuse
  intro _ _
  apply Keeps.bind (onData_keeps (consumeChecked_keeps 1 erange))
  intro augLength _
  apply Keeps.bind Keeps.refuse
  intro _ _
  exact Keeps.modify fun _ hu => ⟨hu.data, hu.state.retReg, hu.state.cfaReg⟩

/-- **`parse_fde`** on any bytes, with any CIE. -/
theorem parseFde_keeps (hfuel : 2 ^ 64 ≤ fuel) (hn : n < fuel) :
    Keeps False (Within m stop n) (parseFde m fuel) fun _ => True := by
  apply Keeps.bind findCie_keeps
  intro cie hcie
  refine Keeps.bind (withData_keeps (parseCie_keeps (by omega))) fun _ _ => ?_
  exact parseFdeFields_keeps hn

/-! ### Instructions -/

theorem advanceLoc_keeps (delta : ℕ) :
    Keeps False (Within m stop n) (advanceLoc delta) fun _ => True :=
  modifyState_keeps fun _ hst => ⟨hst.retReg, hst.cfaReg⟩

theorem execOpcode_keeps (hfuel : n < fuel) (opcode : ℕ) :
    Keeps False (Within m stop n) (execOpcode m fuel opcode) fun _ => True := by
  have hoffset : Keeps False (Within m stop n) (decodeInto m fuel dwEhPeUleb128
      fun value st => { st with cfaOffset := value }) fun _ => True :=
    decodeInto_keeps hfuel _ fun _ => ⟨fun _ => rfl, fun _ => rfl⟩
  unfold execOpcode
  by_cases hnop : opcode = 0x00
  · rw [if_pos hnop]
    exact Keeps.pure trivial
  rw [if_neg hnop]
  by_cases hadvance : opcode = 0x04 ∨ opcode = 0x03 ∨ opcode = 0x02
  · rw [if_pos hadvance]
    exact Keeps.bind (onData_keeps (consumeChecked_keeps _ einval)) fun delta _ =>
      advanceLoc_keeps delta
  rw [if_neg hadvance]
  by_cases hdefCfa : opcode = 0x0C ∨ opcode = 0x0D
  · rw [if_pos hdefCfa]
    apply Keeps.bind (onData_keeps (decodeValue_keeps hfuel _))
    intro value _
    apply Keeps.bind Keeps.refuse
    intro _ hvalue
    apply Keeps.bind (setCfaRegIdx_keeps hvalue)
    intro _ _
    split_ifs
    · exact Keeps.pure trivial
    · exact hoffset
  rw [if_neg hdefCfa]
  split_ifs
  · exact hoffset
  · exact Keeps.fail _

/-- **One instruction** consumes its opcode at least. -/
theorem execStep_meets (hfuel : n < fuel) :
    Meets False (Within m stop n) (execStep m fuel)
      (fun _ u => Within m stop (n - 1) u ∧ 1 ≤ n) fun _ => Within m stop n := by
  apply Meets.bind ehConsume_meets
  intro opcode
  apply Meets.assume
  intro hn
  have hbody : Keeps False (Within m stop (n - 1)) (if opcode / 64 = 0 then execOpcode m fuel opcode
      else if opcode / 64 = 1 then advanceLoc (opcode % 64)
      else if opcode / 64 = 2 then do
        let value ← onData (decodeValue m fuel dwEhPeUleb128)
        storeRule m (opcode % 64) ⟨.offset, value⟩
      else if opcode / 64 = 3 then storeRule m (opcode % 64) ⟨.sameValue, 0⟩
      else unhandled (.opcode (BitVec.ofNat 8 opcode)) : Unwinding Unit) fun _ => True := by
    split_ifs
    · exact execOpcode_keeps (by omega) opcode
    · exact advanceLoc_keeps _
    · exact Keeps.bind (onData_keeps (decodeValue_keeps (by omega) _)) fun value _ =>
        storeRule_keeps _ _
    · exact storeRule_keeps _ _
    · exact Keeps.fail _
  exact hbody.conseq (fun _ h => h) (fun _ _ h => ⟨h.1, hn⟩) fun _ _ h => h.mono (Nat.sub_le ..)

theorem execLoop_keeps {rounds : ℕ} (hfuel : n < fuel) (hrounds : n < rounds) :
    Keeps False (Within m stop n) (execLoop m fuel rounds) fun _ => True := by
  induction rounds generalizing n with
  | zero => omega
  | succ rounds ih =>
    rw [execLoop]
    apply Keeps.get_bind
    intro u _
    split_ifs
    · exact Keeps.pure trivial
    apply Keeps.bind returnAddress_keeps
    intro returnAddress _
    split_ifs
    · exact Keeps.pure trivial
    apply Meets.bind (execStep_meets hfuel)
    intro _
    apply Meets.assume
    intro hn
    exact keeps_weaken (ih (by omega) (by omega)) (Nat.sub_le ..)

/-- **`dwarf_exec`** on any bytes. -/
theorem dwarfExec_keeps (hfuel : n < fuel) :
    Keeps False (Within m stop n) (dwarfExec m fuel) fun _ => True :=
  execLoop_keeps hfuel hfuel

end State

/-! ### Runs -/

/-- The function ends, without a read outside of the data or a register that does not exist, and
the end of the data and the registers that the state names are as before. -/
def StaysInside (m : Machine) (u : Unwinder) (x : Unwinding Unit) : Prop :=
  ∃ ret u', x u = .done (ret, u') ∧
    u'.data.cursor + u'.data.bytesLeft = u.data.cursor + u.data.bytesLeft ∧
    u'.data.bytesLeft ≤ u.data.bytesLeft ∧ Indexed m u'.state

theorem Keeps.staysInside {m : Machine} {u : Unwinder} {x : Unwinding Unit}
    (h : Keeps False (Within m (u.data.cursor + u.data.bytesLeft) u.data.bytesLeft) x fun _ => True)
    (hu : Indexed m u.state) : StaysInside m u x := by
  obtain ⟨ret, u', hrun, hok, herror⟩ := h.ends ⟨⟨rfl, le_refl _⟩, hu⟩
  have hwithin : Within m (u.data.cursor + u.data.bytesLeft) u.data.bytesLeft u' := by
    cases ret with
    | ok value => exact (hok value rfl).1
    | error e => exact herror e rfl
  exact ⟨ret, u', hrun, hwithin.data.cursor, hwithin.data.left, hwithin.state⟩

/-- **The unwinder stays inside its data**: on any bytes, `decode_value`, `parse_cie`, `parse_fde`
and `dwarf_exec` end, read only bytes of the data they are given, and store and write only at the
indices of registers that exist. -/
theorem unwinder_stays_inside (m : Machine) {u : Unwinder} (hleft : u.data.bytesLeft < 2 ^ 64)
    (hu : Indexed m u.state) {fuel : ℕ} (hfuel : 2 ^ 64 ≤ fuel) :
    (∀ encoding, ∃ ret data, decodeValue m fuel encoding u.data = .done (ret, data) ∧
      data.cursor + data.bytesLeft = u.data.cursor + u.data.bytesLeft ∧
      data.bytesLeft ≤ u.data.bytesLeft) ∧
    StaysInside m u (parseCie m fuel) ∧ StaysInside m u (parseFde m fuel) ∧
    StaysInside m u (dwarfExec m fuel) := by
  have hn : u.data.bytesLeft < fuel := by omega
  refine ⟨fun encoding => ?_, ?_, ?_, ?_⟩
  · have hkeeps : Keeps False (Reads (u.data.cursor + u.data.bytesLeft) u.data.bytesLeft)
        (decodeValue m fuel encoding) fun _ => True := decodeValue_keeps hn encoding
    obtain ⟨ret, data, hrun, hok, herror⟩ := hkeeps.ends ⟨rfl, le_refl _⟩
    have hreads : Reads (u.data.cursor + u.data.bytesLeft) u.data.bytesLeft data := by
      cases ret with
      | ok value => exact (hok value rfl).1
      | error e => exact herror e rfl
    exact ⟨ret, data, hrun, hreads.cursor, hreads.left⟩
  · exact Keeps.staysInside (parseCie_keeps hn) hu
  · exact Keeps.staysInside (parseFde_keeps hfuel hn) hu
  · exact Keeps.staysInside (dwarfExec_keeps hn) hu

/-- The registers that `unwind_begin` sets exist. -/
theorem indexed_initialState (m : Machine) (frame : ℕ → ℕ) (signalFrame : Bool) :
    Indexed m (initialState m frame signalFrame) :=
  ⟨m.arch.pcReg_lt, (Nat.zero_le _).trans_lt m.arch.spReg_lt⟩

/-- A machine with the given bytes from the address 0x1000 on, of which the first 8 are the search
table of one FDE. -/
def machineOf (bytes : List (BitVec 8)) : Machine where
  arch := Arch.x86
  undefined := ⟨fun value _ => value, fun value _ => value, 0, fun _ => 0⟩
  mem := fun address => if address < 0x1000 then 0 else bytes.getD (address - 0x1000) 0
  textBegin := 0
  ehFrameHdrBegin := 0
  unwinderAvailable := true
  fdeBinarySearchTable := 0x1000
  fdeTableEncoding := 0x03
  fdeTableEntryWidth := 8
  numFdes := 1

/-- A CIE with `DW_CFA_def_cfa 7 8; DW_CFA_offset 16 1`, and an FDE of the addresses from 0x2000 up to
0x2010 with `DW_CFA_advance_loc 4; DW_CFA_def_cfa_offset 16`. -/
def twoRows : Machine := machineOf [
  0x00, 0x20, 0x00, 0x00, 0x1E, 0x10, 0x00, 0x00,
  0x12, 0x00, 0x00, 0x00, 0x00, 0x00, 0x00, 0x00, 0x01, 0x7A, 0x52, 0x00, 0x01, 0x78, 0x10, 0x01,
  0x03, 0x0C, 0x07, 0x08, 0x90, 0x01,
  0x10, 0x00, 0x00, 0x00, 0x1A, 0x00, 0x00, 0x00, 0x00, 0x20, 0x00, 0x00, 0x10, 0x00, 0x00, 0x00,
  0x00, 0x44, 0x0E, 0x10]

/-- On the FDE of `twoRows`, for an address of it. -/
theorem unwinder_stays_inside_twoRows :
    StaysInside twoRows ⟨initialState twoRows (fun _ => 0x2004) false, initialRules twoRows,
      ehDataInit twoRows 0x101E⟩ (parseFde twoRows (2 ^ 64)) :=
  (unwinder_stays_inside twoRows (by decide) (indexed_initialState _ _ _) (le_refl _)).2.2.1

end UltraKernel.Unwind
