import UltraKernel.Lib.Bisection
import UltraKernel.Unwind.Errors
import UltraKernel.Unwind.Leb128

/-!
# The search table of the FDEs

`unwind_init` reads the header of the table, and measures its first value to know how wide an entry
is; `find_fde` searches the entries by their encoded start addresses.

* `decodeValue_fixed`: the value of an encoding of a fixed width;
* `unwindInit_entryWidth`: an entry has two such values;
* `searchTable_bisected`, `findFde_entry`: the search, and the entry that it ends at;
* `findFde_last`: this is the last entry that starts at or below the PC.
-/

namespace UltraKernel.Unwind

open Word Program

/-! ### `unwind_init` -/

/-- What `unwind_init` works on: the variables that it sets, and the data that it reads. -/
structure Init where
  machine : Machine
  data : EhData

/-- A program of `unwind_init`. -/
abbrev Initializing (α : Type) := Program UnwindBug Returned Init α

def onHeader {α : Type} (x : Reader α) : Initializing α :=
  zoom Init.data (fun data s => { s with data := data }) x

def setVariables (f : Machine → Machine) : Initializing Unit :=
  modify fun s => { s with machine := f s.machine }

/-- From the pointer to `.eh_frame` on; `g_num_fdes` is left as it was where its value is not
decoded. -/
def initTable (m : Machine) (fuel ehFrameBegin ehFramePtrEncoding fdeCountEncoding tableEncoding : ℕ) :
    Initializing Unit := do
  let value ← onHeader (decodeValue m fuel ehFramePtrEncoding)
  refuse (ehFrameBegin ≠ value) einval
  let numFdes ← onHeader (decodeValue m fuel fdeCountEncoding)
  setVariables fun v => { v with numFdes := numFdes }
  let table ← get
  setVariables fun v => { v with fdeBinarySearchTable := table.data.cursor }
  let _ ← onHeader (decodeValue m fuel tableEncoding)
  let next ← get
  let entryWidth := (next.data.cursor - table.data.cursor) % 256
  -- each entry is made up of two values
  setVariables fun v => { v with fdeTableEntryWidth := entryWidth * 2 % 256 }
  setVariables fun v => { v with unwinderAvailable := true }

/-- `unwind_init`, from the variables of `m`. -/
def unwindInit (m : Machine) (fuel ehFrameHdrEnd ehFrameBegin : ℕ) :
    Outcome UnwindBug (Except Returned Unit × Init) :=
  (do
    let version ← onHeader (ehConsume m 1)
    refuse (version ≠ 1) einval
    let ehFramePtrEncoding ← onHeader (ehConsume m 1)
    let fdeCountEncoding ← onHeader (ehConsume m 1)
    let tableEncoding ← onHeader (ehConsume m 1)
    setVariables fun v => { v with fdeTableEncoding := tableEncoding }
    initTable m fuel ehFrameBegin ehFramePtrEncoding fdeCountEncoding tableEncoding : Initializing Unit)
    ⟨m, ⟨m.ehFrameHdrBegin, sub64 ehFrameHdrEnd m.ehFrameHdrBegin⟩⟩

section Errors

variable {m : Machine} {fuel : ℕ}

end Errors

/-! ### Values of a fixed width -/

/-- The size of a value, if its encoding gives it one. -/
def encodedSize (encoding : ℕ) : Option ℕ :=
  if encoding % 16 = 0x00 then some 8
  else if encoding % 16 = 0x04 ∨ encoding % 16 = 0x0C then some 8
  else if encoding % 16 = 0x03 ∨ encoding % 16 = 0x0B then some 4
  else if encoding % 16 = 0x02 ∨ encoding % 16 = 0x0A then some 2
  else none

/-- What a value at the address is relative to: nothing, itself, the text, or the header. -/
def relativeTo (m : Machine) (encoding address : ℕ) : ℕ :=
  if encoding / 16 = 0 then 0
  else if encoding / 16 = 1 then address % 2 ^ 64
  else if encoding / 16 = 2 then m.textBegin
  else m.ehFrameHdrBegin

/-- The bytes of a value as a number of 64 bits, with its sign if the encoding has one. -/
def storedValue (m : Machine) (encoding size address : ℕ) : BitVec 64 :=
  let bytes := BitVec.ofNat (8 * size) (readBytes m.mem address size)
  if encoding.testBit 3 then bytes.signExtend 64 else bytes.setWidth 64

/-- **The value at the address.** -/
def encodedValue (m : Machine) (encoding size address : ℕ) : ℕ :=
  add64 (relativeTo m encoding address) (storedValue m encoding size address).toNat

section Values

variable {m : Machine} {encoding size fuel cursor bytesLeft : ℕ}

theorem encodedSize_le (h : encodedSize encoding = some size) : 0 < size ∧ size ≤ 8 := by
  unfold encodedSize at h
  split_ifs at h
  all_goals
    obtain rfl := Option.some.inj h
    decide

theorem readBytes_congr {mem mem' : ℕ → BitVec 8} {address : ℕ}
    (h : ∀ i < size, mem' (address + i) = mem (address + i)) :
    readBytes mem' address size = readBytes mem address size := by
  induction size generalizing address with
  | zero => rfl
  | succ size ih =>
    have hfirst : mem' address = mem address := h 0 (Nat.succ_pos _)
    have hrest : ∀ i < size, mem' (address + 1 + i) = mem (address + 1 + i) := by
      intro i hi
      rw [Nat.add_assoc, Nat.add_comm 1 i]
      exact h (i + 1) (Nat.succ_lt_succ hi)
    rw [readBytes, readBytes, hfirst, ih hrest]

/-- **The sign of a copied value** is extended. -/
theorem signExtendValue_copied (hsize : 0 < size ∧ size ≤ 8) {format value : ℕ}
    (hvalue : value < 2 ^ (8 * size)) :
    signExtendValue m format (BitVec.ofNat 64 value) 0 size =
      if format.testBit 3 then (BitVec.ofNat (8 * size) value).signExtend 64
      else (BitVec.ofNat (8 * size) value).setWidth 64 := by
  have hbits : 8 * size ≤ 64 := by omega
  have hnarrow : (BitVec.ofNat 64 value).toNat = value := by
    rw [BitVec.toNat_ofNat]
    exact Nat.mod_eq_of_lt (hvalue.trans_le (Nat.pow_le_pow_right (by decide) hbits))
  by_cases hsigned : format.testBit 3 = true
  · obtain ⟨s, hs⟩ : ∃ s, 8 * size = s + 1 := ⟨8 * size - 1, by omega⟩
    -- as if the bits had been counted
    have hcounted : signExtendValue m format (BitVec.ofNat 64 value) 0 size =
        signExtendValue m dwEhPeSleb128 (BitVec.ofNat 64 value) (s + 1) size := by
      have hsleb : dwEhPeSleb128.testBit 3 = true := by decide
      have hwidth : size * 8 % 256 = s + 1 := by omega
      rw [signExtendValue, signExtendValue, if_pos hsigned, if_pos hsleb, if_pos rfl, hwidth,
        if_neg (Nat.succ_ne_zero s)]
    rw [if_pos hsigned, hcounted, signExtend_below (by omega) (by rwa [hnarrow, ← hs]), hs]
    congr 1
    exact BitVec.setWidth_ofNat_of_le (by omega) value
  · rw [if_neg hsigned, signExtendValue, if_neg hsigned]
    apply BitVec.eq_of_toNat_eq
    rw [hnarrow, BitVec.toNat_setWidth, BitVec.toNat_ofNat, Nat.mod_eq_of_lt hvalue,
      Nat.mod_eq_of_lt (hvalue.trans_le (Nat.pow_le_pow_right (by decide) hbits))]

theorem decodeFormat_fixed (hsize : encodedSize encoding = some size) (outValue : ℕ) :
    decodeFormat m fuel (encoding % 16) outValue = copyData m (encoding % 16) size outValue := by
  have hleb : dwEhPeSleb128 = 9 ∧ dwEhPeUleb128 = 1 := ⟨rfl, rfl⟩
  unfold encodedSize at hsize
  unfold decodeFormat
  split_ifs at hsize ⊢
  all_goals first
    | omega
    | rw [Option.some.inj hsize]

theorem relativeTo_run (hscaling : encoding / 16 < 4) (data : EhData) :
    scalingBase m encoding data = .done (.ok (relativeTo m encoding data.cursor), data) := by
  rw [scalingBase, bind_of_ok (get_run _), relativeTo]
  split_ifs
  · rfl
  · rfl
  · rfl
  · rfl
  · omega

/-- **A value of a fixed width** is read, and its bytes are consumed. -/
theorem decodeValue_fixed (hsize : encodedSize encoding = some size) (hscaling : encoding / 16 < 4)
    (hleft : size ≤ bytesLeft) :
    decodeValue m fuel encoding ⟨cursor, bytesLeft⟩ =
      .done (.ok (encodedValue m encoding size cursor), ⟨cursor + size, bytesLeft - size⟩) := by
  have hsigned : (encoding % 2 ^ 4).testBit 3 = encoding.testBit 3 := by
    rw [Nat.testBit_mod_two_pow]
    rfl
  have hbytes := readBytes_lt m.mem cursor size
  rw [show 256 = 2 ^ 8 by decide, ← pow_mul] at hbytes
  rw [decodeValue, bind_of_ok (relativeTo_run hscaling _), decodeFormat_fixed hsize, copyData,
    bind_of_ok (consumeChecked_of_le hleft _), signExtendValue_copied (encodedSize_le hsize) hbytes,
    show 16 = 2 ^ 4 by decide, hsigned]
  rfl

/-- **A value that was read** had a known scaling, and all its bytes were left. -/
theorem decodeValue_fixed_ok (hsize : encodedSize encoding = some size) {value : ℕ}
    {data rest : EhData} (h : decodeValue m fuel encoding data = .done (.ok value, rest)) :
    encoding / 16 < 4 ∧ rest.cursor = data.cursor + size := by
  obtain ⟨base, data', hbase, hformat⟩ := bind_eq_ok.mp h
  have hscaling : encoding / 16 < 4 := by
    by_contra hlarge
    rw [scalingBase, bind_of_ok (get_run _), if_neg (by omega), if_neg (by omega), if_neg (by omega),
      if_neg (by omega)] at hbase
    cases hbase
  refine ⟨hscaling, ?_⟩
  obtain ⟨-, rfl⟩ := Prod.mk.inj (Outcome.done.inj ((relativeTo_run hscaling data).symm.trans hbase))
  rw [decodeFormat_fixed hsize] at hformat
  obtain ⟨_, _, hbytes, -⟩ := bind_eq_ok.mp hformat
  rw [consumeChecked, bind_of_ok (get_run _)] at hbytes
  obtain ⟨_, _, hrefuse, -⟩ := bind_eq_ok.mp hbytes
  have hleft := Nat.not_lt.mp (refuse_eq_ok.mp hrefuse).1
  rw [decodeValue_fixed hsize hscaling hleft] at h
  exact congrArg EhData.cursor (Prod.mk.inj (Outcome.done.inj h)).2.symm

end Values

/-! ### The width of an entry -/

section Width

variable {m : Machine} {fuel ehFrameHdrEnd ehFrameBegin size : ℕ} {s s' : Init}

theorem onHeader_eq_ok {α : Type} {x : Reader α} {value : α}
    (h : onHeader x s = .done (.ok value, s')) :
    x s.data = .done (.ok value, s'.data) ∧ s'.machine = s.machine := by
  obtain ⟨data, hx, rfl⟩ := zoom_eq_ok.mp h
  exact ⟨hx, rfl⟩

theorem setVariables_eq_ok {f : Machine → Machine}
    (h : setVariables f s = .done (.ok (), s')) : s'.data = s.data ∧ s'.machine = f s.machine := by
  obtain ⟨-, rfl⟩ := Prod.mk.inj (Outcome.done.inj h)
  exact ⟨rfl, rfl⟩

/-- **The first value of the table** is read, and measured. -/
theorem initTable_eq_ok {ehFramePtrEncoding fdeCountEncoding tableEncoding : ℕ}
    (h : initTable m fuel ehFrameBegin ehFramePtrEncoding fdeCountEncoding tableEncoding s =
      .done (.ok (), s')) :
    s'.machine.fdeTableEncoding = s.machine.fdeTableEncoding ∧
      ∃ data value rest, decodeValue m fuel tableEncoding data = .done (.ok value, rest) ∧
        s'.machine.fdeTableEntryWidth = (rest.cursor - data.cursor) % 256 * 2 % 256 := by
  obtain ⟨_, s₁, hpointer, h₁⟩ := bind_eq_ok.mp h
  obtain ⟨_, s₂, hrefuse, h₂⟩ := bind_eq_ok.mp h₁
  obtain ⟨_, s₃, hcount, h₃⟩ := bind_eq_ok.mp h₂
  obtain ⟨_, s₄, hnum, h₄⟩ := bind_eq_ok.mp h₃
  rw [bind_of_ok (get_run _)] at h₄
  obtain ⟨_, s₅, htable, h₅⟩ := bind_eq_ok.mp h₄
  obtain ⟨value, s₆, hvalue, h₆⟩ := bind_eq_ok.mp h₅
  rw [bind_of_ok (get_run _)] at h₆
  obtain ⟨_, s₇, hwidth, hlast⟩ := bind_eq_ok.mp h₆
  obtain ⟨hread, hkept⟩ := onHeader_eq_ok hvalue
  have hcursor : s₅.data = s₄.data := (setVariables_eq_ok htable).1
  refine ⟨?_, s₄.data, value, s₆.data, hcursor ▸ hread, ?_⟩
  · rw [(setVariables_eq_ok hlast).2, (setVariables_eq_ok hwidth).2, hkept,
      (setVariables_eq_ok htable).2, (setVariables_eq_ok hnum).2, (onHeader_eq_ok hcount).2,
      (refuse_eq_ok.mp hrefuse).2, (onHeader_eq_ok hpointer).2]
  · rw [(setVariables_eq_ok hlast).2, (setVariables_eq_ok hwidth).2]

/-- **`unwind_init`** finds the width of two values. -/
theorem unwindInit_entryWidth
    (hrun : unwindInit m fuel ehFrameHdrEnd ehFrameBegin = .done (.ok (), s))
    (hsize : encodedSize s.machine.fdeTableEncoding = some size) :
    s.machine.fdeTableEncoding / 16 < 4 ∧ s.machine.fdeTableEntryWidth = 2 * size := by
  obtain ⟨_, s₁, -, h₁⟩ := bind_eq_ok.mp hrun
  obtain ⟨_, s₂, -, h₂⟩ := bind_eq_ok.mp h₁
  obtain ⟨_, s₃, -, h₃⟩ := bind_eq_ok.mp h₂
  obtain ⟨_, s₄, -, h₄⟩ := bind_eq_ok.mp h₃
  obtain ⟨tableEncoding, s₅, -, h₅⟩ := bind_eq_ok.mp h₄
  obtain ⟨_, s₆, hencoding, h₆⟩ := bind_eq_ok.mp h₅
  obtain ⟨hkept, data, value, rest, hvalue, hwidth⟩ := initTable_eq_ok h₆
  have htable : s.machine.fdeTableEncoding = tableEncoding := by
    rw [hkept, (setVariables_eq_ok hencoding).2]
  rw [htable] at hsize ⊢
  obtain ⟨hscaling, hcursor⟩ := decodeValue_fixed_ok hsize hvalue
  have hle := encodedSize_le hsize
  refine ⟨hscaling, ?_⟩
  rw [hwidth, hcursor]
  omega

end Width

/-! ### `find_fde` -/

/-- Where the entry starts: the first of its values. -/
def entryStart (m : Machine) (size k : ℕ) : ℕ :=
  encodedValue m m.fdeTableEncoding size (m.fdeBinarySearchTable + k * (2 * size))

/-- The address of the FDE of the entry: the second of its values. -/
def entryFde (m : Machine) (size k : ℕ) : ℕ :=
  encodedValue m m.fdeTableEncoding size (m.fdeBinarySearchTable + k * (2 * size) + size)

/-- **A search table**: entries of two values of a fixed width, in the order of their starts. -/
structure SearchTable (m : Machine) (size : ℕ) : Prop where
  size_eq : encodedSize m.fdeTableEncoding = some size
  scaling : m.fdeTableEncoding / 16 < 4
  width : m.fdeTableEntryWidth = 2 * size
  nonempty : 1 ≤ m.numFdes
  sorted : ∀ i j, i ≤ j → j < m.numFdes → entryStart m size i ≤ entryStart m size j

/-- The machine has the same search table, and anything else in its memory. -/
structure SameTable (m m' : Machine) : Prop where
  eq : m' = { m with mem := m'.mem }
  agree : ∀ address, m.fdeBinarySearchTable ≤ address →
    address < m.fdeBinarySearchTable + m.numFdes * m.fdeTableEntryWidth →
      m'.mem address = m.mem address

section Search

variable {m m' : Machine} {size fuel pc : ℕ}

/-- **The search** goes on to an entry between its bounds. -/
theorem searchTable_bisected (h : SearchTable m size) {rounds first last : ℕ} (hlt : first < last)
    (hrounds : last - first ≤ rounds) :
    ∃ k, searchTable m fuel pc rounds first last = .done (.ok k) ∧
      Bisected (fun i => entryStart m size i ≤ pc) first last k := by
  induction rounds generalizing first last with
  | zero => omega
  | succ rounds ih =>
    rw [searchTable]
    by_cases hwide : last - first > 1
    · rw [if_pos hwide]
      have hfirst : first < first + (last - first) / 2 := by omega
      have hlast : first + (last - first) / 2 < last := by omega
      generalize first + (last - first) / 2 = i at hfirst hlast
      have hread : decodeValue m fuel m.fdeTableEncoding
          ⟨m.fdeBinarySearchTable + i * m.fdeTableEntryWidth, m.fdeTableEntryWidth⟩ =
          .done (.ok (entryStart m size i),
            ⟨m.fdeBinarySearchTable + i * (2 * size) + size, 2 * size - size⟩) := by
        rw [h.width]
        exact decodeValue_fixed h.size_eq h.scaling (by omega)
      dsimp only
      rw [hread, Outcome.done_bind]
      dsimp only
      by_cases hle : entryStart m size i ≤ pc
      · rw [if_pos hle]
        obtain ⟨k, hrun, hk⟩ := ih hlast (by omega)
        exact ⟨k, hrun, hk.of_holds hle hfirst.le⟩
      · rw [if_neg hle]
        obtain ⟨k, hrun, hk⟩ := ih hfirst (by omega)
        exact ⟨k, hrun, hk.of_not hle hlast.le⟩
    · rw [if_neg hwide]
      exact ⟨first, rfl, Bisected.of_adjacent hlt hwide⟩

/-- **The entry that is found.** -/
theorem findFde_entry (h : SearchTable m size) (hfuel : m.numFdes ≤ fuel) (pc : ℕ) :
    ∃ k, LastOrZero (fun i => entryStart m size i ≤ pc) m.numFdes k ∧
      findFde m fuel pc = .done (entryFde m size k) := by
  obtain ⟨k, hrun, hk⟩ := @searchTable_bisected m size fuel pc h fuel 0 m.numFdes h.nonempty hfuel
  refine ⟨k, hk.lastOrZero fun i j hij hj hle => (h.sorted i j hij hj).trans hle, ?_⟩
  have hhalf : 2 * size / 2 = size := by omega
  rw [findFde, hrun, Outcome.done_bind]
  dsimp only
  rw [h.width, hhalf, decodeValue_fixed h.size_eq h.scaling (Nat.le_refl size), Outcome.done_bind]
  rfl

/-- A value inside the table does not depend on other bytes. -/
theorem SameTable.encodedValue_eq (hsame : SameTable m m') (encoding : ℕ) {address : ℕ}
    (hlow : m.fdeBinarySearchTable ≤ address)
    (hhigh : address + size ≤ m.fdeBinarySearchTable + m.numFdes * m.fdeTableEntryWidth) :
    encodedValue m' encoding size address = encodedValue m encoding size address := by
  have hbytes : readBytes m'.mem address size = readBytes m.mem address size :=
    readBytes_congr fun i hi => hsame.agree _ (by omega) (by omega)
  have hbase : relativeTo m' encoding address = relativeTo m encoding address := by
    rw [hsame.eq]
    rfl
  rw [encodedValue, encodedValue, storedValue, storedValue, hbytes, hbase]

theorem SameTable.entry_eq (hsame : SameTable m m') (h : SearchTable m size) {k : ℕ}
    (hk : k < m.numFdes) :
    entryStart m' size k = entryStart m size k ∧ entryFde m' size k = entryFde m size k := by
  have hvariables : m'.fdeTableEncoding = m.fdeTableEncoding ∧
      m'.fdeBinarySearchTable = m.fdeBinarySearchTable := by
    rw [hsame.eq]
    exact ⟨rfl, rfl⟩
  have hend : (k + 1) * (2 * size) ≤ m.numFdes * (2 * size) := Nat.mul_le_mul_right _ hk
  rw [Nat.succ_mul] at hend
  have hwidth := h.width
  rw [entryStart, entryFde, hvariables.1, hvariables.2]
  exact ⟨hsame.encodedValue_eq _ (by omega) (by rw [hwidth]; omega),
    hsame.encodedValue_eq _ (by omega) (by rw [hwidth]; omega)⟩

theorem SameTable.searchTable (hsame : SameTable m m') (h : SearchTable m size) :
    SearchTable m' size := by
  have hvariables : m'.fdeTableEncoding = m.fdeTableEncoding ∧
      m'.fdeTableEntryWidth = m.fdeTableEntryWidth ∧ m'.numFdes = m.numFdes := by
    rw [hsame.eq]
    exact ⟨rfl, rfl, rfl⟩
  obtain ⟨hencoding, hwidth, hcount⟩ := hvariables
  refine ⟨hencoding ▸ h.size_eq, hencoding ▸ h.scaling, hwidth.trans h.width, hcount ▸ h.nonempty, ?_⟩
  intro i j hij hj
  rw [hcount] at hj
  rw [(hsame.entry_eq h (Nat.lt_of_le_of_lt hij hj)).1, (hsame.entry_eq h hj).1]
  exact h.sorted i j hij hj

/-- **Once `unwind_init` has found the width of an entry**, `find_fde` ends with the FDE of the last
entry that starts at or below the PC, or of the first one if all start above; and so it does
whatever the bytes outside of the table are. -/
theorem findFde_last :
    (∀ (m₀ : Machine) (ehFrameHdrEnd ehFrameBegin : ℕ) (data : EhData),
      unwindInit m₀ fuel ehFrameHdrEnd ehFrameBegin = .done (.ok (), ⟨m, data⟩) →
        encodedSize m.fdeTableEncoding = some size →
          m.fdeTableEncoding / 16 < 4 ∧ m.fdeTableEntryWidth = 2 * size) ∧
      (SearchTable m size → m.numFdes ≤ fuel → ∀ pc,
        ∃ k, LastOrZero (fun i => entryStart m size i ≤ pc) m.numFdes k ∧
          findFde m fuel pc = .done (entryFde m size k) ∧
          ∀ m', SameTable m m' → findFde m' fuel pc = .done (entryFde m size k)) := by
  refine ⟨fun _ _ _ _ hrun hsize => unwindInit_entryWidth hrun hsize, fun h hfuel pc => ?_⟩
  obtain ⟨k, hk, hrun⟩ := findFde_entry h hfuel pc
  refine ⟨k, hk, hrun, fun m' hsame => ?_⟩
  have hcount : m'.numFdes = m.numFdes := by rw [hsame.eq]
  obtain ⟨k', hk', hrun'⟩ := findFde_entry (hsame.searchTable h) (hcount.trans_le hfuel) pc
  rw [hcount] at hk'
  have hother : LastOrZero (fun i => entryStart m size i ≤ pc) m.numFdes k' :=
    hk'.congr fun i hi => by rw [(hsame.entry_eq h hi).1]
  rw [hrun', hk.unique hother, (hsame.entry_eq h hother.lt).2]

end Search

/-! ### A table of two entries -/

/-- A header at 0x1000 before `unwind_init`; the entries are relative to it, with a sign. -/
def unindexed : Machine :=
  { machineOf [0x01, 0x03, 0x03, 0x3B, 0x00, 0x50, 0x00, 0x00, 0x02, 0x00, 0x00, 0x00,
      0x00, 0xF8, 0xFF, 0xFF, 0x00, 0x01, 0x00, 0x00, 0x00, 0x10, 0x00, 0x00, 0x00, 0x02, 0x00, 0x00] with
    ehFrameHdrBegin := 0x1000
    unwinderAvailable := false
    fdeBinarySearchTable := 0
    fdeTableEncoding := 0
    fdeTableEntryWidth := 0
    numFdes := 0 }

/-- The machine after `unwind_init`. -/
def indexed : Machine :=
  { unindexed with
    unwinderAvailable := true
    fdeBinarySearchTable := 0x100C
    fdeTableEncoding := 0x3B
    fdeTableEntryWidth := 8
    numFdes := 2 }

theorem unwindInit_unindexed :
    unwindInit unindexed 2 0x101C 0x5000 = .done (.ok (), ⟨indexed, ⟨0x1010, 12⟩⟩) := by
  rfl

/-- The entries start at 0x800 and 0x2000. -/
theorem findFde_last_indexed : encodedSize indexed.fdeTableEncoding = some 4 ∧
    ∃ k, LastOrZero (fun i => entryStart indexed 4 i ≤ 0x1234) 2 k ∧
      findFde indexed 2 0x1234 = .done (entryFde indexed 4 k) := by
  have hsize : encodedSize indexed.fdeTableEncoding = some 4 := by decide
  obtain ⟨hscaling, hwidth⟩ := (@findFde_last indexed 4 2).1 unindexed _ _ _ unwindInit_unindexed hsize
  have hstarts : ∀ j < 2, ∀ i ≤ j, entryStart indexed 4 i ≤ entryStart indexed 4 j := by
    decide +kernel
  have htable : SearchTable indexed 4 :=
    ⟨hsize, hscaling, hwidth, by decide, fun i j hij hj => hstarts j hj i hij⟩
  obtain ⟨k, hk, hrun, -⟩ := (@findFde_last indexed 4 2).2 htable (by decide) 0x1234
  exact ⟨hsize, k, hk, hrun⟩

end UltraKernel.Unwind
