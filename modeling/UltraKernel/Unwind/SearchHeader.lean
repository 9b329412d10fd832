import UltraKernel.Lib.TaggedRecords
import UltraKernel.Unwind.SearchTable

/-!
# From the FDEs to the search table, and back

The linker writes the header of the search table: encodings, and values in these encodings.  Once
`unwind_init` has read it, `find_fde` finds the FDEs that the linker meant.

* `Represents`, `encodedValue_encode`: a value in an encoding;
* `SearchHeader`: a header in memory;
* `unwindInit_header`, `searchTable_header`: what is read of it;
* `searchHeader_finds`: what is found.
-/

namespace UltraKernel.Unwind

open Word Program

/-! ### Values -/

/-- The bytes of a value in an encoding, at an address. -/
def encode (m : Machine) (encoding size address value : ℕ) : List (BitVec 8) :=
  little size (sub64 value (relativeTo m encoding address))

/-- The value has a representation: the difference has room in the bytes, with its sign. -/
def Represents (m : Machine) (encoding size address value : ℕ) : Prop :=
  value < 2 ^ 64 ∧
    let difference := sub64 value (relativeTo m encoding address)
    if encoding.testBit 3 then
      difference < 2 ^ (8 * size - 1) ∨ 2 ^ 64 - 2 ^ (8 * size - 1) ≤ difference
    else difference < 2 ^ (8 * size)

section Values

variable {m : Machine} {encoding size address value : ℕ}

theorem readBytes_eq (mem : ℕ → BitVec 8) (address size : ℕ) :
    readBytes mem address size = numberAt mem address size := by
  induction size generalizing address with
  | zero => rfl
  | succ size ih =>
    rw [readBytes, ih, numberAt, numberAt, List.range_succ_eq_map, List.map_cons, number, List.map_map]
    refine congrArg (fun bytes => _ + 256 * number bytes) (List.map_congr_left fun i _ => ?_)
    exact congrArg mem (by rw [Nat.succ_eq_add_one]; omega)

theorem encodedSize_cases (h : encodedSize encoding = some size) : size = 2 ∨ size = 4 ∨ size = 8 := by
  unfold encodedSize at h
  split_ifs at h
  all_goals
    obtain rfl := Option.some.inj h
    decide

/-- **A difference** is what it is written as, with its sign. -/
theorem extend_difference (hsize : size = 2 ∨ size = 4 ∨ size = 8) {signed : Bool} {difference : ℕ}
    (hlt : difference < 2 ^ 64)
    (h : if signed then difference < 2 ^ (8 * size - 1) ∨ 2 ^ 64 - 2 ^ (8 * size - 1) ≤ difference
      else difference < 2 ^ (8 * size)) :
    (if signed then (BitVec.ofNat (8 * size) difference).signExtend 64
      else (BitVec.ofNat (8 * size) difference).setWidth 64).toNat = difference := by
  cases signed with
  | false =>
    rw [if_neg Bool.false_ne_true] at h ⊢
    rw [BitVec.toNat_setWidth, BitVec.toNat_ofNat, Nat.mod_eq_of_lt h, Nat.mod_eq_of_lt hlt]
  | true =>
    rw [if_pos rfl] at h ⊢
    rw [BitVec.toNat_signExtend, BitVec.msb_eq_decide, BitVec.toNat_setWidth, BitVec.toNat_ofNat]
    simp only [decide_eq_true_eq]
    rcases hsize with rfl | rfl | rfl
    · split_ifs <;> omega
    · split_ifs <;> omega
    · split_ifs <;> omega

/-- **A value that has a representation** is read back. -/
theorem encodedValue_encode (hsize : encodedSize encoding = some size)
    (hvalue : Represents m encoding size address value)
    (hlies : Lies m.mem address (encode m encoding size address value)) :
    encodedValue m encoding size address = value := by
  have hcases := encodedSize_cases hsize
  have hdifference : sub64 value (relativeTo m encoding address) < 2 ^ 64 := Nat.mod_lt _ (by decide)
  have hread : readBytes m.mem address size = sub64 value (relativeTo m encoding address) % 256 ^ size := by
    have hbytes := hlies.eq
    rw [encode, little_length] at hbytes
    rw [readBytes_eq, numberAt, hbytes, number_little]
  have hpow : 256 ^ size = 2 ^ (8 * size) := by rw [pow_mul, show 2 ^ 8 = 256 by decide]
  have hstored : (storedValue m encoding size address).toNat =
      sub64 value (relativeTo m encoding address) := by
    have hmod : BitVec.ofNat (8 * size) (readBytes m.mem address size) =
        BitVec.ofNat (8 * size) (sub64 value (relativeTo m encoding address)) := by
      apply BitVec.eq_of_toNat_eq
      rw [hread, hpow, BitVec.toNat_ofNat, BitVec.toNat_ofNat, Nat.mod_mod]
    rw [storedValue, hmod]
    exact extend_difference hcases hdifference hvalue.2
  have hlt := hvalue.1
  rw [encodedValue, hstored, add64, sub64]
  omega

end Values

/-! ### Headers -/

/-- The bytes of entries: where the code of an FDE starts, and where the FDE is. -/
def entriesBytes (m : Machine) (encoding size : ℕ) : ℕ → List (ℕ × ℕ) → List (BitVec 8)
  | _, [] => []
  | address, (start, fde) :: entries =>
    encode m encoding size address start ++ (encode m encoding size (address + size) fde ++
      entriesBytes m encoding size (address + 2 * size) entries)

/-- The values of entries have representations. -/
def EntriesRepresent (m : Machine) (encoding size : ℕ) : ℕ → List (ℕ × ℕ) → Prop
  | _, [] => True
  | address, (start, fde) :: entries =>
    Represents m encoding size address start ∧ Represents m encoding size (address + size) fde ∧
      EntriesRepresent m encoding size (address + 2 * size) entries

/-- An encoding of a fixed width. -/
structure Encoding where
  encoding : ℕ
  size : ℕ
  size_eq : encodedSize encoding = some size
  scaling : encoding / 16 < 4

/-- The encodings of a header, in their order: of the pointer to `.eh_frame`, of the number of FDEs and
of the table. -/
structure Encodings where
  pointer : Encoding
  count : Encoding
  table : Encoding

/-- Where the entries start. -/
def Encodings.tableOffset (e : Encodings) : ℕ := 4 + e.pointer.size + e.count.size

/-- **A header** of entries in memory, in the order of their starts. -/
structure SearchHeader (m : Machine) (ehFrameHdrEnd ehFrameBegin : ℕ) (e : Encodings)
    (entries : List (ℕ × ℕ)) : Prop where
  version : m.mem m.ehFrameHdrBegin = 1
  pointerEncoding : m.mem (m.ehFrameHdrBegin + 1) = BitVec.ofNat 8 e.pointer.encoding
  countEncoding : m.mem (m.ehFrameHdrBegin + 2) = BitVec.ofNat 8 e.count.encoding
  tableEncoding : m.mem (m.ehFrameHdrBegin + 3) = BitVec.ofNat 8 e.table.encoding
  pointer : Lies m.mem (m.ehFrameHdrBegin + 4)
    (encode m e.pointer.encoding e.pointer.size (m.ehFrameHdrBegin + 4) ehFrameBegin)
  pointer_represents : Represents m e.pointer.encoding e.pointer.size (m.ehFrameHdrBegin + 4) ehFrameBegin
  count : Lies m.mem (m.ehFrameHdrBegin + 4 + e.pointer.size)
    (encode m e.count.encoding e.count.size (m.ehFrameHdrBegin + 4 + e.pointer.size) entries.length)
  count_represents : Represents m e.count.encoding e.count.size (m.ehFrameHdrBegin + 4 + e.pointer.size)
    entries.length
  table : Lies m.mem (m.ehFrameHdrBegin + e.tableOffset)
    (entriesBytes m e.table.encoding e.table.size (m.ehFrameHdrBegin + e.tableOffset) entries)
  table_represents : EntriesRepresent m e.table.encoding e.table.size
    (m.ehFrameHdrBegin + e.tableOffset) entries
  end_eq : ehFrameHdrEnd = m.ehFrameHdrBegin + e.tableOffset + 2 * e.table.size * entries.length
  room : ehFrameHdrEnd < 2 ^ 64
  sorted : entries.Pairwise fun entry other => entry.1 ≤ other.1

/-- The variables that `unwind_init` sets before it measures the first value. -/
def counted (m : Machine) (e : Encodings) (entries : List (ℕ × ℕ)) : Machine :=
  { m with
    fdeTableEncoding := e.table.encoding
    numFdes := entries.length
    fdeBinarySearchTable := m.ehFrameHdrBegin + e.tableOffset }

/-- The variables that `unwind_init` sets. -/
def initialized (m : Machine) (e : Encodings) (entries : List (ℕ × ℕ)) : Machine :=
  { counted m e entries with
    fdeTableEntryWidth := 2 * e.table.size
    unwinderAvailable := true }

section Headers

variable {m : Machine} {fuel ehFrameHdrEnd ehFrameBegin : ℕ} {e : Encodings} {entries : List (ℕ × ℕ)}

theorem onHeader_of_ok {α : Type} {x : Reader α} {s : Init} {value : α} {data : EhData}
    (h : x s.data = .done (.ok value, data)) :
    onHeader x s = .done (.ok value, { s with data := data }) := zoom_of_ok h

theorem onHeader_of_error {α : Type} {x : Reader α} {s : Init} {ret : Returned} {data : EhData}
    (h : x s.data = .done (.error ret, data)) :
    onHeader x s = .done (.error ret, { s with data := data }) := by
  rw [onHeader, zoom, h]
  rfl

theorem setVariables_run (f : Machine → Machine) (s : Init) :
    setVariables f s = .done (.ok (), { s with machine := f s.machine }) := rfl

/-- A byte that is an encoding. -/
theorem Encoding.byte (e : Encoding) : (BitVec.ofNat 8 e.encoding).toNat = e.encoding := by
  have := e.scaling
  rw [BitVec.toNat_ofNat]
  omega

/-- **A value of the header** is read. -/
theorem Encoding.decodes (e : Encoding) (fuel : ℕ) {cursor bytesLeft value : ℕ}
    (hlies : Lies m.mem cursor (encode m e.encoding e.size cursor value))
    (hvalue : Represents m e.encoding e.size cursor value) (hleft : e.size ≤ bytesLeft) :
    decodeValue m fuel e.encoding ⟨cursor, bytesLeft⟩ =
      .done (.ok value, ⟨cursor + e.size, bytesLeft - e.size⟩) := by
  rw [decodeValue_fixed e.size_eq e.scaling hleft, encodedValue_encode e.size_eq hvalue hlies]

/-- Where nothing is left, no value is read. -/
theorem Encoding.decodes_nothing (e : Encoding) (fuel cursor : ℕ) :
    decodeValue m fuel e.encoding ⟨cursor, 0⟩ = .done (.error einval, ⟨cursor, 0⟩) := by
  have hpos := (encodedSize_le e.size_eq).1
  rw [decodeValue, bind_of_ok (relativeTo_run e.scaling _), decodeFormat_fixed e.size_eq, copyData]
  refine bind_of_error ?_
  rw [consumeChecked, bind_of_ok (get_run _), bind_of_error (refuse_of hpos _ _)]

theorem entriesBytes_first {address size encoding : ℕ} {entry : ℕ × ℕ}
    (hlies : Lies m.mem address (entriesBytes m encoding size address (entry :: entries))) :
    Lies m.mem address (encode m encoding size address entry.1) ∧
      Lies m.mem (address + size) (encode m encoding size (address + size) entry.2) ∧
      Lies m.mem (address + 2 * size) (entriesBytes m encoding size (address + 2 * size) entries) := by
  rw [entriesBytes, lies_append, lies_append, encode, encode, little_length, little_length,
    Nat.add_assoc, ← Nat.two_mul] at hlies
  exact hlies

/-- **The values of an entry.** -/
theorem encodedValue_entries {address size encoding : ℕ} (hsize : encodedSize encoding = some size)
    (hlies : Lies m.mem address (entriesBytes m encoding size address entries))
    (hvalues : EntriesRepresent m encoding size address entries) {k : ℕ} {entry : ℕ × ℕ}
    (hk : entries[k]? = some entry) :
    encodedValue m encoding size (address + k * (2 * size)) = entry.1 ∧
      encodedValue m encoding size (address + k * (2 * size) + size) = entry.2 := by
  induction entries generalizing address k with
  | nil => cases hk
  | cons first entries ih =>
    obtain ⟨hstart, hfde, hrest⟩ := entriesBytes_first hlies
    obtain ⟨hstarts, hfdes, hvalues⟩ := hvalues
    cases k with
    | zero =>
      obtain rfl := Option.some.inj hk
      rw [Nat.zero_mul, Nat.add_zero]
      exact ⟨encodedValue_encode hsize hstarts hstart, encodedValue_encode hsize hfdes hfde⟩
    | succ k =>
      have hplace : address + (k + 1) * (2 * size) = address + 2 * size + k * (2 * size) := by
        rw [Nat.succ_mul]
        omega
      rw [hplace]
      exact ih hrest hvalues hk

/-- The bytes that are left of a header, before the pointer to `.eh_frame`. -/
theorem SearchHeader.bytesLeft (h : SearchHeader m ehFrameHdrEnd ehFrameBegin e entries) :
    sub64 ehFrameHdrEnd m.ehFrameHdrBegin =
      4 + (e.pointer.size + (e.count.size + 2 * e.table.size * entries.length)) := by
  have hend := h.end_eq
  have hroom := h.room
  rw [Encodings.tableOffset] at hend
  rw [sub64]
  omega

/-- **The encodings** are read, and kept. -/
theorem unwindInit_encodings (h : SearchHeader m ehFrameHdrEnd ehFrameBegin e entries) :
    unwindInit m fuel ehFrameHdrEnd ehFrameBegin =
      initTable m fuel ehFrameBegin e.pointer.encoding e.count.encoding e.table.encoding
        ⟨{ m with fdeTableEncoding := e.table.encoding }, ⟨m.ehFrameHdrBegin + 4,
          e.pointer.size + (e.count.size + 2 * e.table.size * entries.length)⟩⟩ := by
  have hread : ∀ cursor bytesLeft, 1 ≤ bytesLeft →
      onHeader (ehConsume m 1) ⟨m, ⟨cursor, bytesLeft⟩⟩ =
        .done (.ok (m.mem cursor).toNat, ⟨m, ⟨cursor + 1, bytesLeft - 1⟩⟩) :=
    fun cursor bytesLeft hleft => onHeader_of_ok (ehConsume_one hleft)
  have hversion : ¬ (m.mem m.ehFrameHdrBegin).toNat ≠ 1 := by
    rw [h.version]
    exact fun hne => hne rfl
  rw [unwindInit, h.bytesLeft]
  generalize e.pointer.size + (e.count.size + 2 * e.table.size * entries.length) = left
  rw [bind_of_ok (hread _ _ (by omega)), bind_of_ok (refuse_of_not hversion _ _),
    bind_of_ok (hread _ _ (by omega)), h.pointerEncoding, e.pointer.byte,
    bind_of_ok (hread _ _ (by omega)), h.countEncoding, e.count.byte,
    bind_of_ok (hread _ _ (by omega)), h.tableEncoding, e.table.byte]
  have hleft : 4 + left - 1 - 1 - 1 - 1 = left := by omega
  rw [hleft]
  rfl

/-- The pointer to `.eh_frame` and the number of FDEs are read. -/
theorem SearchHeader.counted (h : SearchHeader m ehFrameHdrEnd ehFrameBegin e entries) (fuel : ℕ)
    (machine : Machine) :
    onHeader (decodeValue m fuel e.pointer.encoding) ⟨machine, ⟨m.ehFrameHdrBegin + 4,
        e.pointer.size + (e.count.size + 2 * e.table.size * entries.length)⟩⟩ =
      .done (.ok ehFrameBegin, ⟨machine, ⟨m.ehFrameHdrBegin + 4 + e.pointer.size,
        e.count.size + 2 * e.table.size * entries.length⟩⟩) ∧
    onHeader (decodeValue m fuel e.count.encoding) ⟨machine, ⟨m.ehFrameHdrBegin + 4 + e.pointer.size,
        e.count.size + 2 * e.table.size * entries.length⟩⟩ =
      .done (.ok entries.length, ⟨machine, ⟨m.ehFrameHdrBegin + e.tableOffset,
        2 * e.table.size * entries.length⟩⟩) := by
  have hpointer := e.pointer.decodes fuel h.pointer h.pointer_represents
    (Nat.le_add_right _ (e.count.size + 2 * e.table.size * entries.length))
  have hcount := e.count.decodes fuel h.count h.count_represents
    (Nat.le_add_right _ (2 * e.table.size * entries.length))
  rw [Nat.add_sub_cancel_left] at hpointer hcount
  have hplace : m.ehFrameHdrBegin + 4 + e.pointer.size + e.count.size =
      m.ehFrameHdrBegin + e.tableOffset := by
    rw [Encodings.tableOffset]
    omega
  rw [hplace] at hcount
  exact ⟨onHeader_of_ok hpointer, onHeader_of_ok hcount⟩

/-- **A header of no entries** is refused. -/
theorem unwindInit_nothing (h : SearchHeader m ehFrameHdrEnd ehFrameBegin e []) :
    ∃ s, unwindInit m fuel ehFrameHdrEnd ehFrameBegin = .done (.error einval, s) ∧
      s.machine.unwinderAvailable = m.unwinderAvailable := by
  obtain ⟨hpointer, hcount⟩ := h.counted fuel { m with fdeTableEncoding := e.table.encoding }
  have hvalue := onHeader_of_error (s := ⟨counted m e [], ⟨m.ehFrameHdrBegin + e.tableOffset, 0⟩⟩)
    (e.table.decodes_nothing (m := m) fuel (m.ehFrameHdrBegin + e.tableOffset))
  refine ⟨⟨counted m e [], ⟨m.ehFrameHdrBegin + e.tableOffset, 0⟩⟩, ?_, rfl⟩
  rw [unwindInit_encodings h, initTable, bind_of_ok hpointer,
    bind_of_ok (refuse_of_not (fun hne => hne rfl) _ _), bind_of_ok hcount, bind_of_ok (setVariables_run _ _),
    bind_of_ok (get_run _), bind_of_ok (setVariables_run _ _)]
  exact bind_of_error hvalue

/-- **A header of entries** is accepted. -/
theorem unwindInit_header (h : SearchHeader m ehFrameHdrEnd ehFrameBegin e entries)
    (hne : entries ≠ []) :
    ∃ data, unwindInit m fuel ehFrameHdrEnd ehFrameBegin =
      .done (.ok (), ⟨initialized m e entries, data⟩) := by
  obtain ⟨hpointer, hcount⟩ := h.counted fuel { m with fdeTableEncoding := e.table.encoding }
  obtain ⟨entry, rest, rfl⟩ := List.exists_cons_of_ne_nil hne
  have hle := encodedSize_le e.table.size_eq
  have hvalue := e.table.decodes fuel (entriesBytes_first h.table).1 h.table_represents.1
    (show e.table.size ≤ 2 * e.table.size * (entry :: rest).length by
      rw [List.length_cons, Nat.mul_succ]
      omega)
  have hread := onHeader_of_ok (s := ⟨counted m e (entry :: rest),
    ⟨m.ehFrameHdrBegin + e.tableOffset, 2 * e.table.size * (entry :: rest).length⟩⟩) hvalue
  have hwidth : (m.ehFrameHdrBegin + e.tableOffset + e.table.size - (m.ehFrameHdrBegin + e.tableOffset)) %
      256 * 2 % 256 = 2 * e.table.size := by omega
  refine ⟨⟨m.ehFrameHdrBegin + e.tableOffset + e.table.size,
    2 * e.table.size * (entry :: rest).length - e.table.size⟩, ?_⟩
  rw [unwindInit_encodings h, initTable, bind_of_ok hpointer,
    bind_of_ok (refuse_of_not (fun hne => hne rfl) _ _), bind_of_ok hcount, bind_of_ok (setVariables_run _ _),
    bind_of_ok (get_run _), bind_of_ok (setVariables_run _ _)]
  refine (bind_of_ok hread).trans ?_
  rw [bind_of_ok (get_run _), bind_of_ok (setVariables_run _ _), setVariables_run]
  dsimp only
  rw [hwidth]
  rfl

/-- The entries that `find_fde` reads. -/
theorem SearchHeader.entries_read (h : SearchHeader m ehFrameHdrEnd ehFrameBegin e entries) {k : ℕ}
    {entry : ℕ × ℕ} (hk : entries[k]? = some entry) :
    entryStart (initialized m e entries) e.table.size k = entry.1 ∧
      entryFde (initialized m e entries) e.table.size k = entry.2 :=
  encodedValue_entries e.table.size_eq h.table h.table_represents hk

theorem SearchHeader.searchTable (h : SearchHeader m ehFrameHdrEnd ehFrameBegin e entries)
    (hne : entries ≠ []) : SearchTable (initialized m e entries) e.table.size where
  size_eq := e.table.size_eq
  scaling := e.table.scaling
  width := rfl
  nonempty := List.length_pos_of_ne_nil hne
  sorted i j hij hj := by
    have hi : i < entries.length := Nat.lt_of_le_of_lt hij hj
    have hj : j < entries.length := hj
    rw [(h.entries_read (List.getElem?_eq_getElem hi)).1, (h.entries_read (List.getElem?_eq_getElem hj)).1]
    rcases Nat.eq_or_lt_of_le hij with rfl | hlt
    · exact Nat.le_refl _
    · exact List.pairwise_iff_getElem.mp h.sorted i j hi hj hlt

/-- **The linker's entries are found.** -/
theorem searchHeader_finds (h : SearchHeader m ehFrameHdrEnd ehFrameBegin e entries)
    (hfuel : entries.length ≤ fuel) :
    (entries = [] → ∃ s, unwindInit m fuel ehFrameHdrEnd ehFrameBegin = .done (.error einval, s) ∧
      s.machine.unwinderAvailable = m.unwinderAvailable) ∧
    (entries ≠ [] → ∃ data, unwindInit m fuel ehFrameHdrEnd ehFrameBegin =
        .done (.ok (), ⟨initialized m e entries, data⟩) ∧
      ∀ pc, ∃ before entry after, entries = before ++ entry :: after ∧
        (before ≠ [] → entry.1 ≤ pc) ∧ (∀ other ∈ after, pc < other.1) ∧
        findFde (initialized m e entries) fuel pc = .done entry.2) := by
  refine ⟨?_, ?_⟩
  · rintro rfl
    exact unwindInit_nothing h
  · intro hne
    obtain ⟨data, hrun⟩ := @unwindInit_header m fuel _ _ _ _ h hne
    refine ⟨data, hrun, fun pc => ?_⟩
    obtain ⟨k, hk, hfound⟩ := findFde_entry (h.searchTable hne) hfuel pc
    have hlt : k < entries.length := hk.lt
    have hentry := h.entries_read (List.getElem?_eq_getElem hlt)
    refine ⟨entries.take k, entries[k], entries.drop (k + 1), ?_, ?_, ?_, ?_⟩
    · rw [List.cons_getElem_drop_succ, List.take_append_drop]
    · intro hbefore
      rcases hk.holds with hle | ⟨rfl, -⟩
      · exact hentry.1 ▸ hle
      · exact absurd List.take_zero hbefore
    · intro other hother
      obtain ⟨i, hi, rfl⟩ := List.mem_iff_getElem.mp hother
      have hlast : k + 1 + i < entries.length := by
        rw [List.length_drop] at hi
        omega
      have hnot := hk.last (k + 1 + i) (by omega) hlast
      rw [(h.entries_read (List.getElem?_eq_getElem hlast)).1] at hnot
      rw [List.getElem_drop]
      exact Nat.not_le.mp hnot
    · rw [hfound, hentry.2]

end Headers

/-- The encodings of the header with two entries. -/
def unindexedEncodings : Encodings where
  pointer := ⟨0x03, 4, rfl, Nat.lt_of_sub_eq_succ rfl⟩
  count := ⟨0x03, 4, rfl, Nat.lt_of_sub_eq_succ rfl⟩
  table := ⟨0x3B, 4, rfl, Nat.lt_of_sub_eq_succ rfl⟩

/-- The FDE of the second entry is found. -/
theorem searchHeader_finds_unindexed : ∃ data, unwindInit unindexed 2 0x101C 0x5000 =
      .done (.ok (), ⟨initialized unindexed unindexedEncodings [(0x800, 0x1100), (0x2000, 0x1200)], data⟩) ∧
    ∀ pc, ∃ (before : List (ℕ × ℕ)) (entry : ℕ × ℕ) (after : List (ℕ × ℕ)),
      [(0x800, 0x1100), (0x2000, 0x1200)] = before ++ entry :: after ∧
      (before ≠ [] → entry.1 ≤ pc) ∧ (∀ other ∈ after, pc < other.1) ∧
      findFde (initialized unindexed unindexedEncodings [(0x800, 0x1100), (0x2000, 0x1200)]) 2 pc =
        .done entry.2 := by
  have hheader : SearchHeader unindexed 0x101C 0x5000 unindexedEncodings
      [(0x800, 0x1100), (0x2000, 0x1200)] := by
    constructor
    · decide +kernel
    · decide +kernel
    · decide +kernel
    · decide +kernel
    · decide +kernel
    · exact ⟨by decide, by decide⟩
    · decide +kernel
    · exact ⟨by decide, by decide⟩
    · decide +kernel
    · exact ⟨⟨by decide, by decide⟩, ⟨by decide, by decide⟩, ⟨by decide, by decide⟩,
        ⟨by decide, by decide⟩, trivial⟩
    · rfl
    · decide
    · decide
  exact (searchHeader_finds hheader (Nat.le_refl 2)).2 (List.cons_ne_nil _ _)

end UltraKernel.Unwind
