import UltraKernel.Lib.Leb128
import UltraKernel.Unwind.Bounds

/-!
# LEB128 numbers in unwind data

`decode_format` shifts each group of seven bits as an `int`, which has 32 bits, and adds it to a
value of 64 bits.

* `decodeValue_marked`: the bytes of any groups are consumed;
* `orGroups_eq`: what the groups are put together to;
* `signExtend_below`, `signExtend_above`: the extension of the sign;
* `leb128_iff`: the numbers that are decoded from their encodings.
-/

namespace UltraKernel.Unwind

open Word Program Leb128

/-- The bytes are in memory from the address on. -/
def BytesAt (m : Machine) (address : ℕ) (bytes : List ℕ) : Prop :=
  ∀ i < bytes.length, (m.mem (address + i)).toNat = bytes.getD i 0

/-- **`decode_value` inverts the encoding**: on the bytes with anything after them, it returns the
value and consumes exactly the bytes. -/
def Inverts (encoding : ℕ) (bytes : List ℕ) (value : BitVec 64) : Prop :=
  ∀ (m : Machine) (fuel cursor bytesLeft : ℕ), BytesAt m cursor bytes →
    bytes.length ≤ bytesLeft → bytes.length ≤ fuel →
    decodeValue m fuel encoding ⟨cursor, bytesLeft⟩ =
      .done (.ok value.toNat, ⟨cursor + bytes.length, bytesLeft - bytes.length⟩)

/-! ### The loop -/

/-- The value after the groups, of which the first is shifted by `numBits`. -/
def orGroups (m : Machine) : BitVec 64 → ℕ → List ℕ → BitVec 64
  | value, _, [] => value
  | value, numBits, g :: groups =>
    orGroups m (value ||| (shiftInt m (BitVec.ofNat 32 g) numBits).signExtend 64) (numBits + 7) groups

section Loop

variable {m : Machine} {fuel cursor bytesLeft numBits : ℕ} {value : BitVec 64} {groups : List ℕ}

theorem bytesAt_cons {b : ℕ} {bytes : List ℕ} (h : BytesAt m cursor (b :: bytes)) :
    (m.mem cursor).toNat = b ∧ BytesAt m (cursor + 1) bytes := by
  refine ⟨h 0 (Nat.succ_pos _), fun i hi => ?_⟩
  rw [Nat.add_assoc, Nat.add_comm 1 i]
  exact h (i + 1) (Nat.succ_lt_succ hi)

/-- Bytes that are left are consumed. -/
theorem consumeChecked_of_le {size : ℕ} (hleft : size ≤ bytesLeft) (ret : ErrorT) :
    consumeChecked m size ret ⟨cursor, bytesLeft⟩ =
      .done (.ok (readBytes m.mem cursor size), ⟨cursor + size, bytesLeft - size⟩) := by
  rw [consumeChecked, bind_of_ok (get_run _), bind_of_ok (refuse_of_not (Nat.not_lt.mpr hleft) _ _),
    consumeRaw, if_neg (Nat.not_lt.mpr hleft)]

theorem ehConsume_one (h : 1 ≤ bytesLeft) :
    ehConsume m 1 ⟨cursor, bytesLeft⟩ =
      .done (.ok (m.mem cursor).toNat, ⟨cursor + 1, bytesLeft - 1⟩) := consumeChecked_of_le h _

/-- **The loop** goes on to the byte that is not marked. -/
theorem leb128Loop_marked (hne : groups ≠ []) (hlt : ∀ g ∈ groups, g < 128)
    (hbytes : BytesAt m cursor (marked groups)) (hbits : numBits + 7 * groups.length < 256)
    (hleft : groups.length ≤ bytesLeft) (hfuel : groups.length ≤ fuel) :
    leb128Loop m fuel value numBits ⟨cursor, bytesLeft⟩ =
      .done (.ok (orGroups m value numBits groups, numBits + 7 * groups.length),
        ⟨cursor + groups.length, bytesLeft - groups.length⟩) := by
  induction groups using marked.induct generalizing fuel value numBits cursor bytesLeft with
  | case1 => exact absurd rfl hne
  | case2 g =>
    cases fuel with
    | zero => exact absurd hfuel (by simp)
    | succ fuel =>
      obtain ⟨hbyte, -⟩ := bytesAt_cons hbytes
      have hg := hlt g (List.mem_singleton_self g)
      rw [List.length_singleton] at hbits hleft ⊢
      rw [leb128Loop, bind_of_ok (ehConsume_one hleft), hbyte, Nat.mod_eq_of_lt hg,
        Nat.mod_eq_of_lt hbits]
      exact congrFun (if_neg (Nat.not_le.mpr hg)) _
  | case3 g k groups ih =>
    cases fuel with
    | zero => exact absurd hfuel (by simp)
    | succ fuel =>
      rw [marked] at hbytes
      obtain ⟨hbyte, hrest⟩ := bytesAt_cons hbytes
      have hg := hlt g List.mem_cons_self
      rw [List.length_cons] at hbits hleft hfuel
      rw [leb128Loop, bind_of_ok (ehConsume_one (Nat.le_trans (Nat.succ_pos _) hleft)), hbyte,
        Nat.add_mod_right, Nat.mod_eq_of_lt hg,
        Nat.mod_eq_of_lt (show numBits + 7 < 256 by omega)]
      refine (congrFun (if_pos (Nat.le_add_left 128 g)) _).trans ?_
      rw [ih (List.cons_ne_nil _ _) (fun d hd => hlt d (List.mem_cons_of_mem _ hd)) hrest (by omega)
        (by omega) (by omega), List.length_cons (a := g)]
      have hnext : numBits + 7 + 7 * (k :: groups).length =
          numBits + 7 * ((k :: groups).length + 1) := by omega
      have hcursor : cursor + 1 + (k :: groups).length = cursor + ((k :: groups).length + 1) := by
        omega
      rw [hnext, hcursor, Nat.sub_sub, Nat.add_comm 1]
      rfl

/-- The number of bits that `int` can be shifted by, or nothing is left of what is shifted more. -/
def ShiftsFit (m : Machine) (bits : ℕ) : Prop :=
  bits ≤ 38 ∨ ∀ value k, m.undefined.shift32 value k = 0

theorem shiftInt_ofNat {g : ℕ} (h : ShiftsFit m (numBits + 7)) :
    shiftInt m (BitVec.ofNat 32 g) numBits = BitVec.ofNat 32 (2 ^ numBits * g) := by
  rw [shiftInt]
  split_ifs with hdefined
  · apply BitVec.eq_of_toNat_eq
    rw [BitVec.toNat_shiftLeft, BitVec.toNat_ofNat, BitVec.toNat_ofNat, Nat.shiftLeft_eq,
      Nat.mod_mul_mod, Nat.mul_comm]
  · rcases h with hfew | hzero
    · exact absurd (show numBits < 32 by omega) hdefined
    · rw [hzero]
      apply BitVec.eq_of_toNat_eq
      rw [BitVec.toNat_ofNat]
      have hdvd : 2 ^ 32 ∣ 2 ^ numBits := Nat.pow_dvd_pow 2 (Nat.not_lt.mp hdefined)
      exact (Nat.mod_eq_zero_of_dvd (hdvd.mul_right g)).symm

/-- **The value of the groups** is put together in 32 bits, whose sign is then extended. -/
theorem orGroups_eq (hlt : ∀ g ∈ groups, g < 128) (h : ShiftsFit m (numBits + 7 * groups.length)) :
    orGroups m value numBits groups =
      value ||| (BitVec.ofNat 32 (2 ^ numBits * Nat.ofDigits 128 groups)).signExtend 64 := by
  induction groups generalizing value numBits with
  | nil => simp [orGroups]
  | cons g groups ih =>
    rw [List.length_cons] at h
    have hhead : ShiftsFit m (numBits + 7) := h.imp (fun hle => by omega) id
    have htail : ShiftsFit m (numBits + 7 + 7 * groups.length) := h.imp (fun hle => by omega) id
    have hg : 2 ^ numBits * g < 2 ^ (numBits + 7) := by
      rw [Nat.pow_add]
      exact (Nat.mul_lt_mul_left (Nat.pow_pos (by decide))).mpr (hlt g List.mem_cons_self)
    have hsum : 2 ^ numBits * Nat.ofDigits 128 (g :: groups) =
        2 ^ numBits * g ||| 2 ^ (numBits + 7) * Nat.ofDigits 128 groups := by
      rw [Nat.or_comm, ← Nat.two_pow_add_eq_or_of_lt hg, Nat.ofDigits_cons, Nat.pow_add]
      ring
    rw [orGroups, ih (fun d hd => hlt d (List.mem_cons_of_mem _ hd)) htail, shiftInt_ofNat hhead, hsum,
      BitVec.ofNat_or, BitVec.signExtend_or, BitVec.or_assoc]

/-- **The bytes of any groups** are consumed, and `EOK` is returned. -/
theorem decodeValue_marked {encoding : ℕ} (hencoding : encoding = dwEhPeSleb128 ∨
      encoding = dwEhPeUleb128) (hne : groups ≠ []) (hlt : ∀ g ∈ groups, g < 128)
    (hbytes : BytesAt m cursor (marked groups)) (hbits : 7 * groups.length < 256)
    (hleft : groups.length ≤ bytesLeft) (hfuel : groups.length ≤ fuel) :
    decodeValue m fuel encoding ⟨cursor, bytesLeft⟩ =
      .done (.ok (signExtendValue m encoding (orGroups m 0 0 groups) (7 * groups.length)
        m.undefined.numBytes).toNat, ⟨cursor + groups.length, bytesLeft - groups.length⟩) := by
  have hloop : leb128Loop m fuel 0 0 ⟨cursor, bytesLeft⟩ =
      .done (.ok (orGroups m 0 0 groups, 0 + 7 * groups.length),
        ⟨cursor + groups.length, bytesLeft - groups.length⟩) :=
    leb128Loop_marked hne hlt hbytes (by omega) hleft hfuel
  have hbase : scalingBase m encoding ⟨cursor, bytesLeft⟩ = .done (.ok 0, ⟨cursor, bytesLeft⟩) := by
    rw [scalingBase, bind_of_ok (get_run _)]
    rcases hencoding with rfl | rfl
    · rfl
    · rfl
  have hformat : encoding % 16 = encoding ∧ encoding ≠ 0 := by
    rcases hencoding with rfl | rfl
    · decide
    · decide
  rw [decodeValue, bind_of_ok hbase, hformat.1, decodeFormat, if_neg hformat.2, if_pos hencoding,
    bind_of_ok hloop, Nat.zero_add]
  show Outcome.done (Except.ok (add64 0 _), _) = _
  rw [add64, Nat.zero_add, Nat.mod_eq_of_lt (BitVec.isLt _)]

end Loop

/-! ### The extension of the sign -/

section Extension

variable {m : Machine} {value : BitVec 64} {s numBytes : ℕ}

theorem signExtendValue_uleb (numBits : ℕ) :
    signExtendValue m dwEhPeUleb128 value numBits numBytes = value := rfl

theorem signExtendValue_sleb (hs : s + 1 < 256) :
    signExtendValue m dwEhPeSleb128 value (s + 1) numBytes =
      if value &&& shiftU64 m 1 s ≠ 0 then value ||| shiftU64 m (BitVec.allOnes 64) s else value := by
  have hsigned : dwEhPeSleb128.testBit 3 = true := by decide
  have hwrap : (s + 1 + 255) % 256 = s := by omega
  rw [signExtendValue, if_pos hsigned]
  simp only [Nat.succ_ne_zero, if_false, hwrap]

theorem signBit_iff (hs : s < 64) : value &&& shiftU64 m 1 s ≠ 0 ↔ value.getLsbD s = true := by
  have hbit : BitVec.twoPow 64 s ≠ 0 := by
    intro hzero
    have hset : (BitVec.twoPow 64 s).getLsbD s = true := by simp [hs]
    rw [hzero] at hset
    exact absurd hset (by simp)
  rw [shiftU64, if_pos hs]
  show value &&& 1#64 <<< s ≠ 0 ↔ _
  rw [← BitVec.twoPow_eq, BitVec.and_twoPow]
  split_ifs with hset
  · exact iff_of_true hbit hset
  · exact iff_of_false (fun h => h rfl) hset

theorem signExtendValue_bits (hs : s < 64) (i : ℕ) :
    (signExtendValue m dwEhPeSleb128 value (s + 1) numBytes).getLsbD i =
      (value.getLsbD i || (decide (i < 64 ∧ s ≤ i) && value.getLsbD s)) := by
  rw [signExtendValue_sleb (by omega)]
  by_cases hset : value.getLsbD s = true
  · rw [if_pos ((signBit_iff hs).mpr hset), shiftU64, if_pos hs, BitVec.getLsbD_or,
      BitVec.getLsbD_shiftLeft, BitVec.getLsbD_allOnes, hset]
    by_cases hi : i < 64
    · have hshifted : i - s < 64 := by omega
      by_cases hsi : s ≤ i
      · simp [hi, hshifted, hsi, Nat.not_lt.mpr hsi]
      · simp [hi, hshifted, hsi, Nat.not_le.mp hsi]
    · simp [hi]
  · rw [if_neg (fun h => hset ((signBit_iff hs).mp h))]
    simp [hset]

/-- **A value below the sign's bit** is extended. -/
theorem signExtend_below (hs : s < 64) (h : value.toNat < 2 ^ (s + 1)) :
    signExtendValue m dwEhPeSleb128 value (s + 1) numBytes =
      (value.setWidth (s + 1)).signExtend 64 := by
  apply BitVec.eq_of_getLsbD_eq
  intro i hi
  have hmsb : (value.setWidth (s + 1)).msb = value.getLsbD s := by
    rw [BitVec.msb_eq_getLsbD_last, BitVec.getLsbD_setWidth]
    simp
  rw [signExtendValue_bits hs, BitVec.getLsbD_signExtend, hmsb, BitVec.getLsbD_setWidth]
  rcases Nat.lt_trichotomy i s with hbelow | rfl | habove
  · simp [hi, Nat.lt_succ_of_lt hbelow, Nat.not_le.mpr hbelow]
  · simp [hi]
  · have hclear : value.getLsbD i = false :=
      Nat.testBit_lt_two_pow (h.trans_le (Nat.pow_le_pow_right (by decide) habove))
    rw [hclear]
    simp [hi, Nat.le_of_lt habove, Nat.not_lt.mpr habove]

/-- **A value whose bits are all the same from the sign on** stays. -/
theorem signExtend_above (x : BitVec 32) (hs : 31 ≤ s ∧ s < 64) :
    signExtendValue m dwEhPeSleb128 (x.signExtend 64) (s + 1) numBytes = x.signExtend 64 := by
  apply BitVec.eq_of_getLsbD_eq
  intro i hi
  have hhigh : ∀ j, 31 ≤ j → j < 64 → (x.signExtend 64).getLsbD j = x.msb := by
    intro j hj hlt
    rw [BitVec.getLsbD_signExtend, decide_eq_true hlt, Bool.true_and]
    split_ifs with hlast
    · obtain rfl : j = 31 := by omega
      rw [BitVec.msb_eq_getLsbD_last]
    · rfl
  rw [signExtendValue_bits hs.2, hhigh s hs.1 hs.2]
  by_cases hsi : s ≤ i
  · simp [hhigh i (Nat.le_trans hs.1 hsi) hi]
  · simp [hsi]

end Extension

/-! ### Encodings -/

/-- A machine with the bytes at 0x1000, and a value for the shifts of an `int` that are too wide. -/
def holding (shifted : BitVec 32) (bytes : List ℕ) : Machine :=
  { machineOf (bytes.map (BitVec.ofNat 8)) with
    undefined := ⟨fun _ _ => shifted, fun _ _ => 0, 0, fun _ => 0⟩ }

theorem holding_bytesAt (shifted : BitVec 32) {bytes : List ℕ} (h : ∀ b ∈ bytes, b < 256) :
    BytesAt (holding shifted bytes) 0x1000 bytes := by
  intro i hi
  have hmem : (holding shifted bytes).mem (0x1000 + i) =
      (bytes.map (BitVec.ofNat 8)).getD (0x1000 + i - 0x1000) 0 :=
    if_neg (Nat.not_lt.mpr (Nat.le_add_right _ _))
  rw [hmem, Nat.add_sub_cancel_left, List.getD_eq_getElem _ _ (by simpa using hi),
    List.getD_eq_getElem _ _ hi, List.getElem_map, BitVec.toNat_ofNat]
  exact Nat.mod_eq_of_lt (h _ (List.getElem_mem hi))

section Encodings

variable {m : Machine} {encoding : ℕ} {groups : List ℕ} {value v : BitVec 64}

theorem inverts_of (hencoding : encoding = dwEhPeSleb128 ∨ encoding = dwEhPeUleb128)
    (hne : groups ≠ []) (hlt : ∀ g ∈ groups, g < 128) (hbits : 7 * groups.length < 256)
    (h : ∀ m, signExtendValue m encoding (orGroups m 0 0 groups) (7 * groups.length)
      m.undefined.numBytes = value) : Inverts encoding (marked groups) value := by
  intro m fuel cursor bytesLeft hbytes hleft hfuel
  rw [marked_length] at hleft hfuel ⊢
  rw [decodeValue_marked hencoding hne hlt hbytes hbits hleft hfuel, h m]

theorem Inverts.value_eq (h : Inverts encoding (marked groups) value)
    (hencoding : encoding = dwEhPeSleb128 ∨ encoding = dwEhPeUleb128)
    (hne : groups ≠ []) (hlt : ∀ g ∈ groups, g < 128) (hbits : 7 * groups.length < 256)
    (shifted : BitVec 32) :
    signExtendValue (holding shifted (marked groups)) encoding
      (orGroups (holding shifted (marked groups)) 0 0 groups) (7 * groups.length) 0 = value := by
  have hbytes := holding_bytesAt shifted (marked_lt hlt)
  have hrun := h _ groups.length 0x1000 groups.length hbytes (marked_length groups).le
    (marked_length groups).le
  rw [decodeValue_marked hencoding hne hlt hbytes hbits (le_refl _) (le_refl _)] at hrun
  exact BitVec.eq_of_toNat_eq (Except.ok.inj (Prod.mk.inj (Outcome.done.inj hrun)).1)

theorem holding_shiftsFit (bytes : List ℕ) (bits : ℕ) : ShiftsFit (holding 0 bytes) bits :=
  Or.inr fun _ _ => rfl

/-- The values that 32 bits have room for. -/
theorem toInt_range (x : BitVec 32) : -2 ^ 31 ≤ x.toInt ∧ x.toInt < 2 ^ 31 := by
  have hlow := BitVec.le_two_mul_toInt (x := x)
  have hhigh := BitVec.two_mul_toInt_lt (x := x)
  omega

/-- The sign of what is below its bit is not extended. -/
theorem signExtend_ofNat {n : ℕ} (h : n < 2 ^ 31) :
    (BitVec.ofNat 32 n).signExtend 64 = BitVec.ofNat 64 n := by
  have hmsb : (BitVec.ofNat 32 n).msb = false := by
    rw [BitVec.msb_eq_decide, BitVec.toNat_ofNat]
    exact decide_eq_false (by omega)
  rw [BitVec.signExtend_eq_setWidth_of_msb_false hmsb]
  exact BitVec.setWidth_ofNat_of_le_of_lt (by decide) (h.trans (by decide))

/-! ### Natural numbers -/

theorem orGroups_allOnes (groups : List ℕ) (numBits : ℕ) :
    orGroups m (BitVec.allOnes 64) numBits groups = BitVec.allOnes 64 := by
  induction groups generalizing numBits with
  | nil => rfl
  | cons g groups ih => rw [orGroups, BitVec.allOnes_or, ih]

theorem orGroups_append (before after : List ℕ) (numBits : ℕ) :
    orGroups m value numBits (before ++ after) =
      orGroups m (orGroups m value numBits before) (numBits + 7 * before.length) after := by
  induction before generalizing value numBits with
  | nil => rfl
  | cons g before ih =>
    rw [List.cons_append, orGroups, ih, orGroups, List.length_cons]
    congr 1
    omega

/-- **A shift that is too wide** may set all bits. -/
theorem orGroups_wide (h : ∀ x k, m.undefined.shift32 x k = BitVec.allOnes 32) {numBits : ℕ}
    (hne : groups ≠ []) (hwide : 39 ≤ numBits + 7 * groups.length) :
    orGroups m value numBits groups = BitVec.allOnes 64 := by
  induction groups generalizing value numBits with
  | nil => exact absurd rfl hne
  | cons g groups ih =>
    rw [List.length_cons] at hwide
    rw [orGroups]
    by_cases hdefined : numBits < 32
    · have hrest : groups ≠ [] := by
        intro hnil
        rw [hnil, List.length_nil] at hwide
        omega
      exact ih hrest (by omega)
    · have hall : (BitVec.allOnes 32).signExtend 64 = BitVec.allOnes 64 := by decide
      rw [shiftInt, if_neg hdefined, h, hall, BitVec.or_allOnes]
      exact orGroups_allOnes groups _

theorem unsignedGroups_length (v : BitVec 64) : (unsignedGroups v.toNat).length ≤ 10 :=
  (unsignedGroups_length_le (by decide)).mpr (v.isLt.trans (by decide))

/-- **The groups of a natural number**, with no shift that is too wide or with nothing left by it. -/
theorem orGroups_unsigned {v : ℕ} (h : ShiftsFit m (7 * (unsignedGroups v).length)) :
    orGroups m 0 0 (unsignedGroups v) = (BitVec.ofNat 32 v).signExtend 64 := by
  rw [orGroups_eq (unsignedGroups_lt v) (by rwa [Nat.zero_add]), unsignedGroups_value, pow_zero,
    Nat.one_mul]
  exact BitVec.zero_or

/-- **What is decoded** is the sign extension of its low 32 bits, and has all bits set if it does not
fit into five groups. -/
theorem Inverts.unsigned_range (h : Inverts dwEhPeUleb128 (uleb128 v.toNat) v) :
    v.toNat < 2 ^ 31 ∨ v.toNat = 2 ^ 64 - 1 := by
  have hlength := unsignedGroups_length v
  have hvalue := h.value_eq (Or.inr rfl) (unsignedGroups_ne_nil _) (unsignedGroups_lt _) (by omega)
  have hzero := hvalue 0
  rw [signExtendValue_uleb, orGroups_unsigned (holding_shiftsFit _ _)] at hzero
  have hrange := toInt_range (BitVec.ofNat 32 v.toNat)
  rw [← BitVec.toInt_signExtend_of_le (show 32 ≤ 64 by decide), hzero] at hrange
  have hcond := BitVec.toInt_eq_toNat_cond v
  have hlt := v.isLt
  by_cases hsmall : v.toNat < 2 ^ 31
  · exact Or.inl hsmall
  · have hlarge : 2 ^ 64 - 2 ^ 31 ≤ v.toNat := by
      split_ifs at hcond
      · omega
      · omega
    have hlong : ¬ (unsignedGroups v.toNat).length ≤ 5 := by
      rw [unsignedGroups_length_le (by decide)]
      omega
    have hones := hvalue (BitVec.allOnes 32)
    rw [signExtendValue_uleb,
      orGroups_wide (fun _ _ => rfl) (unsignedGroups_ne_nil _) (by omega)] at hones
    right
    rw [← hones]
    decide

theorem orGroups_below (hsmall : v.toNat < 2 ^ 31) : orGroups m 0 0 (unsignedGroups v.toNat) = v := by
  have hshort : (unsignedGroups v.toNat).length ≤ 5 :=
    (unsignedGroups_length_le (by decide)).mpr (hsmall.trans (by decide))
  rw [orGroups_unsigned (Or.inl (by omega)), signExtend_ofNat hsmall]
  exact BitVec.ofNat_toNat 64 v

/-- **The number whose bits are all set**: its first five groups set them. -/
theorem orGroups_last : orGroups m 0 0 (unsignedGroups (2 ^ 64 - 1)) = BitVec.allOnes 64 := by
  have hgroups : unsignedGroups (2 ^ 64 - 1) = [127, 127, 127, 127, 127] ++
      [127, 127, 127, 127, 1] := by decide
  have hfirst : orGroups m 0 0 [127, 127, 127, 127, 127] = BitVec.allOnes 64 := by
    rw [orGroups_eq (by decide) (Or.inl (by decide))]
    decide
  rw [hgroups, orGroups_append, hfirst]
  exact orGroups_allOnes _ _

/-- **ULEB128**: the numbers that are decoded. -/
theorem uleb128_iff :
    Inverts dwEhPeUleb128 (uleb128 v.toNat) v ↔ v.toNat < 2 ^ 31 ∨ v.toNat = 2 ^ 64 - 1 := by
  constructor
  · exact Inverts.unsigned_range
  · intro h
    have hlength := unsignedGroups_length v
    apply inverts_of (Or.inr rfl) (unsignedGroups_ne_nil _) (unsignedGroups_lt _) (by omega)
    intro m
    rw [signExtendValue_uleb]
    rcases h with hsmall | hlast
    · exact orGroups_below hsmall
    · have hv : v = BitVec.allOnes 64 := BitVec.eq_of_toNat_eq (hlast.trans (by decide))
      rw [hlast, orGroups_last, hv]

/-! ### Integers -/

theorem signedGroups_length (v : BitVec 64) : (signedGroups v.toInt).length ≤ 10 := by
  have hlow := BitVec.le_two_mul_toInt (x := v)
  have hhigh := BitVec.two_mul_toInt_lt (x := v)
  apply signedGroups_length_le (by decide)
  · omega
  · omega

/-- The low bits of the groups of an integer are its low bits. -/
theorem ofNat_signedGroups {z : ℤ} {k : ℕ} (hk : k ≤ 7 * (signedGroups z).length) :
    BitVec.ofNat k (Nat.ofDigits 128 (signedGroups z)) = BitVec.ofInt k z := by
  have hdvd : (2 : ℤ) ^ k ∣ 128 ^ (signedGroups z).length := by
    rw [show (128 : ℤ) = 2 ^ 7 by decide, ← pow_mul]
    exact pow_dvd_pow 2 hk
  rw [← BitVec.ofInt_natCast, signedGroups_value]
  apply BitVec.eq_of_toNat_eq
  rw [BitVec.toNat_ofInt, BitVec.toNat_ofInt]
  congr 1
  push_cast
  exact Int.emod_emod_of_dvd z hdvd

theorem orGroups_signed {z : ℤ} (h : ShiftsFit m (7 * (signedGroups z).length)) :
    orGroups m 0 0 (signedGroups z) =
      (BitVec.ofNat 32 (Nat.ofDigits 128 (signedGroups z))).signExtend 64 := by
  rw [orGroups_eq (signedGroups_lt z) (by rwa [Nat.zero_add]), pow_zero, Nat.one_mul]
  exact BitVec.zero_or

/-- **Up to four groups** fit into 32 bits without the sign. -/
theorem signed_short (hshort : (signedGroups v.toInt).length ≤ 4) (numBytes : ℕ) :
    signExtendValue m dwEhPeSleb128 (orGroups m 0 0 (signedGroups v.toInt))
      (7 * (signedGroups v.toInt).length) numBytes = v := by
  have hpos := List.length_pos_iff.mpr (signedGroups_ne_nil v.toInt)
  have hfit : ShiftsFit m (7 * (signedGroups v.toInt).length) := Or.inl (by omega)
  have hbound := Nat.ofDigits_lt_base_pow_length (show 1 < 128 by decide) (signedGroups_lt v.toInt)
  obtain ⟨hlow, hhigh⟩ := signedGroups_range v.toInt
  have hlowBits := ofNat_signedGroups (z := v.toInt) (le_refl _)
  rw [orGroups_signed hfit]
  obtain ⟨s, hs⟩ : ∃ s, 7 * (signedGroups v.toInt).length = s + 1 := ⟨_, (Nat.succ_pred_eq_of_pos
    (by omega)).symm⟩
  rw [show 128 = 2 ^ 7 by decide, ← pow_mul, hs] at hbound
  rw [show (128 : ℤ) = 2 ^ 7 by decide, ← pow_mul, hs, pow_succ] at hlow hhigh
  rw [hs] at hlowBits ⊢
  generalize Nat.ofDigits 128 (signedGroups v.toInt) = w at hbound hlowBits ⊢
  have hsmall : w < 2 ^ 31 := hbound.trans_le (Nat.pow_le_pow_right (by decide) (by omega))
  have hbelow : (BitVec.ofNat 64 w).toNat < 2 ^ (s + 1) :=
    (Nat.mod_le _ _).trans_lt hbound
  rw [signExtend_ofNat hsmall, signExtend_below (by omega) hbelow,
    BitVec.setWidth_ofNat_of_le (by omega), hlowBits]
  apply BitVec.eq_of_toInt_eq
  rw [BitVec.toInt_signExtend_of_le (by omega)]
  exact BitVec.toInt_ofInt_eq_self (Nat.succ_pos s) (by simp; omega) (by simp; omega)

/-- **Five groups or more** leave the sign extension of the low 32 bits. -/
theorem signed_long (hlong : 5 ≤ (signedGroups v.toInt).length)
    (hfit : ShiftsFit m (7 * (signedGroups v.toInt).length))
    (hsign : (signedGroups v.toInt).length ≤ 9 ∨ ∀ value k, m.undefined.shift64 value k = 0)
    (numBytes : ℕ) :
    signExtendValue m dwEhPeSleb128 (orGroups m 0 0 (signedGroups v.toInt))
      (7 * (signedGroups v.toInt).length) numBytes = (BitVec.ofInt 32 v.toInt).signExtend 64 := by
  have hlength := signedGroups_length v
  rw [orGroups_signed hfit, ofNat_signedGroups (by omega)]
  obtain ⟨s, hs⟩ : ∃ s, 7 * (signedGroups v.toInt).length = s + 1 := ⟨_, (Nat.succ_pred_eq_of_pos
    (by omega)).symm⟩
  rw [hs]
  by_cases hdefined : s < 64
  · exact signExtend_above _ ⟨by omega, hdefined⟩
  · have hzero := hsign.resolve_left (by omega)
    rw [signExtendValue_sleb (by omega), shiftU64, if_neg hdefined, hzero]
    exact if_neg (not_not.mpr BitVec.and_zero)

/-- **SLEB128**: the numbers that are decoded. -/
theorem sleb128_iff :
    Inverts dwEhPeSleb128 (sleb128 v.toInt) v ↔ -2 ^ 31 ≤ v.toInt ∧ v.toInt < 2 ^ 31 := by
  have hlength := signedGroups_length v
  constructor
  · intro h
    have hvalue := h.value_eq (Or.inl rfl) (signedGroups_ne_nil _) (signedGroups_lt _) (by omega) 0
    rcases Nat.lt_or_ge 4 (signedGroups v.toInt).length with hlong | hshort
    · rw [signed_long hlong (holding_shiftsFit _ _) (Or.inr fun _ _ => rfl)] at hvalue
      have hrange := toInt_range (BitVec.ofInt 32 v.toInt)
      rwa [← BitVec.toInt_signExtend_of_le (show 32 ≤ 64 by decide), hvalue] at hrange
    · obtain ⟨hlow, hhigh⟩ := signedGroups_range v.toInt
      have hpow : (128 : ℤ) ^ (signedGroups v.toInt).length ≤ 128 ^ 4 :=
        pow_le_pow_right₀ (by decide) hshort
      omega
  · intro h
    apply inverts_of (Or.inl rfl) (signedGroups_ne_nil _) (signedGroups_lt _) (by omega)
    intro m
    have hfive : (signedGroups v.toInt).length ≤ 5 :=
      signedGroups_length_le (by decide) (by omega) (by omega)
    rcases Nat.lt_or_ge 4 (signedGroups v.toInt).length with hlong | hshort
    · rw [signed_long hlong (Or.inl (by omega)) (Or.inl (by omega))]
      apply BitVec.eq_of_toInt_eq
      rw [BitVec.toInt_signExtend_of_le (by decide)]
      exact BitVec.toInt_ofInt_eq_self (by decide) h.1 h.2
    · exact signed_short hshort _

end Encodings

/-- **LEB128 numbers** are decoded from their shortest encodings exactly if they fit into the `int`
that the groups are shifted in; the one exception is the number whose bits are all set. -/
theorem leb128_iff (v : BitVec 64) :
    (Inverts dwEhPeUleb128 (uleb128 v.toNat) v ↔ v.toNat < 2 ^ 31 ∨ v.toNat = 2 ^ 64 - 1) ∧
      (Inverts dwEhPeSleb128 (sleb128 v.toInt) v ↔ -2 ^ 31 ≤ v.toInt ∧ v.toInt < 2 ^ 31) :=
  ⟨uleb128_iff, sleb128_iff⟩

/-- **The fifth byte**: 2 ^ 31 is decoded with its 32 upper bits set, and is negative if it is read as
a signed number. -/
theorem leb128_fifth_byte :
    uleb128 (2 ^ 31) = [0x80, 0x80, 0x80, 0x80, 0x08] ∧
      sleb128 (2 ^ 31) = [0x80, 0x80, 0x80, 0x80, 0x08] ∧
      decodeValue (machineOf [0x80, 0x80, 0x80, 0x80, 0x08]) 5 dwEhPeUleb128 ⟨0x1000, 5⟩ =
        .done (.ok 0xFFFFFFFF80000000, ⟨0x1005, 0⟩) ∧
      decodeValue (machineOf [0x80, 0x80, 0x80, 0x80, 0x08]) 5 dwEhPeSleb128 ⟨0x1000, 5⟩ =
        .done (.ok 0xFFFFFFFF80000000, ⟨0x1005, 0⟩) ∧
      ¬ Inverts dwEhPeUleb128 (uleb128 (2 ^ 31)) (BitVec.ofNat 64 (2 ^ 31)) ∧
      ¬ Inverts dwEhPeSleb128 (sleb128 (2 ^ 31)) (BitVec.ofNat 64 (2 ^ 31)) := by
  have hunsigned : uleb128 (2 ^ 31) = [0x80, 0x80, 0x80, 0x80, 0x08] := by decide
  have hsigned : sleb128 (2 ^ 31) = [0x80, 0x80, 0x80, 0x80, 0x08] := by
    simp [sleb128, signedGroups, marked]
  have hbytes : BytesAt (machineOf [0x80, 0x80, 0x80, 0x80, 0x08]) 0x1000
      [0x80, 0x80, 0x80, 0x80, 0x08] := by
    intro i hi
    revert i
    decide
  have hrun : ∀ encoding, encoding = dwEhPeUleb128 ∨ encoding = dwEhPeSleb128 →
      decodeValue (machineOf [0x80, 0x80, 0x80, 0x80, 0x08]) 5 encoding ⟨0x1000, 5⟩ =
        .done (.ok 0xFFFFFFFF80000000, ⟨0x1005, 0⟩) := by
    intro encoding hencoding
    rcases hencoding with rfl | rfl
    · decide +kernel
    · decide +kernel
  have hnot : ∀ encoding, encoding = dwEhPeUleb128 ∨ encoding = dwEhPeSleb128 →
      ¬ Inverts encoding [0x80, 0x80, 0x80, 0x80, 0x08] (BitVec.ofNat 64 (2 ^ 31)) := by
    intro encoding hencoding h
    have hvalue := h _ 5 0x1000 5 hbytes (le_refl _) (le_refl _)
    rw [hrun encoding hencoding] at hvalue
    exact absurd (Except.ok.inj (Prod.mk.inj (Outcome.done.inj hvalue)).1) (by decide)
  refine ⟨hunsigned, hsigned, hrun _ (Or.inl rfl), hrun _ (Or.inr rfl), ?_, ?_⟩
  · rw [hunsigned]
    exact hnot _ (Or.inl rfl)
  · rw [hsigned]
    exact hnot _ (Or.inr rfl)

end UltraKernel.Unwind
