import UltraKernel.Format.Directive

/-!
# The field of an integer conversion

What a directive asks for: the sign, the prefix and the digits, padded to the minimum width.  The
formatter writes the sign before it pads, and pads to the width without it; and it pads before the
prefix, with zeros as well as with spaces.

* `field_length`: a field is as wide as it has to be;
* `integerText_eq_field_of_le`, `integerText_eq_field_of_unsigned`: what is written is the field;
* `Directive.emits_field_iff`: when it is.
-/

namespace UltraKernel.Format

open Word Outcome

namespace Width

/-- A `*` argument below zero, which stands for a `-` flag and a width. -/
def negative : Width → Bool
  | star width => width.msb
  | _ => false

/-- The width that is asked for. -/
def minimum : Width → ℕ
  | none => 0
  | literal digits .. => digitsValue 10 digits
  | star width => width.toInt.natAbs

theorem value_of_nonneg {width : Width} (hwidth : width.negative = false) :
    width.value = width.minimum := by
  cases width with
  | none => rfl
  | literal => rfl
  | star width =>
    have hmsb : width.msb = false := hwidth
    show (width.signExtend 64).toNat = width.toInt.natAbs
    have hlt := width.isLt
    rw [BitVec.toNat_signExtend, BitVec.toInt_eq_msb_cond, BitVec.toNat_setWidth, hmsb]
    simp only [Bool.false_eq_true, if_false, Int.natAbs_natCast]
    omega

/-- A negative width is read modulo `2 ^ 64`. -/
theorem value_of_negative {width : Width} (hwidth : width.negative = true) :
    width.value + width.minimum = 2 ^ 64 ∧ 0 < width.minimum ∧ width.minimum ≤ 2 ^ 31 := by
  cases width with
  | none => exact absurd hwidth Bool.false_ne_true
  | literal => exact absurd hwidth Bool.false_ne_true
  | star width =>
    have hmsb : width.msb = true := hwidth
    have hlt := width.isLt
    have hge : 2 ^ 31 ≤ width.toNat := BitVec.msb_eq_true_iff_two_mul_ge.mp hmsb |> fun h => by omega
    show (width.signExtend 64).toNat + width.toInt.natAbs = 2 ^ 64 ∧ 0 < width.toInt.natAbs ∧
      width.toInt.natAbs ≤ 2 ^ 31
    rw [BitVec.toNat_signExtend, BitVec.toInt_eq_msb_cond, BitVec.toNat_setWidth, hmsb]
    simp only [if_true]
    omega

end Width

namespace Directive

/-- What is printed in the place of the sign. -/
def sign (d : Directive) (value : BitVec 64) : List Char := signText d.spec value

/-- The prefix of the alternate form. -/
def prefixText (d : Directive) : List Char := alternateText d.spec

def digits (d : Directive) (value : BitVec 64) : List Char :=
  valueText d.spec (magnitude d.spec value)

/-- **The field that a directive asks for**: with a `-`, spaces behind everything; with a `0`, zeros
between the prefix and the digits; spaces before the sign otherwise. -/
def field (d : Directive) (value : BitVec 64) : List Char :=
  let padding := d.width.minimum - (d.sign value ++ d.prefixText ++ d.digits value).length
  if '-' ∈ d.flags ∨ d.width.negative = true then
    d.sign value ++ d.prefixText ++ d.digits value ++ List.replicate padding ' '
  else if '0' ∈ d.flags then
    d.sign value ++ d.prefixText ++ List.replicate padding '0' ++ d.digits value
  else
    List.replicate padding ' ' ++ d.sign value ++ d.prefixText ++ d.digits value

/-- The formatter emits a text, to any buffer. -/
def Emits (d : Directive) (arg : Arg) (text : List Char) : Prop :=
  ∀ (buffer : ℕ → Char) (capacity fuel : ℕ),
    vsnprintf (fuel + 2) buffer capacity ('%' :: d.text) (d.args arg) =
      .done (sizeToInt text.length, terminate (emit ⟨buffer, capacity, 0⟩ text))

/-- The sign, or a flag in its place, is printed. -/
def HasSign (d : Directive) (value : BitVec 64) : Prop :=
  '+' ∈ d.flags ∨ ' ' ∈ d.flags ∨ (d.isSigned = true ∧ value.msb = true)

/-- Zeros are printed with the prefix `0x` or `0X`. -/
def PadsPrefix (d : Directive) : Prop :=
  '0' ∈ d.flags ∧ '-' ∉ d.flags ∧ '#' ∈ d.flags ∧ (d.specifier = 'x' ∨ d.specifier = 'X')

section Field

variable (d : Directive) (value : BitVec 64)

theorem spec_base : KnownBase d.spec.base := knownBase_specifier d.specifier

theorem field_length :
    (d.field value).length =
      max d.width.minimum (d.sign value ++ d.prefixText ++ d.digits value).length := by
  have hmax : ∀ m n : ℕ, n + (m - n) = max m n := by omega
  rw [field, ← hmax]
  generalize d.width.minimum - (d.sign value ++ d.prefixText ++ d.digits value).length = padding
  split_ifs
  · simp only [List.length_append, List.length_replicate]
  · simp only [List.length_append, List.length_replicate]
    omega
  · simp only [List.length_append, List.length_replicate]
    omega

theorem sign_eq_nil_iff : d.sign value = [] ↔ ¬ d.HasSign value := by
  have hprepend : d.spec.prepend = decide ('+' ∈ d.flags ∨ ' ' ∈ d.flags) := Bool.false_or _
  rw [sign, signText, hprepend]
  by_cases hsign : d.HasSign value
  · rw [if_pos]
    · simp [hsign]
    · rw [Bool.or_eq_true, decide_eq_true_eq, negative, Bool.and_eq_true]
      rcases hsign with hplus | hspace | hnegative
      · exact .inl (.inl hplus)
      · exact .inl (.inr hspace)
      · exact .inr hnegative
  · rw [if_neg]
    · simp [hsign]
    · rw [Bool.or_eq_true, decide_eq_true_eq, negative, Bool.and_eq_true]
      rintro ((hplus | hspace) | hnegative)
      · exact hsign (.inl hplus)
      · exact hsign (.inr (.inl hspace))
      · exact hsign (.inr (.inr hnegative))

theorem signText_length (fm : FmtSpec) : (signText fm value).length ≤ 1 := by
  rw [signText]
  split_ifs <;> simp

theorem alternateText_length (fm : FmtSpec) : (alternateText fm).length ≤ 2 := by
  rw [alternateText]
  split_ifs <;> simp

theorem sign_length : (d.sign value).length ≤ 1 := signText_length value d.spec

theorem prefixText_length : d.prefixText.length ≤ 2 := alternateText_length d.spec

/-- The prefix, from the flags and the specifier. -/
theorem prefixText_eq : d.prefixText =
    if '#' ∈ d.flags then
      if d.specifier = 'x' then ['0', 'x'] else if d.specifier = 'X' then ['0', 'X']
      else if d.specifier = 'o' then ['0'] else []
    else [] := by
  have halternate : d.spec.alternateForm = decide ('#' ∈ d.flags) := Bool.false_or _
  have hbase : d.spec.base = baseFromSpecifier d.specifier := rfl
  have hupper : d.spec.uppercase = isUppercaseSpecifier d.specifier := rfl
  have hspecifier := d.specifier_mem
  rw [prefixText, alternateText, halternate, hbase, hupper]
  simp only [List.mem_cons, List.not_mem_nil, or_false] at hspecifier
  rcases hspecifier with h | h | h | h | h | h
  all_goals
    rw [h]
    by_cases hflag : '#' ∈ d.flags
    · simp [hflag, baseFromSpecifier, isUppercaseSpecifier]
    · simp [hflag]

/-- The text that is written, in the words of the directive. -/
theorem integerText_eq : integerText d.spec value = d.sign value ++
    if '-' ∈ d.flags then
      d.prefixText ++ d.digits value ++
        List.replicate (d.width.value - (d.prefixText ++ d.digits value).length) ' '
    else
      List.replicate (d.width.value - (d.prefixText ++ d.digits value).length)
        (if '0' ∈ d.flags then '0' else ' ') ++ (d.prefixText ++ d.digits value) := by
  have hleft : d.spec.leftJustify = decide ('-' ∈ d.flags) := Bool.false_or _
  have hpad : d.spec.padChar = if '0' ∈ d.flags then '0' else ' ' := rfl
  rw [integerText, paddingText, paddingChar, hleft]
  by_cases hminus : '-' ∈ d.flags
  · rw [if_pos (decide_eq_true hminus), if_pos (decide_eq_true hminus), if_pos hminus]
    rfl
  · rw [if_neg (by simpa using hminus), if_neg (by simpa using hminus), if_neg hminus, hpad]
    rfl

/-! ### Where the field is written -/

/-- Nothing is padded. -/
theorem integerText_eq_field_of_le (hnonneg : d.width.negative = false)
    (hwidth : d.width.minimum ≤ (d.prefixText ++ d.digits value).length) :
    integerText d.spec value = d.field value := by
  have hpadding : d.width.minimum - (d.prefixText ++ d.digits value).length = 0 :=
    Nat.sub_eq_zero_of_le hwidth
  have hpadding' :
      d.width.minimum - (d.sign value ++ d.prefixText ++ d.digits value).length = 0 := by
    rw [List.append_assoc, List.length_append]
    omega
  rw [integerText_eq, Width.value_of_nonneg hnonneg, field, hpadding, hpadding']
  simp only [List.replicate_zero, List.append_nil, List.nil_append, ite_self, List.append_assoc]

theorem prefixText_replicate (hpads : ¬ d.PadsPrefix) (hminus : '-' ∉ d.flags)
    (hzero : '0' ∈ d.flags) (n : ℕ) :
    List.replicate n '0' ++ d.prefixText = d.prefixText ++ List.replicate n '0' := by
  rw [prefixText_eq]
  by_cases hflag : '#' ∈ d.flags
  · have hx : ¬ (d.specifier = 'x' ∨ d.specifier = 'X') := fun h =>
      hpads ⟨hzero, hminus, hflag, h⟩
    rw [not_or] at hx
    rw [if_pos hflag, if_neg hx.1, if_neg hx.2]
    split_ifs
    · rw [← List.replicate_succ', List.replicate_succ]
      rfl
    · rw [List.append_nil, List.nil_append]
  · rw [if_neg hflag, List.append_nil, List.nil_append]

/-- Nothing but the digits is before or behind the padding that should not be. -/
theorem integerText_eq_field_of_unsigned (hnonneg : d.width.negative = false)
    (hsign : ¬ d.HasSign value) (hpads : ¬ d.PadsPrefix) :
    integerText d.spec value = d.field value := by
  have hnil := (d.sign_eq_nil_iff value).mpr hsign
  rw [integerText_eq, Width.value_of_nonneg hnonneg, field, hnil, hnonneg]
  simp only [List.nil_append, Bool.false_eq_true, or_false]
  by_cases hminus : '-' ∈ d.flags
  · rw [if_pos hminus, if_pos hminus]
  · rw [if_neg hminus, if_neg hminus]
    by_cases hzero : '0' ∈ d.flags
    · rw [if_pos hzero, if_pos hzero, ← List.append_assoc,
        d.prefixText_replicate hpads hminus hzero]
    · rw [if_neg hzero, if_neg hzero]
      simp only [List.append_nil, List.append_assoc]

theorem digits_length :
    1 ≤ (d.digits value).length ∧ (d.digits value).length ≤ 22 :=
  valueText_length_le d.spec_base (BitVec.isLt _)

/-- A field that is written is emitted. -/
theorem emits_of_eq {arg : Arg} (hnonneg : d.width.negative = false)
    (hfits : d.width.minimum < 2 ^ 64)
    (hvalue : d.modifier.length.vaArg d.isSigned [arg] = .done (value, []))
    (heq : integerText d.spec value = d.field value) : d.Emits arg (d.field value) := by
  intro buffer capacity fuel
  have hlength := d.field_length value
  have hsign := d.sign_length value
  have hmark := d.prefixText_length
  have hdigits := (d.digits_length value).2
  simp only [List.length_append] at hlength
  have hroom : (integerText d.spec value).length < 2 ^ 64 := by
    rw [heq, hlength]
    omega
  rw [vsnprintf_integer buffer capacity d.nul_not_mem_text d.text_head
    (d.parseConversion_directive (Width.value_of_nonneg hnonneg ▸ hfits) hvalue) d.spec_base hroom,
    heq]

/-! ### How many characters are written -/

theorem paddingLoop_bytesWritten (fm : FmtSpec) (mw : ℕ) (fb : FmtBufState)
    (hfb : fb.bytesWritten < 2 ^ 64) :
    (paddingLoop fm mw fb).bytesWritten = (fb.bytesWritten + mw) % 2 ^ 64 := by
  induction mw generalizing fb with
  | zero => exact (Nat.mod_eq_of_lt hfb).symm
  | succ mw ih =>
    have hone : ∀ c, (writeOne fb c).bytesWritten = (fb.bytesWritten + 1) % 2 ^ 64 := fun _ => rfl
    rw [paddingLoop, ih _ (by rw [hone]; exact Nat.mod_lt _ (by decide)), hone]
    omega

theorem writePadding_bytesWritten (fm : FmtSpec) (size : ℕ) (fb : FmtBufState)
    (hfb : fb.bytesWritten < 2 ^ 64) :
    (writePadding fb fm size).bytesWritten =
      (fb.bytesWritten + (fm.minWidth - size)) % 2 ^ 64 := by
  rw [writePadding]
  split_ifs with hle
  · rw [Nat.sub_eq_zero_of_le hle, Nat.add_zero, Nat.mod_eq_of_lt hfb]
  · exact paddingLoop_bytesWritten fm _ fb hfb

theorem writeSign_bytesWritten (fm : FmtSpec) (fb : FmtBufState) (hfb : fb.bytesWritten < 2 ^ 64) :
    (writeSign fb fm value).bytesWritten =
      (fb.bytesWritten + (signText fm value).length) % 2 ^ 64 := by
  rw [writeSign, signText]
  split_ifs
  · rfl
  · rfl
  · exact (Nat.mod_eq_of_lt hfb).symm

/-- A sign, and what is padded to the width without it. -/
theorem writeInteger_bytesWritten {fm : FmtSpec} (hbase : KnownBase fm.base) (fb : FmtBufState)
    (hfb : fb.bytesWritten < 2 ^ 64) :
    ∃ fb', writeInteger fb fm value = .done fb' ∧
      fb'.bytesWritten = (fb.bytesWritten + ((signText fm value).length +
        max fm.minWidth (reprText fm (magnitude fm value)).length)) % 2 ^ 64 := by
  have hsign := writeSign_bytesWritten value fm fb hfb
  have hmany : ∀ fb string n, (writeMany fb string n).bytesWritten =
      (fb.bytesWritten + n) % 2 ^ 64 := fun _ _ _ => rfl
  rw [writeInteger_eq _ value hbase]
  refine ⟨_, rfl, ?_⟩
  split_ifs
  · rw [writePadding_bytesWritten _ _ _ (by rw [hmany]; exact Nat.mod_lt _ (by decide)), hmany,
      hsign]
    omega
  · rw [hmany, writePadding_bytesWritten _ _ _ (by rw [hsign]; exact Nat.mod_lt _ (by decide)),
      hsign]
    omega

end Field

/-! ### Where the field is not written -/

section Emits

variable {d : Directive} {arg : Arg} {value : BitVec 64}

/-- A text that is emitted has the length that is counted. -/
theorem Emits.bytesWritten {text : List Char} (h : d.Emits arg text) {ret : ℤ} {fb : FmtBufState}
    (hrun : vsnprintf 2 (fun _ => nul) 0 ('%' :: d.text) (d.args arg) = .done (ret, fb)) :
    fb.bytesWritten = text.length % 2 ^ 64 := by
  obtain ⟨_, hfb⟩ := Prod.mk.inj (Outcome.done.inj (hrun.symm.trans (h (fun _ => nul) 0 0)))
  rw [hfb, terminate_bytesWritten]
  show (0 + text.length) % 2 ^ 64 = _
  rw [Nat.zero_add]

/-- A width that does not fit is refused. -/
theorem Emits.value_lt (h : d.Emits arg (d.field value)) : d.width.value < 2 ^ 64 := by
  by_contra hfits
  have hrun := vsnprintf_refused (fun _ => nul) 0 d.nul_not_mem_text d.text_head
    (d.parseConversion_overflow arg hfits) 1
  have hwritten : 0 = (d.field value).length % 2 ^ 64 := h.bytesWritten hrun
  obtain ⟨hret, _⟩ := Prod.mk.inj (Outcome.done.inj (hrun.symm.trans (h (fun _ => nul) 0 0)))
  have hzero : BitVec.ofNat 32 (d.field value).length = 0#32 := by
    rw [← BitVec.toNat_inj, BitVec.toNat_ofNat]
    show _ = 0
    omega
  rw [sizeToInt, hzero] at hret
  exact absurd hret (by decide)

/-- What is counted of a directive whose field is emitted. -/
theorem Emits.field_length (h : d.Emits arg (d.field value))
    (hvalue : d.modifier.length.vaArg d.isSigned [arg] = .done (value, [])) :
    ((d.sign value).length + max d.width.value (d.prefixText ++ d.digits value).length) % 2 ^ 64 =
      (max d.width.minimum ((d.sign value).length + (d.prefixText ++ d.digits value).length)) %
        2 ^ 64 := by
  obtain ⟨fb, hwrite, hbytes⟩ :=
    writeInteger_bytesWritten value d.spec_base ⟨fun _ => nul, 0, 0⟩ (by decide)
  have hrun := vsnprintf_writeInteger (fun _ => nul) 0 d.nul_not_mem_text d.text_head
    (d.parseConversion_directive h.value_lt hvalue) 0
  rw [hwrite, done_bind] at hrun
  rw [Nat.zero_add] at hbytes
  show ((signText d.spec value).length + max d.spec.minWidth
    (reprText d.spec (magnitude d.spec value)).length) % 2 ^ 64 = _
  rw [← hbytes, ← List.length_append, ← List.append_assoc, ← Directive.field_length,
    ← terminate_bytesWritten fb]
  exact h.bytesWritten hrun

/-- A negative width is not emitted: no field is that long. -/
theorem Emits.nonneg (h : d.Emits arg (d.field value))
    (hvalue : d.modifier.length.vaArg d.isSigned [arg] = .done (value, [])) :
    d.width.negative = false := by
  by_contra hnegative
  obtain ⟨hvalue', hpos, hle⟩ := Width.value_of_negative (Bool.eq_true_of_not_eq_false hnegative)
  have hcount := h.field_length hvalue
  have hsign := d.sign_length value
  have hmark := d.prefixText_length
  have hdigits := d.digits_length value
  rw [List.length_append] at hcount
  omega

/-- A sign is not counted in the width. -/
theorem Emits.width_le (h : d.Emits arg (d.field value))
    (hvalue : d.modifier.length.vaArg d.isSigned [arg] = .done (value, []))
    (hsign : d.HasSign value) : d.width.minimum ≤ (d.prefixText ++ d.digits value).length := by
  by_contra hwidth
  have hne : d.sign value ≠ [] := fun hnil => (d.sign_eq_nil_iff value).mp hnil hsign
  have hpos := List.length_pos_of_ne_nil hne
  have hlength := d.sign_length value
  have hfits := h.value_lt
  have hcount := h.field_length hvalue
  rw [Width.value_of_nonneg (h.nonneg hvalue)] at hfits hcount
  omega

theorem prefixText_of_padsPrefix (h : d.PadsPrefix) :
    ∃ x, d.prefixText = ['0', x] ∧ x ≠ '0' := by
  obtain ⟨_, _, hflag, hx⟩ := h
  rw [prefixText_eq, if_pos hflag]
  by_cases hlower : d.specifier = 'x'
  · exact ⟨'x', if_pos hlower, by decide⟩
  · rw [if_neg hlower, if_pos (hx.resolve_left hlower)]
    exact ⟨'X', rfl, by decide⟩

/-- Zeros are written before a prefix. -/
theorem Emits.not_padsPrefix (h : d.Emits arg (d.field value))
    (hvalue : d.modifier.length.vaArg d.isSigned [arg] = .done (value, []))
    (hsign : ¬ d.HasSign value)
    (hwidth : ¬ d.width.minimum ≤ (d.prefixText ++ d.digits value).length) : ¬ d.PadsPrefix := by
  intro hpads
  have hfits := h.value_lt
  have hnonneg := h.nonneg hvalue
  have hminimum := Width.value_of_nonneg hnonneg
  have hnil := (d.sign_eq_nil_iff value).mpr hsign
  obtain ⟨x, hmark, hx⟩ := prefixText_of_padsPrefix hpads
  obtain ⟨hzero, hminus, _, _⟩ := hpads
  have hleft : ¬ ('-' ∈ d.flags ∨ d.width.negative = true) := by simp [hminus, hnonneg]
  obtain ⟨n, hn⟩ : ∃ n, d.width.minimum - (d.prefixText ++ d.digits value).length = n + 1 :=
    ⟨d.width.minimum - (d.prefixText ++ d.digits value).length - 1, by omega⟩
  have htext : integerText d.spec value =
      '0' :: (List.replicate n '0' ++ '0' :: x :: d.digits value) := by
    rw [integerText_eq, hnil, if_neg hminus, if_pos hzero, hminimum, hn, hmark]
    rfl
  have hfield : d.field value = '0' :: x :: (List.replicate (n + 1) '0' ++ d.digits value) := by
    rw [field, hnil, if_neg hleft, if_pos hzero, List.nil_append, hn, hmark]
    rfl
  have hlength := congrArg List.length htext
  have hlength' := congrArg List.length hfield
  have hdigits := d.digits_length value
  rw [hmark] at hn
  simp only [List.length_append, List.length_cons, List.length_replicate, List.length_nil] at *
  have hrun := vsnprintf_integer (fun _ => nul) 3 d.nul_not_mem_text d.text_head
    (d.parseConversion_directive hfits hvalue) d.spec_base (by omega) 0
  obtain ⟨_, hfb⟩ := Prod.mk.inj (Outcome.done.inj (hrun.symm.trans (h (fun _ => nul) 3 0)))
  -- the second character is a zero, or the `0` of the prefix, and not its `x`
  have hseen := congrFun (congrArg FmtBufState.buffer hfb) 1
  rw [terminate_emit_getD (by decide) (by omega) (by omega),
    terminate_emit_getD (by decide) (by omega) (by omega), htext, hfield] at hseen
  cases n with
  | zero => exact hx hseen.symm
  | succ n => exact hx hseen.symm

end Emits

/-- **The field of a directive is emitted** just if the width fits 64 bits and is not negative, and
nothing is padded, or nothing stands before the padding that should be behind it: neither a sign,
nor zeros a prefix. -/
theorem emits_field_iff (d : Directive) {arg : Arg} {value : BitVec 64}
    (hvalue : d.modifier.length.vaArg d.isSigned [arg] = .done (value, [])) :
    d.Emits arg (d.field value) ↔
      d.width.negative = false ∧ d.width.minimum < 2 ^ 64 ∧
        (d.width.minimum ≤ (d.prefixText ++ d.digits value).length ∨
          (¬ d.HasSign value ∧ ¬ d.PadsPrefix)) := by
  constructor
  · intro h
    have hnonneg := h.nonneg hvalue
    refine ⟨hnonneg, Width.value_of_nonneg hnonneg ▸ h.value_lt, ?_⟩
    by_cases hwidth : d.width.minimum ≤ (d.prefixText ++ d.digits value).length
    · exact .inl hwidth
    · have hsign : ¬ d.HasSign value := fun hsign => hwidth (h.width_le hvalue hsign)
      exact .inr ⟨hsign, h.not_padsPrefix hvalue hsign hwidth⟩
  · rintro ⟨hnonneg, hfits, hpadding⟩
    refine d.emits_of_eq value hnonneg hfits hvalue ?_
    rcases hpadding with hwidth | ⟨hsign, hpads⟩
    · exact d.integerText_eq_field_of_le value hnonneg hwidth
    · exact d.integerText_eq_field_of_unsigned value hnonneg hsign hpads

/-- `%5d`. -/
def fiveWide : Directive where
  flags := []
  width := .literal ['5'] (by decide) (List.forall_mem_singleton.mpr rfl) (by decide)
  modifier := .none
  specifier := 'd'
  flags_mem := List.forall_mem_nil _
  specifier_mem := by decide

theorem emits_field_iff_seven : fiveWide.Emits (.int 7) [' ', ' ', ' ', ' ', '7'] := by
  have hfield : fiveWide.field 7 = [' ', ' ', ' ', ' ', '7'] := by decide +kernel
  have hvalue : fiveWide.modifier.length.vaArg fiveWide.isSigned [.int 7] = .done (7, []) := rfl
  rw [← hfield, fiveWide.emits_field_iff hvalue]
  refine ⟨rfl, by decide, .inr ⟨?_, ?_⟩⟩
  · rintro (hplus | hspace | ⟨_, hnegative⟩)
    · exact absurd hplus (by decide)
    · exact absurd hspace (by decide)
    · exact absurd hnegative (by decide)
  · rintro ⟨hzero, _⟩
    exact absurd hzero (by decide)

/-- `%5d` of -1 is six characters, its sign before the spaces. -/
theorem not_emits_minusOne :
    (∃ out, vsnprintf 2 (fun _ => nul) 8 ('%' :: fiveWide.text) (fiveWide.args (.int (-1))) =
        .done (6, out) ∧ bufferString out.buffer 8 = ['-', ' ', ' ', ' ', ' ', '1']) ∧
      fiveWide.field (-1) = [' ', ' ', ' ', '-', '1'] ∧
      fiveWide.modifier.length.vaArg fiveWide.isSigned [.int (-1)] = .done (-1, []) ∧
      ¬ fiveWide.Emits (.int (-1)) (fiveWide.field (-1)) := by
  have hfield : fiveWide.field (-1) = [' ', ' ', ' ', '-', '1'] := by decide +kernel
  have hrun : (vsnprintf 2 (fun _ => nul) 8 ('%' :: fiveWide.text)
      (fiveWide.args (.int (-1)))).value?.map (fun p => (p.1, bufferString p.2.buffer 8)) =
        some (6, ['-', ' ', ' ', ' ', ' ', '1']) := by
    decide +kernel
  obtain ⟨⟨ret, out⟩, hvalue, heq⟩ := Option.map_eq_some_iff.mp hrun
  obtain ⟨rfl, htext⟩ := Prod.mk.inj heq
  have hdone := value?_eq_some.mp hvalue
  refine ⟨⟨out, hdone, htext⟩, hfield, rfl, ?_⟩
  intro h
  have hemitted := h (fun _ => nul) 8 0
  rw [hdone, hfield] at hemitted
  exact absurd (Prod.mk.inj (Outcome.done.inj hemitted)).1 (by decide)

end Directive

end UltraKernel.Format
