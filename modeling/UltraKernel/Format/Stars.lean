import UltraKernel.Format.Layout
import UltraKernel.Format.Termination

/-!
# Widths and precisions from the arguments

A `*` takes an `int`, which is stored in a `u64`.  A negative width is to stand for a `-` flag and its
absolute value, a negative precision for none.

* `parseConversion_text`: a conversion is read as it was written;
* `writes_bytesWritten`: how many characters it writes;
* `stringLoop_meant`: a precision below zero is as good as none;
* `behavesAs_meant`, `not_behavesAs_meant`: a width is written as it is meant if it is not negative;
* `stars_iff`: the conversions that do what is meant, and stay in their bound.
-/

namespace UltraKernel.Format

open Word Outcome

/-! ### Conversions -/

/-- A precision: none, in digits, or taken from the arguments. -/
inductive Precision where
  | none
  | literal (digits : List Char) (value : ℕ) (ne_nil : digits ≠ []) (isdigit : ∀ c ∈ digits, isdigit c)
    (read : strToU64WithBase digits 10 = .ok value)
  | star (precision : BitVec 32)

namespace Precision

def text : Precision → List Char
  | none => []
  | literal digits .. => '.' :: digits
  | star _ => ['.', '*']

/-- The arguments that the precision takes. -/
def args : Precision → List Arg
  | star precision => [.int precision]
  | _ => []

/-- The specification with the precision. -/
def apply (fm : FmtSpec) : Precision → FmtSpec
  | none => fm
  | literal _ value .. => { fm with hasPrecision := true, precision := value }
  | star precision => { fm with hasPrecision := true, precision := intToU64 precision }

/-- A negative precision stands for none. -/
def meant : Precision → Precision
  | none => none
  | literal digits value hne hdigits hread => literal digits value hne hdigits hread
  | star precision => if precision.msb then none else star precision

end Precision

namespace Width

/-- A width in digits. -/
def decimal (n : ℕ) (hn : n ≠ 0) : Width :=
  .literal (decimalText n) (by
    obtain ⟨c, rest, htext, -, -⟩ := decimalText_head hn
    rw [htext]
    exact List.cons_ne_nil _ _) decimalText_isdigit (by
    obtain ⟨c, rest, htext, hc, -⟩ := decimalText_head hn
    rw [htext]
    simpa using hc)

theorem decimal_value {n : ℕ} (hn : n ≠ 0) : (decimal n hn).value = n :=
  digitsValue_valueText knownBase_ten

theorem minimum_ne_zero {width : BitVec 32} (h : width.msb = true) : width.toInt.natAbs ≠ 0 :=
  Nat.pos_iff_ne_zero.mp (value_of_negative (show (star width).negative = true from h)).2.1

/-- A negative width stands for its absolute value. -/
def meant : Width → Width
  | none => none
  | literal digits hne hdigits hhead => literal digits hne hdigits hhead
  | star width => if h : width.msb = true then decimal width.toInt.natAbs (minimum_ne_zero h)
    else star width

end Width

/-- What is converted, with its argument: an integer, or a string, which is smaller than half of the
address space. -/
inductive Operand where
  | integer (modifier : Modifier) (specifier : Char) (arg : Arg) (value : BitVec 64)
    (specifier_mem : specifier ∈ ['d', 'i', 'o', 'x', 'X', 'u'])
    (read : ∀ vlist, modifier.length.vaArg (decide (specifier = 'd' ∨ specifier = 'i'))
      (arg :: vlist) = .done (value, vlist))
  | string (text : Option (List Char)) (length_lt : ∀ t, text = some t → t.length < 2 ^ 63)

namespace Operand

def suffix : Operand → List Char
  | integer modifier specifier .. => modifier.text ++ [specifier]
  | string .. => ['s']

def arg : Operand → Arg
  | integer _ _ arg .. => arg
  | string text _ => .string text

/-- The conversion that is read. -/
def convert (fm : FmtSpec) : Operand → Conversion
  | integer _ specifier _ value .. => .integer { fm with
      isSigned := decide (specifier = 'd' ∨ specifier = 'i')
      base := baseFromSpecifier specifier
      uppercase := isUppercaseSpecifier specifier } value
  | string text _ => .string fm (text.getD ['<', 'n', 'u', 'l', 'l', '>'])

end Operand

/-- An integer or string conversion, whose width and precision may be arguments. -/
structure Starred where
  flags : List Char
  width : Width
  precision : Precision
  operand : Operand
  flags_mem : ∀ flag ∈ flags, flag ∈ ['+', '-', ' ', '0', '#']

namespace Starred

/-- What follows the width. -/
def tail (d : Starred) : List Char := d.precision.text ++ d.operand.suffix

/-- The conversion, after its `%`. -/
def text (d : Starred) : List Char := d.flags ++ (d.width.text ++ d.tail)

def args (d : Starred) : List Arg := d.width.args ++ (d.precision.args ++ [d.operand.arg])

def spec (d : Starred) : FmtSpec :=
  d.precision.apply { FmtSpec.withFlags {} d.flags with minWidth := d.width.value }

def conversion (d : Starred) : Conversion := d.operand.convert d.spec

/-- **What is meant**: a `-` flag for a negative width. -/
def meant (d : Starred) : Starred where
  flags := if d.width.negative then d.flags ++ ['-'] else d.flags
  width := d.width.meant
  precision := d.precision.meant
  operand := d.operand
  flags_mem := by
    intro flag hflag
    split_ifs at hflag
    · rcases List.mem_append.mp hflag with hflag | hflag
      · exact d.flags_mem flag hflag
      · rw [List.mem_singleton.mp hflag]
        decide
    · exact d.flags_mem flag hflag

end Starred

/-! ### Reading -/

section Reading

variable {fm : FmtSpec} {vlist : List Arg} {rest : List Char}

/-- What a precision and a conversion begin with. -/
theorem tail_char {c : Char} (hc : c ∈ ['.', 's', 'h', 'l', 'z', 'd', 'i', 'o', 'x', 'X', 'u']) :
    c ∉ ['+', '-', ' ', '0', '#'] ∧ isdigit c = false ∧ c ≠ '*' := by
  simp only [List.mem_cons, List.not_mem_nil, or_false] at hc
  rcases hc with rfl | rfl | rfl | rfl | rfl | rfl | rfl | rfl | rfl | rfl | rfl
  all_goals decide

theorem Operand.suffix_head (operand : Operand) (rest : List Char) :
    ∃ c rest', operand.suffix ++ rest = c :: rest' ∧
      c ∈ ['s', 'h', 'l', 'z', 'd', 'i', 'o', 'x', 'X', 'u'] := by
  cases operand with
  | integer modifier specifier _ _ hmem _ =>
    cases modifier with
    | none => exact ⟨specifier, rest, rfl, List.mem_append_right ['s', 'h', 'l', 'z'] hmem⟩
    | hh => exact ⟨'h', _, rfl, by decide⟩
    | h => exact ⟨'h', _, rfl, by decide⟩
    | l => exact ⟨'l', _, rfl, by decide⟩
    | ll => exact ⟨'l', _, rfl, by decide⟩
    | z => exact ⟨'z', _, rfl, by decide⟩
  | string => exact ⟨'s', rest, rfl, by decide⟩

theorem Starred.tail_head (d : Starred) (rest : List Char) :
    ∃ c rest', d.tail ++ rest = c :: rest' ∧
      c ∈ ['.', 's', 'h', 'l', 'z', 'd', 'i', 'o', 'x', 'X', 'u'] := by
  rw [tail, List.append_assoc]
  cases d.precision with
  | none =>
    obtain ⟨c, rest', htail, hc⟩ := d.operand.suffix_head rest
    exact ⟨c, rest', htail, List.mem_cons_of_mem _ hc⟩
  | literal digits => exact ⟨'.', _, rfl, by decide⟩
  | star precision => exact ⟨'.', _, rfl, by decide⟩

/-- **The precision** is read as it was written. -/
theorem parsePrecision_tail (precision : Precision)
    (hrest : ∀ c, rest.head? = some c → isdigit c = false ∧ c ≠ '.') :
    parsePrecision fm (precision.text ++ rest) (precision.args ++ vlist) =
      .done (precision.apply fm, rest, vlist) := by
  cases precision with
  | none =>
    have hdot : consume rest ['.'] = Option.none :=
      Directive.consume_of_head fun c hc => (hrest c hc).2
    show parsePrecision fm rest vlist = _
    rw [parsePrecision, hdot]
    rfl
  | literal digits value hne hdigits hread =>
    have hnumber : ∀ n, parseNumber (digits ++ rest) .must n = .done (value, rest) := by
      intro n
      rw [parseNumber, consumeDigits_append hdigits fun c hc => by simp [(hrest c hc).1]]
      dsimp only
      rw [if_neg hne, hread]
    have hdot : consume ('.' :: (digits ++ rest)) ['.'] = some (digits ++ rest) := rfl
    show parsePrecision fm ('.' :: (digits ++ rest)) vlist = _
    rw [parsePrecision, hdot]
    dsimp only
    rw [Directive.consume_star_digits hne hdigits rest]
    dsimp only
    rw [hnumber, done_bind]
    rfl
  | star precision => rfl

theorem parseSpecifier_operand (operand : Operand)
    (hfm : fm.isSigned = false ∧ fm.base = 10 ∧ fm.uppercase = false) (rest : List Char)
    (vlist : List Arg) :
    parseSpecifier fm (operand.suffix ++ rest) (operand.arg :: vlist) =
      .done (operand.convert fm, rest, vlist) := by
  cases operand with
  | integer modifier specifier arg value hmem hread =>
    show parseSpecifier fm (modifier.text ++ [specifier] ++ rest) (arg :: vlist) = _
    rw [List.append_assoc, List.singleton_append, Directive.parseSpecifier_modifier modifier hmem]
    exact Directive.parseInteger_specifier hmem hfm rest (hread vlist)
  | string text => rfl

/-- After a width, there is neither a digit nor a `*`. -/
theorem Starred.tail_not_width (d : Starred) (rest : List Char) :
    ∀ c, (d.tail ++ rest).head? = some c → isdigit c = false ∧ c ≠ '*' := by
  intro c hhead
  obtain ⟨c', rest', htail, hc⟩ := d.tail_head rest
  rw [htail] at hhead
  rw [← Option.some.inj hhead]
  exact (tail_char hc).2

/-- After the flags, there is no other flag. -/
theorem Starred.width_not_flag (d : Starred) (rest : List Char) :
    ∀ c, (d.width.text ++ (d.tail ++ rest)).head? = some c → c ∉ ['+', '-', ' ', '0', '#'] := by
  intro c hhead
  cases hwidth : d.width with
  | none =>
    obtain ⟨c', rest', htail, hc⟩ := d.tail_head rest
    rw [hwidth, htail] at hhead
    rw [← Option.some.inj hhead]
    exact (tail_char hc).1
  | literal digits hne hdigits hzero =>
    rw [hwidth] at hhead
    cases digits with
    | nil => exact absurd rfl hne
    | cons digit digits =>
      rw [← Option.some.inj hhead]
      exact isdigit_not_flag (hdigits digit (List.mem_cons_self ..)) (by simpa using hzero)
  | star width =>
    rw [hwidth] at hhead
    rw [← Option.some.inj hhead]
    decide

/-- After a precision, there is neither a digit nor another one. -/
theorem Operand.suffix_not_precision (operand : Operand) (rest : List Char) :
    ∀ c, (operand.suffix ++ rest).head? = some c → isdigit c = false ∧ c ≠ '.' := by
  intro c hhead
  obtain ⟨c', rest', hsuffix, hc⟩ := operand.suffix_head rest
  rw [hsuffix] at hhead
  rw [← Option.some.inj hhead]
  refine ⟨(tail_char (List.mem_cons_of_mem _ hc)).2.1, fun hdot => ?_⟩
  rw [hdot] at hc
  exact absurd hc (by decide)

/-- A precision leaves what a specifier sets. -/
theorem Precision.apply_plain (precision : Precision)
    (hfm : fm.isSigned = false ∧ fm.base = 10 ∧ fm.uppercase = false) :
    (precision.apply fm).isSigned = false ∧ (precision.apply fm).base = 10 ∧
      (precision.apply fm).uppercase = false := by
  cases precision with
  | none => exact hfm
  | literal => exact hfm
  | star => exact hfm

/-- **A conversion** is read as it was written, if its width fits 64 bits. -/
theorem parseConversion_text (d : Starred) (rest : List Char) (vlist : List Arg) :
    parseConversion (d.text ++ rest) (d.args ++ vlist) =
      if d.width.value < 2 ^ 64 then .done (d.conversion, rest, vlist)
      else .halt (.error erange) := by
  have htext : d.text ++ rest = d.flags ++ (d.width.text ++ (d.tail ++ rest)) := by
    rw [Starred.text, List.append_assoc, List.append_assoc]
  have hargs : d.args ++ vlist =
      d.width.args ++ (d.precision.args ++ (d.operand.arg :: vlist)) := by
    rw [Starred.args, List.append_assoc, List.append_assoc, List.singleton_append]
  rw [parseConversion, htext, hargs, parseFlags_append {} d.flags_mem (d.width_not_flag rest),
    done_bind]
  dsimp only
  rw [Directive.parseWidth_tail d.width rfl (d.tail_not_width rest)]
  by_cases hfits : d.width.value < 2 ^ 64
  · rw [if_pos hfits, if_pos hfits, done_bind]
    dsimp only
    rw [Starred.tail, List.append_assoc,
      parsePrecision_tail d.precision (d.operand.suffix_not_precision rest), done_bind]
    exact parseSpecifier_operand d.operand (d.precision.apply_plain ⟨rfl, rfl, rfl⟩) rest vlist
  · rw [if_neg hfits, if_neg hfits]
    rfl

end Reading

/-! ### Writing -/

/-- The conversion is written, after enough rounds of its loops. -/
def Writes (conversion : Conversion) (fb fb' : FmtBufState) : Prop :=
  ∃ fuel, writeConversion fuel fb conversion = .done fb'

/-- A conversion at the start of a format is read and written. -/
def Converts (fmt : List Char) (vlist : List Arg) (fb : FmtBufState) (fmt' : List Char)
    (vlist' : List Arg) (fb' : FmtBufState) : Prop :=
  ∃ conversion, parseConversion fmt vlist = .done (conversion, fmt', vlist') ∧
    Writes conversion fb fb'

/-- The characters that `%s` copies from the index on. -/
def shown (fm : FmtSpec) (i : ℕ) (text : List Char) : List Char :=
  (if fm.hasPrecision then text.take (fm.precision - i) else text).takeWhile (· ≠ nul)

/-- The text that an integer or a string is converted to, without what pads it. -/
def Conversion.text : Conversion → List Char
  | .integer fm value => signText fm value ++ reprText fm (magnitude fm value)
  | .string fm str => shown fm 0 str
  | _ => []

section Writing

variable {fm fm' : FmtSpec} {fb fb' : FmtBufState} {text : List Char}

/-- **The first loop** copies what is shown. -/
theorem stringLoop_shown (fm : FmtSpec) (text : List Char) (i : ℕ) (fb : FmtBufState)
    (hfb : fb.bytesWritten < 2 ^ 64) :
    (stringLoop fm text i fb).2 = i + (shown fm i text).length ∧
      (stringLoop fm text i fb).1.bytesWritten =
        (fb.bytesWritten + (shown fm i text).length) % 2 ^ 64 := by
  induction text generalizing i fb with
  | nil =>
    have hnil : shown fm i [] = [] := by simp [shown]
    rw [hnil]
    exact ⟨rfl, (Nat.mod_eq_of_lt hfb).symm⟩
  | cons c text ih =>
    rw [stringLoop]
    by_cases hgo : (¬ fm.hasPrecision ∨ i < fm.precision) ∧ c ≠ nul
    · have hshown : shown fm i (c :: text) = c :: shown fm (i + 1) text := by
        rw [shown, shown]
        by_cases hprecision : fm.hasPrecision = true
        · have hi : i < fm.precision := hgo.1.resolve_left (not_not.mpr hprecision)
          rw [if_pos hprecision, if_pos hprecision,
            show fm.precision - i = fm.precision - (i + 1) + 1 by omega, List.take_succ_cons,
            List.takeWhile_cons_of_pos (by simpa using hgo.2)]
        · rw [if_neg hprecision, if_neg hprecision,
            List.takeWhile_cons_of_pos (by simpa using hgo.2)]
      have hone : (writeOne fb c).bytesWritten = (fb.bytesWritten + 1) % 2 ^ 64 := rfl
      obtain ⟨hindex, hbytes⟩ :=
        ih (i + 1) (writeOne fb c) (hone.trans_lt (Nat.mod_lt _ (by decide)))
      rw [if_pos hgo, hindex, hbytes, hone, hshown, List.length_cons]
      omega
    · have hshown : shown fm i (c :: text) = [] := by
        rw [shown]
        by_cases hc : c = nul
        · rw [hc]
          split_ifs
          · cases fm.precision - i with
            | zero => rfl
            | succ n => rfl
          · rfl
        · obtain ⟨hprecision, hi⟩ : fm.hasPrecision = true ∧ ¬ i < fm.precision := by
            simpa [hc] using hgo
          rw [if_pos hprecision, Nat.sub_eq_zero_of_le (Nat.not_lt.mp hi)]
          rfl
      rw [if_neg hgo, hshown]
      exact ⟨rfl, (Nat.mod_eq_of_lt hfb).symm⟩

theorem shown_length_le (fm : FmtSpec) (i : ℕ) (text : List Char) :
    (shown fm i text).length ≤ text.length := by
  rw [shown]
  refine (List.takeWhile_sublist _).length_le.trans ?_
  split_ifs
  · exact (List.take_sublist _ _).length_le
  · exact le_refl _

/-- **The second loop** pads up to the width. -/
theorem stringPadding_bytesWritten {fuel i minWidth : ℕ} (hfb : fb.bytesWritten < 2 ^ 64)
    (h : stringPadding fuel fb i minWidth = .done fb') :
    fb'.bytesWritten = (fb.bytesWritten + (minWidth - i)) % 2 ^ 64 := by
  induction fuel generalizing fb i with
  | zero => exact nomatch h
  | succ fuel ih =>
    rw [stringPadding] at h
    split_ifs at h with hlt
    · have hone : (writeOne fb ' ').bytesWritten = (fb.bytesWritten + 1) % 2 ^ 64 := rfl
      rw [ih (hone.trans_lt (Nat.mod_lt _ (by decide))) h, hone]
      omega
    · rw [← Outcome.done.inj h, Nat.sub_eq_zero_of_le (Nat.not_lt.mp hlt), Nat.add_zero,
        Nat.mod_eq_of_lt hfb]

/-- A precision that is not reached is as good as none. -/
theorem stringLoop_precision {i : ℕ} (h : i + text.length ≤ fm.precision)
    (hnone : fm'.hasPrecision = false) : stringLoop fm text i fb = stringLoop fm' text i fb := by
  induction text generalizing i fb with
  | nil => rfl
  | cons c text ih =>
    rw [List.length_cons] at h
    rw [stringLoop, stringLoop, ih (by omega)]
    refine if_congr ?_ rfl rfl
    simp [hnone, show i < fm.precision by omega]

theorem paddingLoop_congr (hleft : fm.leftJustify = fm'.leftJustify)
    (hpad : fm.padChar = fm'.padChar) (mw : ℕ) (fb : FmtBufState) :
    paddingLoop fm mw fb = paddingLoop fm' mw fb := by
  induction mw generalizing fb with
  | zero => rfl
  | succ mw ih => rw [paddingLoop, paddingLoop, ih, hleft, hpad]

/-- The specification without its precision. -/
def FmtSpec.withoutPrecision (fm : FmtSpec) : FmtSpec :=
  { fm with hasPrecision := false, precision := 0 }

/-- **An integer conversion** does not look at its precision. -/
theorem writeInteger_withoutPrecision (hbase : KnownBase fm.base) (value : BitVec 64) :
    writeInteger fb fm.withoutPrecision value = writeInteger fb fm value := by
  have hpadding : ∀ fb size, writePadding fb fm.withoutPrecision size = writePadding fb fm size := by
    intro fb size
    have hleft : fm.withoutPrecision.leftJustify = fm.leftJustify := rfl
    have hpad : fm.withoutPrecision.padChar = fm.padChar := rfl
    exact if_congr Iff.rfl rfl (paddingLoop_congr hleft hpad (fm.minWidth - size) fb)
  have hbase' : KnownBase fm.withoutPrecision.base := hbase
  rw [writeInteger_eq _ _ hbase', writeInteger_eq _ _ hbase, hpadding, hpadding]
  rfl

end Writing

/-! ### What is meant -/

/-- The number of characters that are written for an integer or a string. -/
def Conversion.count : Conversion → ℕ
  | .integer fm value =>
    (signText fm value).length + max fm.minWidth (reprText fm (magnitude fm value)).length
  | .string fm str => max fm.minWidth (shown fm 0 str).length
  | _ => 0

namespace Starred

/-- Both conversions read the same arguments and write the same, wherever they are in a format. -/
def BehavesAs (d e : Starred) : Prop :=
  ∀ fmt vlist fb, fb.bytesWritten < 2 ^ 64 → ∀ fmt' vlist' fb',
    Converts (d.text ++ fmt) (d.args ++ vlist) fb fmt' vlist' fb' ↔
      Converts (e.text ++ fmt) (e.args ++ vlist) fb fmt' vlist' fb'

/-- No more characters are written than the width from the arguments or the converted text has. -/
def Bounded (d : Starred) : Prop :=
  ∀ width, d.width = .star width → ∀ fmt vlist fb, fb.bytesWritten < 2 ^ 64 →
    ∀ fmt' vlist' fb', Converts (d.text ++ fmt) (d.args ++ vlist) fb fmt' vlist' fb' →
      ∃ n ≤ max width.toInt.natAbs d.meant.conversion.text.length,
        fb'.bytesWritten = add64 fb.bytesWritten n

/-- **What is claimed** of a conversion. -/
structure AsMeant (d : Starred) : Prop where
  behaves : d.BehavesAs d.meant
  bounded : d.Bounded

/-- **The condition**: a width from the arguments is not negative, and nothing is printed in the
place of a sign unless the digits and the prefix are at least as long as this width. -/
def Fits (d : Starred) : Prop :=
  ∀ width, d.width = .star width → 0 ≤ width.toInt ∧
    ∀ fm value, d.conversion = .integer fm value → signText fm value = [] ∨
      width.toInt.natAbs ≤ (reprText fm (magnitude fm value)).length

variable {d : Starred} {fb fb' : FmtBufState}

theorem converts_iff {fmt fmt' : List Char} {vlist vlist' : List Arg} :
    Converts (d.text ++ fmt) (d.args ++ vlist) fb fmt' vlist' fb' ↔
      d.width.value < 2 ^ 64 ∧ fmt' = fmt ∧ vlist' = vlist ∧ Writes d.conversion fb fb' := by
  rw [Converts, parseConversion_text]
  by_cases hfits : d.width.value < 2 ^ 64
  · rw [if_pos hfits]
    constructor
    · rintro ⟨conversion, hparse, hwrites⟩
      obtain ⟨rfl, hrest⟩ := Prod.mk.inj (Outcome.done.inj hparse)
      obtain ⟨rfl, rfl⟩ := Prod.mk.inj hrest
      exact ⟨hfits, rfl, rfl, hwrites⟩
    · rintro ⟨-, rfl, rfl, hwrites⟩
      exact ⟨_, rfl, hwrites⟩
  · rw [if_neg hfits]
    constructor
    · rintro ⟨conversion, hparse, -⟩
      exact nomatch hparse
    · rintro ⟨hlt, -⟩
      exact absurd hlt hfits

theorem spec_minWidth (d : Starred) : d.spec.minWidth = d.width.value := by
  rw [spec]
  cases d.precision with
  | none => rfl
  | literal => rfl
  | star => rfl

/-- What is read: an integer in a base that is known, or a string. -/
theorem conversion_cases (d : Starred) :
    (∃ fm value, d.conversion = .integer fm value ∧ KnownBase fm.base ∧
      fm.minWidth = d.width.value) ∨
    ∃ fm str, d.conversion = .string fm str ∧ str.length < 2 ^ 63 ∧ fm.minWidth = d.width.value := by
  rw [conversion]
  cases d.operand with
  | integer modifier specifier =>
    exact .inl ⟨_, _, rfl, knownBase_specifier specifier, d.spec_minWidth⟩
  | string text hlt =>
    refine .inr ⟨_, _, rfl, ?_, d.spec_minWidth⟩
    cases text with
    | none => decide
    | some str => exact hlt str rfl

/-- **The number of characters** that are written. -/
theorem writes_bytesWritten (hfb : fb.bytesWritten < 2 ^ 64) (h : Writes d.conversion fb fb') :
    fb'.bytesWritten = (fb.bytesWritten + d.conversion.count) % 2 ^ 64 := by
  obtain ⟨fuel, hwrite⟩ := h
  rcases d.conversion_cases with ⟨fm, value, heq, hbase, -⟩ | ⟨fm, str, heq, -⟩
  · rw [heq] at hwrite ⊢
    obtain ⟨_, hrun, hbytes⟩ := Directive.writeInteger_bytesWritten value hbase fb hfb
    rw [← Outcome.done.inj (hrun.symm.trans hwrite)]
    exact hbytes
  · rw [heq] at hwrite ⊢
    obtain ⟨hindex, hbytes⟩ := stringLoop_shown fm str 0 fb hfb
    have hlt : (stringLoop fm str 0 fb).1.bytesWritten < 2 ^ 64 :=
      hbytes.trans_lt (Nat.mod_lt _ (by decide))
    rw [stringPadding_bytesWritten hlt hwrite, hindex, hbytes, Conversion.count]
    omega

/-- **A conversion ends.** -/
theorem writes_exists (d : Starred) (fb : FmtBufState) : ∃ fb', Writes d.conversion fb fb' := by
  have hdone : ∃ least, ∀ fuel, least ≤ fuel → ∀ fb, ∃ fb',
      writeConversion fuel fb d.conversion = .done fb' := by
    apply writeConversion_done
    · intro fm str hstruct
      rcases d.conversion_cases with ⟨_, _, heq, -⟩ | ⟨_, _, heq, -⟩
      · exact nomatch heq.symm.trans hstruct
      · exact nomatch heq.symm.trans hstruct
    · intro fm value hinteger
      rcases d.conversion_cases with ⟨_, _, heq, hbase, -⟩ | ⟨_, _, heq, -⟩
      · obtain ⟨rfl, -⟩ := Conversion.integer.inj (heq.symm.trans hinteger)
        exact hbase
      · exact nomatch heq.symm.trans hinteger
  obtain ⟨least, hleast⟩ := hdone
  obtain ⟨fb', hwrite⟩ := hleast least (le_refl _) fb
  exact ⟨fb', least, hwrite⟩

/-! ### A width that is not negative -/

theorem apply_withoutPrecision (precision : Precision) (fm : FmtSpec) :
    (precision.apply fm).withoutPrecision = fm.withoutPrecision := by
  cases precision with
  | none => rfl
  | literal => rfl
  | star => rfl

/-- A precision below zero is read as one that no string reaches. -/
theorem intToU64_negative {precision : BitVec 32} (h : precision.msb = true) :
    2 ^ 63 ≤ intToU64 precision := by
  obtain ⟨hvalue, -, hle⟩ :=
    Width.value_of_negative (show (Width.star precision).negative = true from h)
  have hread : (Width.star precision).value = intToU64 precision := rfl
  omega

/-- **A precision below zero** is as good as none. -/
theorem stringLoop_meant (precision : Precision) {fm : FmtSpec} (hfm : fm.hasPrecision = false)
    {str : List Char} (hlt : str.length < 2 ^ 63) :
    stringLoop (precision.meant.apply fm) str 0 fb = stringLoop (precision.apply fm) str 0 fb := by
  cases precision with
  | none => rfl
  | literal => rfl
  | star precision =>
    rw [Precision.meant]
    split_ifs with hnegative
    · have hlarge := intToU64_negative hnegative
      refine (stringLoop_precision ?_ hfm).symm
      show 0 + str.length ≤ intToU64 precision
      omega
    · rfl

theorem meant_width (h : d.width.negative = false) : d.meant.width = d.width := by
  show d.width.meant = d.width
  cases hw : d.width with
  | none => rfl
  | literal => rfl
  | star width =>
    rw [hw] at h
    have hmsb : width.msb = false := h
    rw [Width.meant, dif_neg (by rw [hmsb]; exact Bool.false_ne_true)]

theorem meant_spec (h : d.width.negative = false) :
    d.meant.spec =
      d.precision.meant.apply { FmtSpec.withFlags {} d.flags with minWidth := d.width.value } := by
  have hflags : d.meant.flags = d.flags := if_neg (by rw [h]; exact Bool.false_ne_true)
  rw [spec, hflags, meant_width h]
  rfl

/-- The specification that is meant differs in the precision alone. -/
theorem meant_spec_withoutPrecision (h : d.width.negative = false) :
    d.meant.spec.withoutPrecision = d.spec.withoutPrecision := by
  rw [meant_spec h, spec, apply_withoutPrecision, apply_withoutPrecision]

/-- What an integer is converted by, with and without the precision. -/
theorem integer_meant (h : d.width.negative = false) {modifier : Modifier} {specifier : Char}
    {arg : Arg} {value : BitVec 64} (hmem : specifier ∈ ['d', 'i', 'o', 'x', 'X', 'u'])
    (hread : ∀ vlist, modifier.length.vaArg (decide (specifier = 'd' ∨ specifier = 'i'))
      (arg :: vlist) = .done (value, vlist)) {α : Type} {f : Conversion → α}
    (hf : ∀ fm value, KnownBase fm.base → f (.integer fm.withoutPrecision value) = f (.integer fm value)) :
    f ((Operand.integer modifier specifier arg value hmem hread).convert d.meant.spec) =
      f ((Operand.integer modifier specifier arg value hmem hread).convert d.spec) := by
  have hconvert : ∀ fm : FmtSpec,
      f ((Operand.integer modifier specifier arg value hmem hread).convert fm.withoutPrecision) =
        f ((Operand.integer modifier specifier arg value hmem hread).convert fm) :=
    fun fm => hf { fm with
      isSigned := decide (specifier = 'd' ∨ specifier = 'i')
      base := baseFromSpecifier specifier
      uppercase := isUppercaseSpecifier specifier } value (knownBase_specifier specifier)
  rw [← hconvert, meant_spec_withoutPrecision h, hconvert]

/-- A string is copied up to the same index. -/
theorem string_meant (h : d.width.negative = false) {text : Option (List Char)}
    (hlt : ∀ t, text = some t → t.length < 2 ^ 63) (fb : FmtBufState) :
    stringLoop d.meant.spec (text.getD ['<', 'n', 'u', 'l', 'l', '>']) 0 fb =
      stringLoop d.spec (text.getD ['<', 'n', 'u', 'l', 'l', '>']) 0 fb := by
  have hshort : (text.getD ['<', 'n', 'u', 'l', 'l', '>']).length < 2 ^ 63 := by
    cases text with
    | none => decide
    | some str => exact hlt str rfl
  rw [meant_spec h]
  exact stringLoop_meant d.precision rfl hshort

/-- **A width that is not negative** is written as it is meant. -/
theorem writeConversion_meant (h : d.width.negative = false) (fuel : ℕ) (fb : FmtBufState) :
    writeConversion fuel fb d.meant.conversion = writeConversion fuel fb d.conversion := by
  rw [conversion, conversion]
  show writeConversion fuel fb (d.operand.convert d.meant.spec) = _
  cases d.operand with
  | integer modifier specifier arg value hmem hread =>
    exact integer_meant h hmem hread fun fm value hbase => writeInteger_withoutPrecision hbase value
  | string text hlt =>
    have hwidth : d.meant.spec.minWidth = d.spec.minWidth := by
      rw [spec_minWidth, spec_minWidth, meant_width h]
    rw [Operand.convert, Operand.convert, writeConversion, writeConversion, string_meant h hlt,
      hwidth]

theorem text_meant (h : d.width.negative = false) :
    d.meant.conversion.text.length = d.conversion.text.length := by
  rw [conversion, conversion]
  show (d.operand.convert d.meant.spec).text.length = _
  cases d.operand with
  | integer modifier specifier arg value hmem hread =>
    exact integer_meant h hmem hread (f := fun c => c.text.length) fun fm value hbase => rfl
  | string text hlt =>
    have hloop := congrArg Prod.snd (string_meant h hlt ⟨fun _ => nul, 0, 0⟩)
    rw [(stringLoop_shown _ _ _ _ (by decide)).1, (stringLoop_shown _ _ _ _ (by decide)).1] at hloop
    exact Nat.add_left_cancel hloop

/-- **A width that is not negative** behaves as it is meant. -/
theorem behavesAs_meant (h : d.width.negative = false) : d.BehavesAs d.meant := by
  intro fmt vlist fb hfb fmt' vlist' fb'
  have hwrites : Writes d.conversion fb fb' ↔ Writes d.meant.conversion fb fb' :=
    exists_congr fun fuel => by rw [writeConversion_meant h]
  rw [converts_iff, converts_iff, meant_width h, hwrites]

/-! ### A negative width -/

theorem reprText_length {fm : FmtSpec} (hbase : KnownBase fm.base) (value : BitVec 64) :
    (reprText fm (magnitude fm value)).length ≤ 24 := by
  have halternate := Directive.alternateText_length fm
  have hvalue := (valueText_length_le hbase (BitVec.isLt (if negative fm value then -value else value))).2
  rw [reprText, List.length_append]
  exact Nat.add_le_add halternate hvalue

/-- The number of characters is the width, one more for a sign, or small. -/
theorem count_bounds (d : Starred) :
    d.width.value ≤ d.conversion.count ∧
      d.conversion.count ≤ max (d.width.value + 1) (2 ^ 63) := by
  rcases d.conversion_cases with ⟨fm, value, heq, hbase, hwidth⟩ | ⟨fm, str, heq, hlt, hwidth⟩
  · have hsign := Directive.signText_length value fm
    have hrepr := reprText_length hbase value
    rw [heq, Conversion.count, hwidth]
    omega
  · have hshown := shown_length_le fm 0 str
    rw [heq, Conversion.count, hwidth]
    omega

/-- **A negative width** does not behave as it is meant. -/
theorem not_behavesAs_meant (h : d.width.negative = true) : ¬ d.BehavesAs d.meant := by
  intro hbehaves
  obtain ⟨hvalue, hpos, hle⟩ := Width.value_of_negative h
  have hmeant : d.meant.width.value = d.width.minimum := by
    show d.width.meant.value = _
    cases hw : d.width with
    | none => rw [hw] at h; exact nomatch h
    | literal => rw [hw] at h; exact nomatch h
    | star width =>
      rw [hw] at h
      have hmsb : width.msb = true := h
      rw [Width.meant, dif_pos hmsb]
      exact Width.decimal_value _
  obtain ⟨fb', hwrites⟩ := d.writes_exists ⟨fun _ => nul, 0, 0⟩
  have hsame := (hbehaves [] [] ⟨fun _ => nul, 0, 0⟩ (by decide) [] [] fb').mp
    (converts_iff.mpr ⟨by omega, rfl, rfl, hwrites⟩)
  obtain ⟨-, -, -, hwrites'⟩ := converts_iff.mp hsame
  have hcount := (writes_bytesWritten (by decide) hwrites).symm.trans
    (writes_bytesWritten (by decide) hwrites')
  obtain ⟨hlow, hhigh⟩ := d.count_bounds
  obtain ⟨hlow', hhigh'⟩ := d.meant.count_bounds
  rw [hmeant] at hlow' hhigh'
  simp only [Nat.zero_add] at hcount
  omega

theorem negative_iff {width : BitVec 32} (h : d.width = .star width) :
    d.width.negative = false ↔ 0 ≤ width.toInt := by
  rw [h]
  show width.msb = false ↔ _
  rw [BitVec.msb_eq_toInt, decide_eq_false_iff_not, not_lt]

/-! ### The bound -/

/-- A conversion that fits is bounded. -/
theorem Fits.bounded (h : d.Fits) : d.Bounded := by
  intro width hwidth fmt vlist fb hfb fmt' vlist' fb' hconverts
  obtain ⟨hnonneg, hsign⟩ := h width hwidth
  have hnegative := (negative_iff hwidth).mpr hnonneg
  have hvalue : d.width.value = width.toInt.natAbs := by
    rw [Width.value_of_nonneg hnegative, hwidth]
    rfl
  obtain ⟨-, -, -, hwrites⟩ := converts_iff.mp hconverts
  refine ⟨d.conversion.count, ?_, writes_bytesWritten hfb hwrites⟩
  rw [text_meant hnegative]
  rcases d.conversion_cases with ⟨fm, value, heq, -, hmin⟩ | ⟨fm, str, heq, -, hmin⟩
  · rw [heq, Conversion.count, Conversion.text, List.length_append, hmin, hvalue]
    rcases hsign fm value heq with hnone | hlong
    · rw [hnone, List.length_nil]
      omega
    · omega
  · rw [heq, Conversion.count, Conversion.text, hmin, hvalue]

/-- **A sign is not counted** in the width: with more padding than the sign, the bound is passed. -/
theorem Bounded.sign (h : d.Bounded) {width : BitVec 32} (hwidth : d.width = .star width)
    (hnonneg : 0 ≤ width.toInt) {fm : FmtSpec} {value : BitVec 64}
    (heq : d.conversion = .integer fm value) : signText fm value = [] ∨
      width.toInt.natAbs ≤ (reprText fm (magnitude fm value)).length := by
  have hnegative := (negative_iff hwidth).mpr hnonneg
  have hvalue : d.width.value = width.toInt.natAbs := by
    rw [Width.value_of_nonneg hnegative, hwidth]
    rfl
  have hsmall : width.toInt.natAbs ≤ 2 ^ 31 := by
    have hlow := BitVec.le_two_mul_toInt (x := width)
    have hhigh := BitVec.two_mul_toInt_lt (x := width)
    omega
  have hmin : fm.minWidth = d.width.value := by
    rcases d.conversion_cases with ⟨fm', value', heq', -, hmin⟩ | ⟨_, _, heq', -⟩
    · obtain ⟨rfl, -⟩ := Conversion.integer.inj (heq'.symm.trans heq)
      exact hmin
    · exact nomatch heq'.symm.trans heq
  by_contra hboth
  rw [not_or] at hboth
  have hsign := List.length_pos_iff.mpr hboth.1
  have hone := Directive.signText_length value fm
  obtain ⟨fb', hwrites⟩ := d.writes_exists ⟨fun _ => nul, 0, 0⟩
  obtain ⟨n, hn, hbytes⟩ := h width hwidth [] [] ⟨fun _ => nul, 0, 0⟩ (by decide) [] [] fb'
    (converts_iff.mpr ⟨by omega, rfl, rfl, hwrites⟩)
  rw [writes_bytesWritten (by decide) hwrites, text_meant hnegative, heq] at *
  rw [Conversion.text, List.length_append] at hn
  rw [Conversion.count, hmin, hvalue, add64, Nat.zero_add, Nat.zero_add] at hbytes
  omega

end Starred

/-- **Widths and precisions from the arguments** behave as they are meant, and stay in their bound,
exactly where the width is not negative and no sign is printed before digits that it pads. -/
theorem stars_iff (d : Starred) : d.AsMeant ↔ d.Fits := by
  constructor
  · intro h width hwidth
    have hnonneg : 0 ≤ width.toInt := by
      by_contra hnegative
      have hmsb : d.width.negative = true := by
        by_contra hmsb
        exact hnegative ((Starred.negative_iff hwidth).mp (Bool.eq_false_of_not_eq_true hmsb))
      exact Starred.not_behavesAs_meant hmsb h.behaves
    exact ⟨hnonneg, fun fm value heq => h.bounded.sign hwidth hnonneg heq⟩
  · intro h
    refine ⟨Starred.behavesAs_meant ?_, h.bounded⟩
    cases hw : d.width with
    | none => rfl
    | literal => rfl
    | star width => exact hw ▸ (Starred.negative_iff hw).mpr (h width hw).1

/-- `%*d` of 7 with the width -5. -/
def minusFiveWide : Starred where
  flags := []
  width := .star (-5)
  precision := .none
  operand := .integer .none 'd' (.int 7) 7 Directive.fiveWide.specifier_mem fun _ => rfl
  flags_mem := Directive.fiveWide.flags_mem

/-- The specification that it is read as. -/
def minusFiveSpec : FmtSpec := { isSigned := true, minWidth := 2 ^ 64 - 5 }

/-- **The width -5** pads 7 with all but five of 2 ^ 64 spaces, and -5 is returned as if it were an
error; `%-5d` pads it with four. -/
theorem stars_minusFive :
    minusFiveWide.text = ['*', 'd'] ∧ minusFiveWide.meant.text = ['-', '5', 'd'] ∧
      (∃ out, vsnprintf 2 (fun _ => nul) 8 ['%', '*', 'd'] [.int (-5), .int 7] = .done (-5, out) ∧
        out.bytesWritten = 2 ^ 64 - 5) ∧
      (∃ out, vsnprintf 2 (fun _ => nul) 8 ['%', '-', '5', 'd'] [.int 7] = .done (5, out) ∧
        bufferString out.buffer 8 = ['7', ' ', ' ', ' ', ' ']) ∧
      ¬ minusFiveWide.AsMeant := by
  have hmeant : minusFiveWide.meant.text = ['-', '5', 'd'] := by decide +kernel
  have hparse : parseConversion ['*', 'd'] [.int (-5), .int 7] =
      .done (.integer minusFiveSpec 7, [], []) := by
    decide +kernel
  have hbase : KnownBase minusFiveSpec.base := Or.inr (Or.inl rfl)
  obtain ⟨fb, hwrite, hbytes⟩ :=
    Directive.writeInteger_bytesWritten 7 hbase ⟨fun _ => nul, 8, 0⟩ (by decide)
  have hcount : fb.bytesWritten = 2 ^ 64 - 5 := hbytes.trans (by decide +kernel)
  have hrun := vsnprintf_writeInteger (fun _ => nul) 8 (show nul ∉ ['*', 'd'] by decide)
    (by decide) hparse 0
  rw [hwrite, done_bind, hcount] at hrun
  have hleft : (vsnprintf 2 (fun _ => nul) 8 ['%', '-', '5', 'd'] [.int 7]).value?.map
      (fun p => (p.1, bufferString p.2.buffer 8)) = some (5, ['7', ' ', ' ', ' ', ' ']) := by
    decide +kernel
  obtain ⟨⟨ret, out⟩, hvalue, heq⟩ := Option.map_eq_some_iff.mp hleft
  obtain ⟨rfl, htext⟩ := Prod.mk.inj heq
  refine ⟨rfl, hmeant, ?_, ⟨out, value?_eq_some.mp hvalue, htext⟩, ?_⟩
  · exact ⟨_, hrun, (terminate_bytesWritten fb).trans hcount⟩
  · intro h
    exact Starred.not_behavesAs_meant rfl h.behaves

end UltraKernel.Format
