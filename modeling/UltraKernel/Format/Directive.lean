import UltraKernel.Format.ReadBack

/-!
# Integer conversions as they are written in a format

Flags in any order and number, a minimum width, a length modifier and a specifier, without a
precision.  A directive carries that its flags and its specifier are ones that the formatter knows,
and that a width in digits does not begin with what is read as a flag.

* `parseFlags_append`: the flags are read one after the other;
* `parseConversion_directive`: a directive is read as it was written;
* `parseConversion_overflow`: a width that does not fit 64 bits is refused.
-/

namespace UltraKernel.Format

open Word Outcome Positional

/-! ### Directives -/

/-- The length modifiers, as they are written. -/
inductive Modifier where
  | hh
  | h
  | none
  | l
  | ll
  | z

def Modifier.text : Modifier → List Char
  | hh => ['h', 'h']
  | h => ['h']
  | none => []
  | l => ['l']
  | ll => ['l', 'l']
  | z => ['z']

def Modifier.length : Modifier → Length
  | hh => .hh
  | h => .h
  | none => .none
  | l | ll | z => .ll

/-- A minimum width: none, in digits, or taken from the arguments. -/
inductive Width where
  | none
  | literal (digits : List Char) (ne_nil : digits ≠ []) (isdigit : ∀ c ∈ digits, isdigit c)
    (head : digits.head? ≠ some '0')
  | star (width : BitVec 32)

namespace Width

def text : Width → List Char
  | none => []
  | literal digits .. => digits
  | star _ => ['*']

/-- The arguments that the width takes. -/
def args : Width → List Arg
  | star width => [.int width]
  | _ => []

def value : Width → ℕ
  | none => 0
  | literal digits .. => digitsValue 10 digits
  | star width => intToU64 width

end Width

/-- An integer conversion. -/
structure Directive where
  flags : List Char
  width : Width
  modifier : Modifier
  specifier : Char
  flags_mem : ∀ flag ∈ flags, flag ∈ ['+', '-', ' ', '0', '#']
  specifier_mem : specifier ∈ ['d', 'i', 'o', 'x', 'X', 'u']

namespace Directive

/-- What follows the width. -/
def suffix (d : Directive) : List Char := d.modifier.text ++ [d.specifier]

/-- The directive, after its `%`. -/
def text (d : Directive) : List Char := d.flags ++ (d.width.text ++ d.suffix)

def isSigned (d : Directive) : Bool := d.specifier = 'd' ∨ d.specifier = 'i'

end Directive

def isSignFlag (flag : Char) : Bool := flag = '+' ∨ flag = ' '

/-- The last of the flags that stand for a sign. -/
def signFlag (flags : List Char) (default : Char) : Char :=
  (flags.filter isSignFlag).getLast?.getD default

/-- What the flags say. -/
def FmtSpec.withFlags (fm : FmtSpec) (flags : List Char) : FmtSpec :=
  { fm with
    prepend := fm.prepend || decide ('+' ∈ flags ∨ ' ' ∈ flags)
    prependChar := signFlag flags fm.prependChar
    leftJustify := fm.leftJustify || decide ('-' ∈ flags)
    padChar := if '0' ∈ flags then '0' else fm.padChar
    alternateForm := fm.alternateForm || decide ('#' ∈ flags) }

/-- The specification that a directive is read as. -/
def Directive.spec (d : Directive) : FmtSpec :=
  { FmtSpec.withFlags {} d.flags with
    minWidth := d.width.value
    isSigned := d.isSigned
    base := baseFromSpecifier d.specifier
    uppercase := isUppercaseSpecifier d.specifier }

/-! ### Reading the flags -/

section Flags

variable {fm : FmtSpec} {flag : Char} {flags rest : List Char}

theorem setFlag_eq (hflag : flag ∈ ['+', '-', ' ', '0', '#']) :
    setFlag fm flag = .done (fm.withFlags [flag]) := by
  simp only [List.mem_cons, List.not_mem_nil, or_false] at hflag
  rcases hflag with rfl | rfl | rfl | rfl | rfl
  all_goals simp [setFlag, FmtSpec.withFlags, signFlag, isSignFlag]

theorem withFlags_nil (fm : FmtSpec) : fm.withFlags [] = fm := by
  simp [FmtSpec.withFlags, signFlag]

theorem signFlag_cons (flag : Char) (flags : List Char) (default : Char) :
    signFlag flags (signFlag [flag] default) = signFlag (flag :: flags) default := by
  unfold signFlag
  cases hsign : isSignFlag flag with
  | true =>
    simp only [List.filter_cons_of_pos hsign, List.filter_nil, List.getLast?_cons,
      List.getLast?_nil, Option.getD_some, Option.getD_none]
  | false =>
    rw [List.filter_cons_of_neg (by simp [hsign]), List.filter_cons_of_neg (by simp [hsign])]
    rfl

theorem withFlags_cons (fm : FmtSpec) (flag : Char) (flags : List Char) :
    (fm.withFlags [flag]).withFlags flags = fm.withFlags (flag :: flags) := by
  have hor : ∀ (b : Bool) (p q : Prop) [Decidable p] [Decidable q],
      (b || decide p || decide q) = (b || decide (p ∨ q)) := by
    intro b p q _ _
    rw [Bool.or_assoc, Bool.decide_or]
  simp only [FmtSpec.withFlags, signFlag_cons, hor, FmtSpec.mk.injEq, true_and, and_true]
  refine ⟨?_, ?_, ?_, ?_⟩
  · congr 1
    simp only [List.mem_cons, List.not_mem_nil, or_false, decide_eq_decide]
    tauto
  · simp
  · simp
  · by_cases hzero : '0' ∈ flags
    · rw [if_pos hzero, if_pos (List.mem_cons_of_mem _ hzero)]
    · rw [if_neg hzero]
      exact if_congr (by simp [hzero]) rfl rfl

/-- **The flags** are read one after the other. -/
theorem parseFlags_append (fm : FmtSpec) (hflags : ∀ flag ∈ flags, flag ∈ ['+', '-', ' ', '0', '#'])
    (hrest : ∀ c, rest.head? = some c → c ∉ ['+', '-', ' ', '0', '#']) :
    parseFlags fm (flags ++ rest) = .done (fm.withFlags flags, rest) := by
  induction flags generalizing fm with
  | nil =>
    rw [withFlags_nil, List.nil_append]
    cases rest with
    | nil => rfl
    | cons c rest => exact parseFlags_stop fm (hrest c rfl) rest
  | cons flag flags ih =>
    have hflag := hflags flag (List.mem_cons_self ..)
    rw [List.cons_append, parseFlags, if_pos hflag, setFlag_eq hflag, done_bind,
      ih _ fun f hf => hflags f (List.mem_cons_of_mem _ hf), withFlags_cons]

end Flags

/-! ### Reading the rest -/

namespace Directive

variable {fm : FmtSpec} {vlist : List Arg}

/-- What a length modifier and a specifier begin with. -/
theorem suffix_head (d : Directive) : ∃ c rest, d.suffix = c :: rest ∧
    c ∈ ['h', 'l', 'z', 'd', 'i', 'o', 'x', 'X', 'u'] := by
  obtain ⟨flags, width, modifier, specifier, _, hspecifier⟩ := d
  cases modifier with
  | none =>
    refine ⟨specifier, [], rfl, ?_⟩
    exact List.mem_append_right ['h', 'l', 'z'] hspecifier
  | hh => exact ⟨'h', _, rfl, by decide⟩
  | h => exact ⟨'h', _, rfl, by decide⟩
  | l => exact ⟨'l', _, rfl, by decide⟩
  | ll => exact ⟨'l', _, rfl, by decide⟩
  | z => exact ⟨'z', _, rfl, by decide⟩

theorem suffix_char {c : Char} (hc : c ∈ ['h', 'l', 'z', 'd', 'i', 'o', 'x', 'X', 'u']) :
    c ∉ ['+', '-', ' ', '0', '#'] ∧ isdigit c = false ∧ c ≠ '*' ∧ c ≠ '.' ∧ c ≠ '%' ∧ c ≠ nul := by
  simp only [List.mem_cons, List.not_mem_nil, or_false] at hc
  rcases hc with rfl | rfl | rfl | rfl | rfl | rfl | rfl | rfl | rfl
  all_goals decide

theorem consume_cons_ne {c tok : Char} (h : c ≠ tok) (fmt : List Char) :
    consume (c :: fmt) [tok] = none := by
  simp [consume, strStartsWith, Ne.symm h]

/-- A character is consumed only at the head. -/
theorem consume_of_head {tok : Char} {fmt : List Char} (h : ∀ c, fmt.head? = some c → c ≠ tok) :
    consume fmt [tok] = none := by
  cases fmt with
  | nil => rfl
  | cons c fmt => exact consume_cons_ne (h c rfl) fmt

/-- **The modifier** decides how the argument is passed. -/
theorem parseSpecifier_modifier (modifier : Modifier) {c : Char}
    (hc : c ∈ ['d', 'i', 'o', 'x', 'X', 'u']) (fm : FmtSpec) (fmt : List Char) (vlist : List Arg) :
    parseSpecifier fm (modifier.text ++ c :: fmt) vlist =
      parseInteger modifier.length fm (c :: fmt) vlist := by
  simp only [List.mem_cons, List.not_mem_nil, or_false] at hc
  rcases hc with rfl | rfl | rfl | rfl | rfl | rfl
  all_goals
    cases modifier
    all_goals rfl

theorem parseSpecifier_suffix (d : Directive) (fm : FmtSpec) (vlist : List Arg) :
    parseSpecifier fm d.suffix vlist =
      parseInteger d.modifier.length fm [d.specifier] vlist :=
  parseSpecifier_modifier d.modifier d.specifier_mem fm [] vlist

theorem parseInteger_signed (length : Length) (fm : FmtSpec) {c : Char} (hc : c = 'd' ∨ c = 'i')
    (fmt : List Char) {value : BitVec 64} {rest : List Arg}
    (hvalue : length.vaArg true vlist = .done (value, rest)) :
    parseInteger length fm (c :: fmt) vlist =
      .done (.integer { fm with isSigned := true } value, fmt, rest) := by
  have hparse : parseInteger length fm (c :: fmt) vlist = (length.vaArg true vlist >>= fun p =>
      .done (.integer { fm with isSigned := true } p.1, fmt, p.2)) := by
    rcases hc with rfl | rfl
    · rfl
    · rfl
  rw [hparse, hvalue, done_bind]

theorem parseInteger_unsigned (length : Length) (fm : FmtSpec) {c : Char}
    (hc : c ∈ ['o', 'x', 'X', 'u']) (fmt : List Char) {value : BitVec 64} {rest : List Arg}
    (hvalue : length.vaArg false vlist = .done (value, rest)) :
    parseInteger length fm (c :: fmt) vlist =
      .done (.integer { fm with
        base := baseFromSpecifier c
        uppercase := isUppercaseSpecifier c } value, fmt, rest) := by
  have hparse : parseInteger length fm (c :: fmt) vlist = (length.vaArg false vlist >>= fun p =>
      .done (.integer { fm with
        base := baseFromSpecifier c
        uppercase := isUppercaseSpecifier c } p.1, fmt, p.2)) := by
    simp only [List.mem_cons, List.not_mem_nil, or_false] at hc
    rcases hc with rfl | rfl | rfl | rfl
    all_goals rfl
  rw [hparse, hvalue, done_bind]

/-- **The specifier** decides the signedness and the base. -/
theorem parseInteger_specifier {length : Length} {fm : FmtSpec} {c : Char}
    (hc : c ∈ ['d', 'i', 'o', 'x', 'X', 'u'])
    (hfm : fm.isSigned = false ∧ fm.base = 10 ∧ fm.uppercase = false) (fmt : List Char)
    {value : BitVec 64} {rest : List Arg}
    (hvalue : length.vaArg (decide (c = 'd' ∨ c = 'i')) vlist = .done (value, rest)) :
    parseInteger length fm (c :: fmt) vlist =
      .done (.integer { fm with
        isSigned := decide (c = 'd' ∨ c = 'i')
        base := baseFromSpecifier c
        uppercase := isUppercaseSpecifier c } value, fmt, rest) := by
  by_cases hsigned : c = 'd' ∨ c = 'i'
  · rw [decide_eq_true hsigned] at hvalue ⊢
    have hbase : baseFromSpecifier c = 10 ∧ isUppercaseSpecifier c = false := by
      rcases hsigned with rfl | rfl
      · decide
      · decide
    rw [parseInteger_signed _ _ hsigned fmt hvalue, hbase.1, hbase.2, ← hfm.2.1, ← hfm.2.2]
  · rw [decide_eq_false hsigned] at hvalue ⊢
    have hunsigned : c ∈ ['o', 'x', 'X', 'u'] := by
      simp only [List.mem_cons, List.not_mem_nil, or_false] at hc ⊢
      tauto
    rw [parseInteger_unsigned _ _ hunsigned fmt hvalue, ← hfm.1]

/-! ### Reading the width -/

/-- A width in digits, or the error it is refused with. -/
theorem strToU64WithBase_width {digits : List Char} (hne : digits ≠ [])
    (hdigits : ∀ c ∈ digits, isdigit c) (hhead : digits.head? ≠ some '0') :
    strToU64WithBase digits 10 =
      if digitsValue 10 digits < 2 ^ 64 then .ok (digitsValue 10 digits) else .error erange := by
  have hvalid : ∀ c ∈ digits, IsDigitOf 10 c := fun c hc => isDigitOf_of_isdigit (hdigits c hc)
  cases digits with
  | nil => exact absurd rfl hne
  | cons c digits =>
    have hc : c ≠ '0' := by simpa using hhead
    have hread : doStrToU64 (c :: digits) 10 = doStrToU64Unchecked 10 (c :: digits) 0 := by
      rw [doStrToU64, consumeBase_decimal hc (hdigits c (List.mem_cons_self ..))]
      rfl
    rw [strToU64WithBase_eq, afterSign_digits fun d hd => (hvalid d hd).1, hread,
      unchecked_eq (by decide), afterDigits_eq_nil.mpr hvalid, validDigits_of_all hvalid]

/-- What a width and what follows it begin with. -/
theorem widthText_head (d : Directive) : ∃ c rest, d.width.text ++ d.suffix = c :: rest ∧
    c ∉ ['+', '-', ' ', '0', '#'] ∧ c ≠ '%' := by
  obtain ⟨c, rest, hsuffix, hc⟩ := d.suffix_head
  cases d.width with
  | none => exact ⟨c, rest, hsuffix, (suffix_char hc).1, (suffix_char hc).2.2.2.2.1⟩
  | literal digits hne hdigits hhead =>
    cases digits with
    | nil => exact absurd rfl hne
    | cons digit digits =>
      have hdigit := hdigits digit (List.mem_cons_self ..)
      refine ⟨digit, _, rfl, isdigit_not_flag hdigit (by simpa using hhead), ?_⟩
      intro hpercent
      rw [hpercent] at hdigit
      exact absurd hdigit (by decide)
  | star width => exact ⟨'*', _, rfl, by decide, by decide⟩

/-- Digits are no `*`. -/
theorem consume_star_digits {digits : List Char} (hne : digits ≠ [])
    (hisdigit : ∀ c ∈ digits, isdigit c) (rest : List Char) :
    consume (digits ++ rest) ['*'] = Option.none := by
  cases digits with
  | nil => exact absurd rfl hne
  | cons c digits =>
    have hc := hisdigit c (List.mem_cons_self ..)
    refine consume_cons_ne ?_ (digits ++ rest)
    intro heq
    rw [heq] at hc
    exact absurd hc (by decide)

/-- **The width** is read as it was written, if it fits 64 bits. -/
theorem parseWidth_tail (width : Width) {tail : List Char} (hfm : fm.minWidth = 0)
    (htail : ∀ c, tail.head? = some c → isdigit c = false ∧ c ≠ '*') :
    parseWidth fm (width.text ++ tail) (width.args ++ vlist) =
      if width.value < 2 ^ 64 then .done ({ fm with minWidth := width.value }, tail, vlist)
      else .halt (.error erange) := by
  have hdigits : ∀ {digits : List Char}, (∀ c ∈ digits, isdigit c) →
      consumeDigits (digits ++ tail) = (digits, tail) := fun h =>
    consumeDigits_append h fun c hc => by simp [(htail c hc).1]
  cases width with
  | none =>
    have hnumber : parseNumber tail .maybe fm.minWidth = .done (0, tail) := by
      rw [parseNumber, show tail = [] ++ tail from rfl, hdigits (by simp), hfm]
      rfl
    have hstar : consume tail ['*'] = Option.none := consume_of_head fun c hc => (htail c hc).2
    rw [if_pos (by decide : Width.none.value < 2 ^ 64)]
    show parseWidth fm tail vlist = _
    rw [parseWidth, hstar]
    dsimp only
    rw [hnumber, done_bind]
    rfl
  | literal digits hne hisdigit hhead =>
    show parseWidth fm (digits ++ tail) vlist = if digitsValue 10 digits < 2 ^ 64 then _ else _
    rw [parseWidth, consume_star_digits hne hisdigit tail]
    dsimp only
    rw [parseNumber, hdigits hisdigit]
    dsimp only
    rw [if_neg hne, strToU64WithBase_width hne hisdigit hhead]
    by_cases hfits : digitsValue 10 digits < 2 ^ 64
    · rw [if_pos hfits, if_pos hfits]
      rfl
    · rw [if_neg hfits, if_neg hfits]
      rfl
  | star width =>
    have hfits : (Width.star width).value < 2 ^ 64 := (width.signExtend 64).isLt
    rw [if_pos hfits]
    rfl

theorem parseWidth_text (d : Directive) (hfm : fm.minWidth = 0) :
    parseWidth fm (d.width.text ++ d.suffix) (d.width.args ++ vlist) =
      if d.width.value < 2 ^ 64 then
        .done ({ fm with minWidth := d.width.value }, d.suffix, vlist)
      else .halt (.error erange) := by
  obtain ⟨c, rest, hsuffix, hc⟩ := d.suffix_head
  refine parseWidth_tail d.width hfm fun e he => ?_
  rw [hsuffix] at he
  rw [← Option.some.inj he]
  exact ⟨(suffix_char hc).2.1, (suffix_char hc).2.2.1⟩

/-! ### Reading a directive -/

/-- The arguments of a directive: of a `*`, and the value. -/
def args (d : Directive) (arg : Arg) : List Arg := d.width.args ++ [arg]

theorem parseConversion_flags (d : Directive) (vlist : List Arg) :
    parseConversion d.text vlist =
      (parseWidth (FmtSpec.withFlags {} d.flags) (d.width.text ++ d.suffix) vlist >>= fun p =>
        parsePrecision p.1 p.2.1 p.2.2 >>= fun q => parseSpecifier q.1 q.2.1 q.2.2) := by
  obtain ⟨c, rest, hhead, hc, _⟩ := d.widthText_head
  rw [parseConversion, Directive.text, parseFlags_append {} d.flags_mem, done_bind]
  intro e he
  rw [hhead] at he
  rw [← Option.some.inj he]
  exact hc

/-- **A directive** is read as it was written. -/
theorem parseConversion_directive (d : Directive) {arg : Arg} {value : BitVec 64}
    (hfits : d.width.value < 2 ^ 64)
    (hvalue : d.modifier.length.vaArg d.isSigned [arg] = .done (value, [])) :
    parseConversion d.text (d.args arg) = .done (.integer d.spec value, [], []) := by
  obtain ⟨c, rest, hsuffix, hc⟩ := d.suffix_head
  have hdot : ∀ (fm : FmtSpec) vlist,
      parsePrecision fm d.suffix vlist = .done (fm, d.suffix, vlist) := by
    intro fm vlist
    rw [parsePrecision, hsuffix, consume_cons_ne (suffix_char hc).2.2.2.1]
  rw [parseConversion_flags, args, d.parseWidth_text rfl, if_pos hfits, done_bind, hdot, done_bind,
    d.parseSpecifier_suffix,
    parseInteger_specifier d.specifier_mem ⟨rfl, rfl, rfl⟩ [] hvalue]
  rfl

/-- **A width that does not fit** is refused. -/
theorem parseConversion_overflow (d : Directive) (arg : Arg) (hfits : ¬ d.width.value < 2 ^ 64) :
    parseConversion d.text (d.args arg) = .halt (.error erange) := by
  rw [parseConversion_flags, args, d.parseWidth_text rfl, if_neg hfits]
  rfl

theorem text_head (d : Directive) : d.text.head? ≠ some '%' := by
  obtain ⟨c, rest, hhead, _, hpercent⟩ := d.widthText_head
  rw [Directive.text, hhead]
  cases hflags : d.flags with
  | nil => simpa using hpercent
  | cons flag flags =>
    have hflag := d.flags_mem flag (by rw [hflags]; exact List.mem_cons_self ..)
    intro heq
    rw [List.cons_append, List.head?_cons, Option.some.injEq] at heq
    rw [heq] at hflag
    exact absurd hflag (by decide)

theorem nul_not_mem_text (d : Directive) : nul ∉ d.text := by
  have hspecifier := d.specifier_mem
  simp only [Directive.text, suffix, List.mem_append, List.mem_singleton, not_or]
  refine ⟨?_, ?_, ?_, ?_⟩
  · intro hmem
    exact absurd (d.flags_mem nul hmem) (by decide)
  · cases d.width with
    | none => exact List.not_mem_nil
    | literal digits _ hdigits _ =>
      intro hmem
      exact absurd (hdigits nul hmem) (by decide)
    | star => exact show nul ∉ ['*'] by decide
  · cases d.modifier with
    | hh => exact show nul ∉ ['h', 'h'] by decide
    | h => exact show nul ∉ ['h'] by decide
    | none => exact List.not_mem_nil
    | l => exact show nul ∉ ['l'] by decide
    | ll => exact show nul ∉ ['l', 'l'] by decide
    | z => exact show nul ∉ ['z'] by decide
  · intro heq
    rw [← heq] at hspecifier
    exact absurd hspecifier (by decide)

end Directive

end UltraKernel.Format
