import UltraKernel.Format.Text
import UltraKernel.Common.Numerals
import Mathlib.Tactic.Positivity

/-!
# Reading printed numbers back

The digits that `write_integer` prints are digits of the base for the conversions, with the value
that was printed.  A base prefix is looked for even when the base is given, so a printed number
that starts like one is read in another way.

* `digitsValue_valueText`: the printed digits have the printed value;
* `strToU64WithBase_padded`: how printed digits are read in their base;
* `printed_parses_iff`: the printed numbers that are read back.
-/

namespace UltraKernel.Format

open Word Outcome Positional

/-! ### Printed digits -/

section Digits

variable {fm : FmtSpec} {value : ℕ}

theorem hexChar_digit : ∀ upper, ∀ d < 16,
    IsDigitOf 16 (hexChar upper d) ∧ digitOf (hexChar upper d) = d := by decide

theorem decimalChar_digit : ∀ d < 10,
    isdigit (Char.ofNat (d + 48)) ∧ digitOf (Char.ofNat (d + 48)) = d := by decide

/-- **A printed digit** is a digit of the base, with its value. -/
theorem digitChar_digit (hbase : KnownBase fm.base) {d : ℕ} (hd : d < fm.base) :
    IsDigitOf fm.base (digitChar fm d) ∧ digitOf (digitChar fm d) = d := by
  unfold digitChar
  by_cases hhex : fm.base = 16
  · rw [if_pos hhex, hhex]
    exact hexChar_digit fm.uppercase d (hhex ▸ hd)
  · have hten : fm.base = 8 ∨ fm.base = 10 := by
      rcases hbase with h | h | h
      · exact .inl h
      · exact .inr h
      · exact absurd h hhex
    obtain ⟨hdigit, hvalue⟩ := decimalChar_digit d (by omega)
    rw [if_neg hhex, if_pos hten]
    exact ⟨⟨isxdigit_of_isdigit hdigit, hvalue.trans_lt hd⟩, hvalue⟩

theorem base_pos (hbase : KnownBase fm.base) : 1 < fm.base := by
  rcases hbase with h | h | h <;> omega

theorem valueText_digits (hbase : KnownBase fm.base) :
    ∀ c ∈ valueText fm value, IsDigitOf fm.base c := by
  intro c hc
  unfold valueText at hc
  split_ifs at hc
  · obtain rfl := List.mem_singleton.mp hc
    exact ⟨rfl, (by decide : digitOf '0' = 0).trans_lt (by have := base_pos hbase; omega)⟩
  · obtain ⟨d, hd, rfl⟩ := List.mem_map.mp hc
    exact (digitChar_digit hbase (Nat.digits_lt_base (base_pos hbase) (List.mem_reverse.mp hd))).1

/-- **The printed digits** have the printed value. -/
theorem digitsValue_valueText (hbase : KnownBase fm.base) :
    digitsValue fm.base (valueText fm value) = value := by
  unfold digitsValue valueText
  split_ifs with hzero
  · rw [hzero]
    simp [digitOf, isdigit]
  · have hmap : ((fm.base.digits value).reverse.map (digitChar fm)).map digitOf =
        (fm.base.digits value).reverse := by
      rw [List.map_map]
      refine (List.map_congr_left fun d hd => ?_).trans (List.map_id _)
      exact (digitChar_digit hbase (Nat.digits_lt_base (base_pos hbase) (List.mem_reverse.mp hd))).2
    rw [digitsText, hmap, accumulate_digits]

/-- The first character is the most significant digit, which is not zero. -/
theorem valueText_head (hzero : value ≠ 0) :
    ∃ d, (fm.base.digits value).getLast? = some d ∧ d ≠ 0 ∧
      (valueText fm value).head? = some (digitChar fm d) := by
  have hne : fm.base.digits value ≠ [] := Nat.digits_ne_nil_iff_ne_zero.mpr hzero
  refine ⟨(fm.base.digits value).getLast hne, List.getLast?_eq_some_getLast hne,
    Nat.getLast_digit_ne_zero fm.base hzero, ?_⟩
  rw [valueText, if_neg hzero, digitsText, List.head?_map, List.head?_reverse,
    List.getLast?_eq_some_getLast hne]
  rfl

end Digits

/-! ### Reading digits in a given base -/

section Reading

variable {base : ℕ} {text : List Char}

theorem digitsValue_zero_cons (base : ℕ) (text : List Char) :
    digitsValue base ('0' :: text) = digitsValue base text := by
  have hzero : digitOf '0' = 0 := by decide
  rw [digitsValue, List.map_cons, accumulate_cons, hzero, Nat.zero_mul, digitsValue]

theorem digitsValue_replicate (base k : ℕ) (text : List Char) :
    digitsValue base (List.replicate k '0' ++ text) = digitsValue base text := by
  induction k with
  | zero => rfl
  | succ k ih => rw [List.replicate_succ, List.cons_append, digitsValue_zero_cons, ih]

theorem isDigitOf_ne {c d : Char} (hc : IsDigitOf base c) (hd : ¬ isxdigit d) : c ≠ d := by
  rintro rfl
  exact hd hc.1

/-- **Digits** are read in the given base, unless they start like a binary prefix. -/
theorem doStrToU64_digits (hbase : KnownBase base) (hdigits : ∀ c ∈ text, IsDigitOf base c)
    (hfits : digitsValue base text < 2 ^ 64) (hlead : ¬ ['0', 'b'] <+: text) :
    doStrToU64 text base = .ok (digitsValue base text) := by
  have hpos : 0 < base := by
    rcases hbase with rfl | rfl | rfl <;> decide
  have hread : doStrToU64 text base = doStrToU64Unchecked base (consumeBase text).2 0 := by
    unfold doStrToU64
    dsimp only
    rw [if_neg fun h => hpos.ne' h.1, if_pos hpos.ne']
  have hcases := baseOf_consumeBase text
  rw [hread]
  generalize consumeBase text = read at hcases
  obtain ⟨cb, rest⟩ := read
  cases hcases with
  | hex => exact absurd rfl (isDigitOf_ne (hdigits 'x' (by simp)) (by decide))
  | binary => exact absurd ⟨_, rfl⟩ hlead
  | octal =>
    rw [digitsValue_zero_cons] at hfits ⊢
    exact unchecked_digits hpos (fun c hc => hdigits c (List.mem_cons_of_mem _ hc)) hfits
  | decimal => exact unchecked_digits hpos hdigits hfits
  | none => exact unchecked_digits hpos hdigits hfits

/-- **A binary prefix** is taken off hexadecimal digits, and another value is read. -/
theorem doStrToU64_binary (hdigits : ∀ c ∈ '0' :: 'b' :: text, IsDigitOf 16 c)
    (hfits : digitsValue 16 ('0' :: 'b' :: text) < 2 ^ 64) :
    doStrToU64 ('0' :: 'b' :: text) 16 ≠ .ok (digitsValue 16 ('0' :: 'b' :: text)) := by
  have hrest : ∀ c ∈ text, IsDigitOf 16 c := fun c hc =>
    hdigits c (List.mem_cons_of_mem _ (List.mem_cons_of_mem _ hc))
  have heleven : digitOf 'b' = 11 := by decide
  have hvalue : digitsValue 16 ('0' :: 'b' :: text) = 11 * 16 ^ text.length + digitsValue 16 text := by
    rw [digitsValue_zero_cons, digitsValue, List.map_cons, accumulate_cons, heleven, Nat.zero_mul,
      Nat.zero_add, accumulate_eq, List.length_map, digitsValue]
  have hpos : 0 < 16 ^ text.length := by positivity
  have hread : doStrToU64 ('0' :: 'b' :: text) 16 = .ok (digitsValue 16 text) := by
    unfold doStrToU64
    rw [consumeBase_binary]
    exact unchecked_digits (by decide) hrest (show digitsValue 16 text < 2 ^ 64 by omega)
  rw [hread, hvalue]
  intro heq
  have := Except.ok.inj heq
  omega

theorem afterSign_digits {signed : Bool} (hdigits : ∀ c ∈ text, isxdigit c) :
    afterSign signed text = text := by
  have hsign : ∀ c, ¬ isxdigit c → ¬ strStartsWith text [c] := by
    intro c hc hstart
    exact hc (hdigits c (List.mem_of_head? (strStartsWith_singleton.mp hstart)))
  rw [afterSign, if_neg]
  rintro (hplus | hminus)
  · exact hsign '+' (by decide) hplus
  · exact hsign '-' (by decide) hminus.2

end Reading

/-! ### A conversion with a zero-padded width -/

/-- A number in decimal, without leading zeros. -/
def decimalText (n : ℕ) : List Char := valueText {} n

theorem decimalText_zero : decimalText 0 = ['0'] := rfl

theorem knownBase_ten : KnownBase ({} : FmtSpec).base := .inr (.inl rfl)

theorem decimalText_isdigit {n : ℕ} : ∀ c ∈ decimalText n, isdigit c :=
  fun c hc => isdigit_of_isDigitOf (valueText_digits knownBase_ten c hc)

theorem decimalText_head {n : ℕ} (hn : n ≠ 0) :
    ∃ c rest, decimalText n = c :: rest ∧ c ≠ '0' ∧ isdigit c := by
  obtain ⟨d, hlast, hd, hhead⟩ := @valueText_head {} n hn
  obtain ⟨rest, hrest⟩ := List.head?_eq_some_iff.mp hhead
  have hlt : d < 10 := Nat.digits_lt_base (by decide) (List.mem_of_getLast? hlast)
  refine ⟨_, rest, hrest, ?_, decimalText_isdigit _ (by rw [decimalText, hrest]; simp)⟩
  have hvalue := (digitChar_digit knownBase_ten hlt).2
  intro hzero
  rw [hzero] at hvalue
  exact hd (hvalue.symm.trans (by decide))

theorem strToU64WithBase_decimalText {n : ℕ} (hn : n < 2 ^ 64) :
    strToU64WithBase (decimalText n) 10 = .ok n := by
  have hdigits : ∀ c ∈ decimalText n, IsDigitOf 10 c := valueText_digits knownBase_ten
  have hvalue : digitsValue 10 (decimalText n) = n := digitsValue_valueText knownBase_ten
  rw [strToU64WithBase_eq, afterSign_digits fun c hc => (hdigits c hc).1,
    doStrToU64_digits (.inr (.inl rfl)) hdigits (hvalue.trans_lt hn), hvalue]
  rintro ⟨rest, hrest⟩
  have hb : 'b' ∈ decimalText n := by
    rw [← hrest]
    simp
  exact absurd (hdigits 'b' hb) (by decide)

theorem consumeDigits_append {digits rest : List Char} (hdigits : ∀ c ∈ digits, isdigit c)
    (hrest : ∀ c, rest.head? = some c → ¬ isdigit c) :
    consumeDigits (digits ++ rest) = (digits, rest) := by
  induction digits with
  | nil =>
    cases rest with
    | nil => rfl
    | cons c rest => rw [List.nil_append, consumeDigits, if_neg (hrest c rfl)]
  | cons d digits ih =>
    rw [List.cons_append, consumeDigits, if_pos (hdigits d (List.mem_cons_self ..)),
      ih fun c hc => hdigits c (List.mem_cons_of_mem _ hc)]

theorem parseFlags_stop (fm : FmtSpec) {c : Char} (hc : c ∉ ['+', '-', ' ', '0', '#'])
    (fmt : List Char) : parseFlags fm (c :: fmt) = .done (fm, c :: fmt) := by
  rw [parseFlags, if_neg hc]

theorem parseFlags_zero (fm : FmtSpec) (fmt : List Char) :
    parseFlags fm ('0' :: fmt) = parseFlags { fm with padChar := '0' } fmt := rfl

theorem isdigit_not_flag {c : Char} (hc : isdigit c) (hzero : c ≠ '0') :
    c ∉ ['+', '-', ' ', '0', '#'] := by
  rw [isdigit_iff] at hc
  simp only [List.mem_cons, List.not_mem_nil, or_false, not_or]
  refine ⟨?_, ?_, ?_, hzero, ?_⟩ <;> rintro rfl <;> revert hc <;> decide

/-- The specification of a zero-padded conversion. -/
def paddedSpec (width : ℕ) (specifier : Char) : FmtSpec where
  padChar := '0'
  minWidth := width
  base := baseFromSpecifier specifier
  uppercase := isUppercaseSpecifier specifier

/-- **A zero-padded width** is read as it was written. -/
theorem parseConversion_padded {width : ℕ} (hwidth : width < 2 ^ 64) {specifier : Char}
    (hspecifier : specifier ∈ ['o', 'x', 'X', 'u']) (value : BitVec 64) :
    parseConversion ('0' :: decimalText width ++ ['l', 'l', specifier]) [.longLong value] =
      .done (.integer (paddedSpec width specifier) value, [], []) := by
  have htail : ∀ fm : FmtSpec, (parsePrecision fm ['l', 'l', specifier] [.longLong value] >>=
      fun p => parseSpecifier p.1 p.2.1 p.2.2) = .done (.integer { fm with
          base := baseFromSpecifier specifier, uppercase := isUppercaseSpecifier specifier }
        value, [], []) := by
    intro fm
    simp only [List.mem_cons, List.not_mem_nil, or_false] at hspecifier
    rcases hspecifier with rfl | rfl | rfl | rfl <;> rfl
  rw [parseConversion, List.cons_append, parseFlags_zero]
  rcases eq_or_ne width 0 with rfl | hne
  · rw [decimalText_zero, List.singleton_append, parseFlags_zero, parseFlags_stop _ (by decide),
      done_bind]
    exact htail _
  · obtain ⟨c, rest, hdigits, hzero, hdigit⟩ := decimalText_head hne
    have hflags := parseFlags_stop { padChar := '0' } (isdigit_not_flag hdigit hzero)
    have hconsume : consume (c :: (rest ++ ['l', 'l', specifier])) ['*'] = none := by
      have hstar : '*' ≠ c := by
        rintro rfl
        exact absurd hdigit (by decide)
      simp [consume, strStartsWith, hstar]
    have hnumber : parseNumber (decimalText width ++ ['l', 'l', specifier]) .maybe 0 =
        .done (width, ['l', 'l', specifier]) := by
      unfold parseNumber
      rw [consumeDigits_append decimalText_isdigit (by simp [isdigit])]
      dsimp only
      rw [if_neg (by rw [hdigits]; simp), strToU64WithBase_decimalText hwidth]
    rw [hdigits, List.cons_append] at hnumber ⊢
    rw [hflags, done_bind]
    dsimp only
    rw [parseWidth, hconsume]
    dsimp only
    rw [hnumber, done_bind]
    exact htail _

/-! ### Printing and reading in the same base -/

section Padded

variable {specifier : Char} {width : ℕ} {value : BitVec 64}

theorem integerText_padded (width : ℕ) (specifier : Char) (value : BitVec 64) :
    integerText (paddedSpec width specifier) value =
      List.replicate (width - (valueText (paddedSpec width specifier) value.toNat).length) '0' ++
        valueText (paddedSpec width specifier) value.toNat := rfl

theorem padded_digits (width : ℕ) (specifier : Char) (value : BitVec 64) :
    ∀ c ∈ integerText (paddedSpec width specifier) value,
      IsDigitOf (baseFromSpecifier specifier) c := by
  intro c hc
  have hbase : KnownBase (paddedSpec width specifier).base := knownBase_specifier specifier
  rw [integerText_padded] at hc
  rcases List.mem_append.mp hc with hc | hc
  · obtain rfl := List.eq_of_mem_replicate hc
    exact ⟨rfl, (by decide : digitOf '0' = 0).trans_lt (Nat.lt_of_succ_lt (base_pos hbase))⟩
  · exact valueText_digits hbase c hc

theorem padded_value (width : ℕ) (specifier : Char) (value : BitVec 64) :
    digitsValue (baseFromSpecifier specifier) (integerText (paddedSpec width specifier) value) =
      value.toNat := by
  rw [integerText_padded, digitsValue_replicate]
  exact digitsValue_valueText
    (show KnownBase (paddedSpec width specifier).base from knownBase_specifier specifier)

/-- The digits of the value in the base of a conversion. -/
def digitsOf (specifier : Char) (value : BitVec 64) : List ℕ :=
  (baseFromSpecifier specifier).digits value.toNat

/-- A printed number looks like one with a binary prefix: lower-case hexadecimal digits that begin
with `b`, after a single zero. -/
def LooksBinary (specifier : Char) (width : ℕ) (value : BitVec 64) : Prop :=
  specifier = 'x' ∧ (digitsOf specifier value).getLast? = some 11 ∧
    width = (digitsOf specifier value).length + 1

theorem digitChar_eq_b : ∀ specifier ∈ ['o', 'x', 'X', 'u'], ∀ d < baseFromSpecifier specifier,
    (digitChar (paddedSpec 0 specifier) d = 'b' ↔ specifier = 'x' ∧ d = 11) := by
  intro specifier hspecifier
  simp only [List.mem_cons, List.not_mem_nil, or_false] at hspecifier
  rcases hspecifier with rfl | rfl | rfl | rfl
  · decide
  · decide
  · decide
  · decide

/-- **When a printed number starts like a binary prefix.** -/
theorem binary_prefix_iff (hspecifier : specifier ∈ ['o', 'x', 'X', 'u']) :
    ['0', 'b'] <+: integerText (paddedSpec width specifier) value ↔
      LooksBinary specifier width value := by
  have hbase : KnownBase (paddedSpec width specifier).base := knownBase_specifier specifier
  rw [integerText_padded]
  by_cases hzero : value.toNat = 0
  · -- nothing but zeros
    refine iff_of_false ?_ ?_
    · rintro ⟨rest, hrest⟩
      have hb : 'b' ∈ List.replicate (width -
          (valueText (paddedSpec width specifier) value.toNat).length) '0' ++
            valueText (paddedSpec width specifier) value.toNat := by
        rw [← hrest]
        simp
      rw [hzero, valueText, if_pos rfl] at hb
      simp at hb
    · rintro ⟨_, hlast, _⟩
      rw [digitsOf, hzero, Nat.digits_zero] at hlast
      cases hlast
  obtain ⟨d, hlast, hd, hhead⟩ := @valueText_head (paddedSpec width specifier) _ hzero
  have hlt : d < baseFromSpecifier specifier :=
    Nat.digits_lt_base (base_pos hbase) (List.mem_of_getLast? hlast)
  have hb := digitChar_eq_b specifier hspecifier d hlt
  have hlength : (valueText (paddedSpec width specifier) value.toNat).length =
      (digitsOf specifier value).length := by
    rw [valueText, if_neg hzero, digitsText_length]
    rfl
  have hlooks : LooksBinary specifier width value ↔
      digitChar (paddedSpec 0 specifier) d = 'b' ∧ width = (digitsOf specifier value).length + 1 := by
    have heq : (digitsOf specifier value).getLast? = some d := hlast
    rw [LooksBinary, heq, Option.some.injEq, hb, and_assoc]
  rw [hlooks, hlength]
  obtain ⟨rest, hrest⟩ := List.head?_eq_some_iff.mp hhead
  rw [hrest]
  obtain hk | hk | ⟨k, hk⟩ : width - (digitsOf specifier value).length = 0 ∨
      width - (digitsOf specifier value).length = 1 ∨
      ∃ k, width - (digitsOf specifier value).length = k + 2 := by
    rcases width - (digitsOf specifier value).length with _ | _ | k
    · exact .inl rfl
    · exact .inr (.inl rfl)
    · exact .inr (.inr ⟨k, rfl⟩)
  · refine iff_of_false ?_ fun h => by omega
    rw [hk, List.replicate_zero, List.nil_append, List.cons_prefix_cons]
    rintro ⟨hc, _⟩
    have hvalue := (digitChar_digit hbase hlt).2
    rw [← hc] at hvalue
    exact hd (hvalue.symm.trans (by decide))
  · rw [hk, List.replicate_one, List.singleton_append, List.cons_prefix_cons, List.cons_prefix_cons]
    constructor
    · rintro ⟨_, hc, _⟩
      exact ⟨hc.symm, by omega⟩
    · rintro ⟨hc, _⟩
      exact ⟨rfl, hc.symm, List.nil_prefix⟩
  · refine iff_of_false ?_ fun h => by omega
    rw [hk, List.replicate_succ, List.replicate_succ, List.cons_append, List.cons_append,
      List.cons_prefix_cons, List.cons_prefix_cons]
    rintro ⟨_, hc, _⟩
    exact absurd hc (by decide)

theorem strToU64WithBase_padded (hspecifier : specifier ∈ ['o', 'x', 'X', 'u']) :
    strToU64WithBase (integerText (paddedSpec width specifier) value)
        (baseFromSpecifier specifier) = .ok value.toNat ↔ ¬ LooksBinary specifier width value := by
  have hbase := knownBase_specifier specifier
  have hdigits := padded_digits width specifier value
  have hvalue := padded_value width specifier value
  have hfits : digitsValue (baseFromSpecifier specifier)
      (integerText (paddedSpec width specifier) value) < 2 ^ 64 := hvalue.trans_lt value.isLt
  rw [strToU64WithBase_eq, afterSign_digits fun c hc => (hdigits c hc).1,
    ← binary_prefix_iff hspecifier]
  by_cases hlead : ['0', 'b'] <+: integerText (paddedSpec width specifier) value
  · have hhex : baseFromSpecifier specifier = 16 := by
      rw [((binary_prefix_iff hspecifier).mp hlead).1]
      rfl
    obtain ⟨rest, hrest⟩ := hlead
    refine iff_of_false ?_ (not_not.mpr ⟨rest, hrest⟩)
    rw [← hrest, hhex] at hdigits hvalue hfits
    rw [← hrest, hhex, ← hvalue]
    exact doStrToU64_binary hdigits hfits
  · refine iff_of_true ?_ hlead
    rw [doStrToU64_digits hbase hdigits hfits hlead, hvalue]

theorem padded_length (width : ℕ) (specifier : Char) (value : BitVec 64) :
    (integerText (paddedSpec width specifier) value).length =
      max width (valueText (paddedSpec width specifier) value.toNat).length := by
  rw [integerText_padded, List.length_append, List.length_replicate]
  omega

/-- **Printing and reading in the same base**: the text that a zero-padded conversion leaves in a
large enough buffer is read back as the value exactly when it does not look binary. -/
theorem printed_parses_iff {buffer : ℕ → Char} {capacity fuel : ℕ}
    (hspecifier : specifier ∈ ['o', 'x', 'X', 'u'])
    (hroom : max width (valueText (paddedSpec width specifier) value.toNat).length < capacity)
    (hcapacity : capacity < 2 ^ 64) :
    ∃ ret out, vsnprintf (fuel + 2) buffer capacity
        ('%' :: ('0' :: decimalText width ++ ['l', 'l', specifier])) [.longLong value] =
          .done (ret, out) ∧
      (strToU64WithBase (bufferString out.buffer capacity) (baseFromSpecifier specifier) =
        .ok value.toNat ↔ ¬ LooksBinary specifier width value) := by
  have hlength := padded_length width specifier value
  have hnul : ∀ c, isxdigit c → c ≠ nul := by
    rintro c hc rfl
    exact absurd hc (by decide)
  have htext : nul ∉ integerText (paddedSpec width specifier) value := fun hmem =>
    hnul nul (padded_digits width specifier value nul hmem).1 rfl
  have hfmt : nul ∉ '0' :: decimalText width ++ ['l', 'l', specifier] := by
    intro hmem
    simp only [List.cons_append, List.mem_cons, List.mem_append, List.not_mem_nil, or_false] at hmem
    rcases hmem with hmem | hmem | hmem | hmem | hmem
    · exact absurd hmem (by decide)
    · exact hnul nul (isxdigit_of_isdigit (decimalText_isdigit nul hmem)) rfl
    · exact absurd hmem (by decide)
    · exact absurd hmem (by decide)
    · rw [← hmem] at hspecifier
      exact absurd hspecifier (by decide)
  have hrun := vsnprintf_integer buffer capacity hfmt (by simp)
    (parseConversion_padded (by omega) hspecifier value) (knownBase_specifier specifier)
    (by omega) fuel
  refine ⟨_, _, hrun, ?_⟩
  rw [bufferString_terminate htext (by omega) hcapacity.le]
  exact strToU64WithBase_padded hspecifier

/-- `%02llx` of 11, whose text `0b` is read as an empty binary number. -/
theorem printed_eleven_misread :
    ∃ out, vsnprintf 2 (fun _ => nul) 8 ['%', '0', '2', 'l', 'l', 'x'] [.longLong 11] =
        .done (2, out) ∧ bufferString out.buffer 8 = ['0', 'b'] ∧
      strToU64WithBase (bufferString out.buffer 8) 16 ≠ .ok 11 := by
  have hrun : (vsnprintf 2 (fun _ => nul) 8 ['%', '0', '2', 'l', 'l', 'x']
      [.longLong 11]).value?.map (fun p => (p.1, bufferString p.2.buffer 8)) =
        some (2, ['0', 'b']) := by
    decide +kernel
  obtain ⟨⟨ret, out⟩, hvalue, heq⟩ := Option.map_eq_some_iff.mp hrun
  obtain ⟨rfl, htext⟩ := Prod.mk.inj heq
  refine ⟨out, value?_eq_some.mp hvalue, htext, ?_⟩
  rw [htext]
  decide

/-- `%04llu` of 42. -/
theorem printed_parses_iff_fortyTwo :
    ∃ ret out, vsnprintf 2 (fun _ => nul) 8 ['%', '0', '4', 'l', 'l', 'u'] [.longLong 42] =
        .done (ret, out) ∧
      (strToU64WithBase (bufferString out.buffer 8) (baseFromSpecifier 'u') =
        .ok (42 : BitVec 64).toNat ↔ ¬ LooksBinary 'u' 4 42) := by
  have hwidth : decimalText 4 = ['4'] := by decide +kernel
  have hroom : max 4 (valueText (paddedSpec 4 'u') (42 : BitVec 64).toNat).length < 8 := by
    decide +kernel
  have hall := @printed_parses_iff 'u' 4 42 (fun _ => nul) 8 0 (by decide) hroom (by decide)
  rw [hwidth] at hall
  exact hall

end Padded

end UltraKernel.Format
