import UltraKernel.Format.Stars
import UltraKernel.Format.Truncation

/-!
# Formats of several pieces

A format is a list of pieces: characters that are copied, `%%`, and conversions.  Each has its text in
the format, the arguments it takes and the characters it comes to.

* `writeConversion_emit`: a conversion appends what it comes to;
* `formatLoop_literal`: characters in front of a format may be written ahead of its loop;
* `vsnprintf_pieces`: a format writes what its pieces come to, one behind the other.
-/

namespace UltraKernel.Format

open Outcome

/-! ### Conversions -/

/-- The characters that a conversion comes to, its padding included. -/
def Conversion.output : Conversion → List Char
  | .char c => [c]
  | .string fm text =>
    shown fm 0 text ++ List.replicate (fm.minWidth - (shown fm 0 text).length) ' '
  | .structString fm str => if fm.hasPrecision then str.take fm.precision else str
  | .integer fm value => integerText fm value

/-- The base is known, and a string is as long as its precision, since `%pS` is padded forever. -/
def Conversion.Regular : Conversion → Prop
  | .char _ => True
  | .string _ _ => True
  | .structString fm str => fm.precision ≤ str.length
  | .integer fm _ => KnownBase fm.base

section Conversions

variable {fb : FmtBufState} {fm : FmtSpec} {text : List Char}

theorem shown_nil (fm : FmtSpec) (i : ℕ) : shown fm i [] = [] := by
  rw [shown, List.take_nil]
  split_ifs <;> rfl

theorem shown_cons {c : Char} {i : ℕ} (hgo : (¬ fm.hasPrecision ∨ i < fm.precision) ∧ c ≠ nul) :
    shown fm i (c :: text) = c :: shown fm (i + 1) text := by
  rw [shown, shown]
  by_cases hprecision : fm.hasPrecision = true
  · have hi : i < fm.precision := hgo.1.resolve_left (not_not.mpr hprecision)
    rw [if_pos hprecision, if_pos hprecision,
      show fm.precision - i = fm.precision - (i + 1) + 1 by omega, List.take_succ_cons,
      List.takeWhile_cons_of_pos (by simpa using hgo.2)]
  · rw [if_neg hprecision, if_neg hprecision, List.takeWhile_cons_of_pos (by simpa using hgo.2)]

theorem shown_stop {c : Char} {i : ℕ} (hstop : ¬ ((¬ fm.hasPrecision ∨ i < fm.precision) ∧ c ≠ nul)) :
    shown fm i (c :: text) = [] := by
  rw [shown]
  by_cases hc : c = nul
  · have hhead : ∀ rest, (c :: rest).takeWhile (· ≠ nul) = [] := fun rest =>
      List.takeWhile_cons_of_neg (by simpa using hc)
    split_ifs
    · cases fm.precision - i with
      | zero => rfl
      | succ n => exact hhead _
    · exact hhead _
  · obtain ⟨hprecision, hi⟩ : fm.hasPrecision = true ∧ ¬ i < fm.precision := by
      simpa [hc] using hstop
    rw [if_pos hprecision, Nat.sub_eq_zero_of_le (Nat.not_lt.mp hi)]
    rfl

/-- The first characters of a text are appended. -/
theorem writeMany_take {n : ℕ} (hn : n ≤ text.length) : writeMany fb text n = emit fb (text.take n) := by
  have hlength : (text.take n).length = n := by rw [List.length_take, Nat.min_eq_left hn]
  rw [emit, hlength]
  unfold writeMany
  congr 1
  funext i
  dsimp only
  split_ifs with hi
  · simp only [List.getD_eq_getElem?_getD]
    rw [List.getElem?_take_of_lt (by omega)]
  · rfl

/-- **The first loop of `%s`** appends what is shown. -/
theorem stringLoop_emit (i : ℕ) (h : fb.bytesWritten + (shown fm i text).length < 2 ^ 64) :
    stringLoop fm text i fb = (emit fb (shown fm i text), i + (shown fm i text).length) := by
  induction text generalizing i fb with
  | nil =>
    rw [shown_nil] at h ⊢
    rw [stringLoop, emit_nil (by simpa using h)]
    rfl
  | cons c text ih =>
    rw [stringLoop]
    split_ifs with hgo
    · rw [shown_cons hgo, List.length_cons] at h ⊢
      have hone : (emit fb [c]).bytesWritten = fb.bytesWritten + 1 :=
        emit_bytesWritten (by rw [List.length_singleton]; omega)
      rw [writeOne_emit, ih (i + 1) (by rw [hone]; omega), emit_emit (by simp; omega)]
      congr 1
      omega
    · rw [shown_stop hgo] at h ⊢
      rw [emit_nil (by simpa using h)]
      rfl

/-- **The second loop of `%s`** appends blanks up to the width. -/
theorem stringPadding_emit {fuel i minWidth : ℕ} (hfuel : minWidth - i < fuel)
    (h : fb.bytesWritten + (minWidth - i) < 2 ^ 64) :
    stringPadding fuel fb i minWidth = .done (emit fb (List.replicate (minWidth - i) ' ')) := by
  induction fuel generalizing fb i with
  | zero => exact absurd hfuel (Nat.not_lt_zero _)
  | succ fuel ih =>
    rw [stringPadding]
    split_ifs with hlt
    · have hone : (emit fb [' ']).bytesWritten = fb.bytesWritten + 1 :=
        emit_bytesWritten (by rw [List.length_singleton]; omega)
      rw [writeOne_emit, ih (by omega) (by rw [hone]; omega),
        emit_emit (by rw [List.length_append, List.length_singleton, List.length_replicate]; omega),
        show minWidth - i = minWidth - (i + 1) + 1 by omega, List.replicate_succ]
      rfl
    · rw [Nat.sub_eq_zero_of_le (Nat.not_lt.mp hlt)] at h ⊢
      rw [List.replicate_zero, emit_nil h]

/-- **A conversion appends** what it comes to. -/
theorem writeConversion_emit {conversion : Conversion} {fuel : ℕ} (hregular : conversion.Regular)
    (hfuel : conversion.output.length < fuel)
    (h : fb.bytesWritten + conversion.output.length < 2 ^ 64) :
    writeConversion fuel fb conversion = .done (emit fb conversion.output) := by
  cases conversion with
  | char c =>
    show Outcome.done (writeOne fb c) = .done (emit fb [c])
    rw [writeOne_emit]
  | string fm text =>
    rw [Conversion.output, List.length_append, List.length_replicate] at h hfuel
    have hshown : (emit fb (shown fm 0 text)).bytesWritten =
        fb.bytesWritten + (shown fm 0 text).length := emit_bytesWritten (by omega)
    rw [writeConversion, stringLoop_emit 0 (by omega)]
    show stringPadding fuel (emit fb (shown fm 0 text)) (0 + (shown fm 0 text).length) fm.minWidth = _
    rw [Nat.zero_add, stringPadding_emit (by omega) (by rw [hshown]; omega),
      emit_emit (by rw [List.length_append, List.length_replicate]; omega), Conversion.output]
  | structString fm str =>
    let size := if fm.hasPrecision then min fm.precision str.length else str.length
    have houtput : (Conversion.structString fm str).output = str.take size := by
      show (if fm.hasPrecision then str.take fm.precision else str) = str.take size
      by_cases hprecision : fm.hasPrecision = true
      · rw [if_pos hprecision, show size = _ from if_pos hprecision, ← List.take_take, List.take_length]
      · rw [if_neg hprecision, show size = _ from if_neg hprecision, List.take_length]
    have hle : size ≤ str.length := by
      show (if fm.hasPrecision then min fm.precision str.length else str.length) ≤ _
      split_ifs
      · exact Nat.min_le_right _ _
      · exact le_refl _
    have hstop : ¬ size < fm.precision := by
      have hregular : fm.precision ≤ str.length := hregular
      show ¬ (if fm.hasPrecision then min fm.precision str.length else str.length) < _
      split_ifs <;> omega
    obtain ⟨fuel, rfl⟩ : ∃ n, fuel = n + 1 := ⟨fuel - 1, by omega⟩
    show structStringPadding (fuel + 1) (writeMany fb str size) size fm.precision = _
    rw [structStringPadding, if_neg hstop, houtput, writeMany_take hle]
  | integer fm value =>
    have hbase : KnownBase fm.base := hregular
    exact writeInteger_emit hbase h

/-- The text of an integer that is not negative, padded on the left. -/
theorem integerText_nonneg {value : BitVec 64} (hnegative : negative fm value = false)
    (hprepend : fm.prepend = false) (hleft : fm.leftJustify = false)
    (halternate : fm.alternateForm = false) :
    integerText fm value =
      List.replicate (fm.minWidth - (valueText fm value.toNat).length) fm.padChar ++
        valueText fm value.toNat := by
  have hsign : signText fm value = [] := by
    rw [signText, hprepend, hnegative]
    rfl
  have hmagnitude : magnitude fm value = value.toNat := by
    rw [magnitude, hnegative]
    rfl
  have hrepr : reprText fm value.toNat = valueText fm value.toNat := by
    rw [reprText, alternateText, halternate]
    rfl
  rw [integerText, hsign, hmagnitude, hrepr, hleft, paddingText, paddingChar, hleft]
  rfl

theorem integerText_unsigned {value : BitVec 64} (hsigned : fm.isSigned = false)
    (hprepend : fm.prepend = false) (hleft : fm.leftJustify = false)
    (halternate : fm.alternateForm = false) :
    integerText fm value =
      List.replicate (fm.minWidth - (valueText fm value.toNat).length) fm.padChar ++
        valueText fm value.toNat :=
  integerText_nonneg (by rw [negative, hsigned, Bool.false_and]) hprepend hleft halternate

theorem valueText_congr {fm' : FmtSpec} (hbase : fm.base = fm'.base)
    (huppercase : fm.uppercase = fm'.uppercase) (value : ℕ) : valueText fm value = valueText fm' value := by
  have hchar : digitChar fm = digitChar fm' := by
    funext remainder
    rw [digitChar, digitChar, hbase, huppercase]
  rw [valueText, valueText, digitsText, digitsText, hbase, hchar]

end Conversions

/-! ### Literals -/

section Literals

variable {fb : FmtBufState} {text rest : List Char} {vlist : List Arg}

theorem nextOffset_append (htext : '%' ∉ text) (rest : List Char) :
    nextOffset (text ++ rest) = text.length + nextOffset rest := by
  have hnone : text.findIdx? (fun c => decide (c = '%')) = none := by
    rw [List.findIdx?_eq_none_iff]
    intro c hc
    exact decide_eq_false (fun heq => htext (heq ▸ hc))
  rw [nextOffset, nextOffset, strFindOne, strFindOne, List.findIdx?_append, hnone]
  cases rest.findIdx? (fun c => decide (c = '%')) with
  | none => rw [List.length_append]; rfl
  | some i => exact Nat.add_comm i text.length

theorem nextOffset_le (fmt : List Char) : nextOffset fmt ≤ fmt.length := by
  rw [nextOffset, strFindOne]
  cases hfind : fmt.findIdx? (fun c => decide (c = '%')) with
  | none => exact le_refl _
  | some i =>
    obtain ⟨hi, _⟩ := List.findIdx?_eq_some_iff_getElem.mp hfind
    exact hi.le

/-- The literal that a format starts with, as a text. -/
theorem writeLiteral_emit (h : fb.bytesWritten < 2 ^ 64) (fmt : List Char) :
    writeLiteral fb fmt = emit fb (fmt.take (nextOffset fmt)) := by
  rw [writeLiteral]
  split_ifs with hzero
  · exact writeMany_take (nextOffset_le fmt)
  · rw [not_not.mp hzero, List.take_zero, emit_nil h]

/-- **Characters in front of a format** may be written ahead of its loop. -/
theorem formatLoop_literal (htext : '%' ∉ text) (fuel : ℕ)
    (h : fb.bytesWritten + (text.length + nextOffset rest) < 2 ^ 64) :
    formatLoop fuel fb (text ++ rest) vlist = formatLoop fuel (emit fb text) rest vlist := by
  cases fuel with
  | zero => rfl
  | succ fuel =>
    have hliteral : writeLiteral fb (text ++ rest) = writeLiteral (emit fb text) rest := by
      have hwritten : (emit fb text).bytesWritten = fb.bytesWritten + text.length :=
        emit_bytesWritten (by omega)
      rw [writeLiteral_emit (by omega), writeLiteral_emit (by rw [hwritten]; omega), emit_emit
        (by rw [List.length_append, List.length_take]; omega), nextOffset_append htext,
        List.take_length_add_append]
    have hdrop : (text ++ rest).drop (nextOffset (text ++ rest)) = rest.drop (nextOffset rest) := by
      rw [nextOffset_append htext, List.drop_length_add_append]
    by_cases hrest : rest = []
    · subst hrest
      have hright : formatLoop (fuel + 1) (emit fb text) [] vlist = .done (none, emit fb text) := by
        rw [formatLoop, if_pos rfl]
      rw [hright]
      by_cases htextNil : text = []
      · subst htextNil
        rw [emit_nil (by omega)]
        rfl
      · have hne : text ++ [] ≠ [] := by rwa [List.append_nil]
        rw [formatLoop, if_neg hne]
        dsimp only
        rw [hdrop, List.drop_nil, if_pos rfl, hliteral]
        rfl
    · have hne : text ++ rest ≠ [] := fun heq => hrest (List.append_eq_nil_iff.mp heq).2
      rw [formatLoop, formatLoop, if_neg hne, if_neg hrest, hliteral, hdrop]

/-- **A conversion in front of a format** takes a round. -/
theorem formatLoop_directive {fmt : List Char} {vlist' : List Arg} {conversion : Conversion}
    (hpercent : fmt.head? ≠ some '%')
    (hparse : parseConversion fmt vlist = .done (conversion, rest, vlist'))
    (hregular : conversion.Regular) {fuel : ℕ} (hfuel : conversion.output.length < fuel)
    (h : fb.bytesWritten + conversion.output.length < 2 ^ 64) :
    formatLoop (fuel + 1) fb ('%' :: fmt) vlist =
      formatLoop fuel (emit fb conversion.output) rest vlist' := by
  have hoffset := nextOffset_percent fmt
  rw [formatLoop_conversion (by rw [hoffset]; exact List.cons_ne_nil _ _)
    (by rw [hoffset]; exact consume_percent hpercent) (by rw [hoffset]; exact hparse),
    writeLiteral_percent, writeConversion_emit hregular hfuel h, done_bind]

end Literals

/-! ### Pieces -/

/-- Text that a format has outside of its conversions. -/
def Plain (text : List Char) : Prop := ∀ c ∈ text, c ≠ '%' ∧ c ≠ nul

instance (text : List Char) : Decidable (Plain text) := List.decidableBAll _ text

/-- A piece of a format, with the arguments that it is given. -/
inductive Piece where
  | literal (text : List Char) (plain : Plain text)
  | percent
  | char (c : BitVec 32)
  | structString (str : Option (List Char))
  | pointer (value : BitVec 64)
  | starred (d : Starred) (width_lt : d.width.value < 2 ^ 64)

namespace Piece

def text : Piece → List Char
  | literal text _ => text
  | percent => ['%', '%']
  | char _ => ['%', 'c']
  | structString _ => ['%', 'p', 'S']
  | pointer _ => ['%', 'p']
  | starred d _ => '%' :: d.text

def args : Piece → List Arg
  | literal .. => []
  | percent => []
  | char c => [.int c]
  | structString str => [.structString str]
  | pointer value => [.pointer value]
  | starred d _ => d.args

/-- The characters that a piece comes to. -/
def output : Piece → List Char
  | literal text _ => text
  | percent => ['%']
  | char c => [Char.ofNat (c.setWidth 8).toNat]
  | structString str => str.getD ['<', 'n', 'u', 'l', 'l', '-', 's', 't', 'r', 'i', 'n', 'g', '>']
  | pointer value => integerText { base := 16, minWidth := archWidth * 2, padChar := '0' } value
  | starred d _ => d.conversion.output

/-- An `S` behind `%p` would be read as part of it. -/
def Precedes (rest : List Char) : Piece → Prop
  | pointer _ => rest.head? ≠ some 'S'
  | _ => True

end Piece

/-- The format that the pieces make up. -/
def formatText (pieces : List Piece) : List Char := pieces.flatMap Piece.text

def formatArgs (pieces : List Piece) : List Arg := pieces.flatMap Piece.args

def formatOutput (pieces : List Piece) : List Char := pieces.flatMap Piece.output

/-- Each piece is read as it was meant. -/
def Separate : List Piece → Prop
  | [] => True
  | piece :: pieces => piece.Precedes (formatText pieces) ∧ Separate pieces

section Pieces

variable {fb : FmtBufState} {rest : List Char} {vlist : List Arg}

theorem plain_of_mem {c : Char}
    (hc : c ∈ ['+', '-', ' ', '0', '#', '.', '*', 's', 'h', 'l', 'z', 'd', 'i', 'o', 'x', 'X', 'u']) :
    c ≠ '%' ∧ c ≠ nul := by
  constructor
  · rintro rfl
    exact absurd hc (by decide)
  · rintro rfl
    exact absurd hc (by decide)

theorem plain_of_isdigit {c : Char} (hc : isdigit c = true) : c ≠ '%' ∧ c ≠ nul := by
  constructor
  · rintro rfl
    exact absurd hc (by decide)
  · rintro rfl
    exact absurd hc (by decide)

theorem Operand.suffix_subset (operand : Operand) :
    ∀ c ∈ operand.suffix, c ∈ ['s', 'h', 'l', 'z', 'd', 'i', 'o', 'x', 'X', 'u'] := by
  intro c hc
  cases operand with
  | integer modifier specifier _ _ hspecifier _ =>
    rcases List.mem_append.mp hc with hmodifier | hc
    · have hmem : c ∈ ['h', 'l', 'z'] := by
        cases modifier <;> simp_all [Modifier.text]
      exact List.mem_cons_of_mem _ (List.mem_append_left ['d', 'i', 'o', 'x', 'X', 'u'] hmem)
    · rw [List.mem_singleton.mp hc]
      exact List.mem_append_right ['s', 'h', 'l', 'z'] hspecifier
  | string =>
    rw [List.mem_singleton.mp hc]
    exact List.mem_cons_self

theorem Starred.plain_text (d : Starred) : ∀ c ∈ d.text, c ≠ '%' ∧ c ≠ nul := by
  intro c hc
  simp only [text, tail, List.mem_append] at hc
  rcases hc with hflag | hwidth | hprecision | hsuffix
  · exact plain_of_mem (List.mem_append_left _ (d.flags_mem c hflag))
  · cases hd : d.width with
    | none => rw [hd] at hwidth; cases hwidth
    | literal digits _ hdigits _ =>
      rw [hd] at hwidth
      exact plain_of_isdigit (hdigits c hwidth)
    | star =>
      rw [hd] at hwidth
      rw [List.mem_singleton.mp hwidth]
      decide
  · cases hd : d.precision with
    | none => rw [hd] at hprecision; cases hprecision
    | literal digits _ _ hdigits _ =>
      rw [hd] at hprecision
      rcases List.mem_cons.mp hprecision with rfl | hprecision
      · decide
      · exact plain_of_isdigit (hdigits c hprecision)
    | star =>
      rw [hd] at hprecision
      exact plain_of_mem (List.mem_append_right ['+', '-', ' ', '0', '#']
        (List.mem_append_left _ hprecision))
  · exact plain_of_mem (List.mem_append_right ['+', '-', ' ', '0', '#', '.', '*']
      (d.operand.suffix_subset c hsuffix))

theorem Starred.text_ne_nil (d : Starred) : d.text ≠ [] := by
  obtain ⟨c, rest, hsuffix, -⟩ := d.operand.suffix_head []
  rw [List.append_nil] at hsuffix
  rw [text, tail, hsuffix]
  simp

theorem Piece.nul_not_mem_text (piece : Piece) : nul ∉ piece.text := by
  cases piece with
  | literal text plain => exact fun hmem => (plain nul hmem).2 rfl
  | percent => exact show nul ∉ ['%', '%'] by decide
  | char => exact show nul ∉ ['%', 'c'] by decide
  | structString => exact show nul ∉ ['%', 'p', 'S'] by decide
  | pointer => exact show nul ∉ ['%', 'p'] by decide
  | starred d =>
    intro hmem
    rcases List.mem_cons.mp hmem with hpercent | hmem
    · exact absurd hpercent (by decide)
    · exact (d.plain_text nul hmem).2 rfl

/-- **A piece in front of a format** may be written ahead of its loop. -/
theorem formatLoop_piece (piece : Piece) (hprecedes : piece.Precedes rest) {fuel : ℕ}
    (hfuel : piece.output.length < fuel)
    (h : fb.bytesWritten + (piece.output.length + nextOffset rest) < 2 ^ 64) :
    ∃ left, fuel ≤ left ∧ formatLoop (fuel + 1) fb (piece.text ++ rest) (piece.args ++ vlist) =
      formatLoop left (emit fb piece.output) rest vlist := by
  have hroom : fb.bytesWritten + piece.output.length < 2 ^ 64 := by omega
  cases piece with
  | literal text plain =>
    exact ⟨fuel + 1, Nat.le_succ fuel, formatLoop_literal (fun hmem => (plain '%' hmem).1 rfl) _ h⟩
  | percent =>
    have hoffset := nextOffset_percent ('%' :: rest)
    refine ⟨fuel, le_refl fuel, ?_⟩
    show formatLoop (fuel + 1) fb ('%' :: '%' :: rest) vlist = _
    rw [formatLoop_percent (by rw [hoffset]; exact List.cons_ne_nil _ _)
      (by rw [hoffset]; rfl), writeLiteral_percent, writeOne_emit]
    rfl
  | char c =>
    have hrun : formatLoop (fuel + 1) fb ('%' :: 'c' :: rest) (.int c :: vlist) =
        formatLoop fuel (emit fb [Char.ofNat (c.setWidth 8).toNat]) rest vlist :=
      @formatLoop_directive _ _ _ _ _ (.char _) (by simp) rfl trivial _ hfuel hroom
    exact ⟨fuel, le_refl fuel, hrun⟩
  | structString str =>
    have hrun : formatLoop (fuel + 1) fb ('%' :: 'p' :: 'S' :: rest) (.structString str :: vlist) =
        formatLoop fuel (emit fb (Piece.structString str).output) rest vlist :=
      @formatLoop_directive _ _ _ _ _ (.structString {} _) (by simp) rfl (Nat.zero_le _) _ hfuel hroom
    exact ⟨fuel, le_refl fuel, hrun⟩
  | pointer value =>
    have hparse : parseConversion ('p' :: rest) (.pointer value :: vlist) =
        .done (.integer { base := 16, minWidth := archWidth * 2, padChar := '0' } value, rest,
          vlist) := by
      have hconsume : consume rest ['S'] = none :=
        Directive.consume_of_head fun c hc heq => hprecedes (by rw [hc, heq])
      show parseSpecifier {} ('p' :: rest) (.pointer value :: vlist) = _
      have hconsumeS : consume ('p' :: rest) ['p'] = some rest := rfl
      simp only [parseSpecifier, hconsumeS, hconsume]
      rfl
    have hrun : formatLoop (fuel + 1) fb ('%' :: 'p' :: rest) (.pointer value :: vlist) =
        formatLoop fuel (emit fb (Piece.pointer value).output) rest vlist :=
      formatLoop_directive (by simp) hparse (.inr (.inr rfl)) hfuel hroom
    exact ⟨fuel, le_refl fuel, hrun⟩
  | starred d hwidth =>
    have hhead : (d.text ++ rest).head? ≠ some '%' := by
      obtain ⟨c, text', htext⟩ := List.exists_cons_of_ne_nil d.text_ne_nil
      rw [htext, List.cons_append, List.head?_cons]
      intro heq
      exact (d.plain_text c (by rw [htext]; exact List.mem_cons_self)).1 (Option.some.inj heq)
    have hregular : d.conversion.Regular := by
      rcases d.conversion_cases with ⟨fm, value, heq, hbase, -⟩ | ⟨fm, str, heq, -, -⟩
      · rw [heq]
        exact hbase
      · rw [heq]
        exact trivial
    have hparse := parseConversion_text d rest vlist
    rw [if_pos hwidth] at hparse
    exact ⟨fuel, le_refl fuel, formatLoop_directive hhead hparse hregular hfuel hroom⟩

/-- The next `%` is at most as far away as the characters that are written before it. -/
theorem nextOffset_formatText (pieces : List Piece) :
    nextOffset (formatText pieces) ≤ (formatOutput pieces).length := by
  induction pieces with
  | nil => exact le_refl 0
  | cons piece pieces ih =>
    rw [formatText, formatOutput, List.flatMap_cons, List.flatMap_cons, List.length_append]
    cases piece with
    | literal text plain =>
      show nextOffset (text ++ formatText pieces) ≤ text.length + (formatOutput pieces).length
      rw [nextOffset_append fun hmem => (plain '%' hmem).1 rfl]
      exact Nat.add_le_add_left ih _
    | percent => exact (nextOffset_percent _).le.trans (Nat.zero_le _)
    | char => exact (nextOffset_percent _).le.trans (Nat.zero_le _)
    | structString => exact (nextOffset_percent _).le.trans (Nat.zero_le _)
    | pointer => exact (nextOffset_percent _).le.trans (Nat.zero_le _)
    | starred => exact (nextOffset_percent _).le.trans (Nat.zero_le _)

/-- **A format writes** what its pieces come to, one behind the other. -/
theorem formatLoop_pieces {pieces : List Piece} (hseparate : Separate pieces) {fuel : ℕ}
    (hfuel : pieces.length + (formatOutput pieces).length < fuel)
    (h : fb.bytesWritten + (formatOutput pieces).length < 2 ^ 64) :
    formatLoop fuel fb (formatText pieces) (formatArgs pieces) =
      .done (none, emit fb (formatOutput pieces)) := by
  induction pieces generalizing fuel fb with
  | nil =>
    obtain ⟨fuel, rfl⟩ : ∃ n, fuel = n + 1 := ⟨fuel - 1, by omega⟩
    show formatLoop (fuel + 1) fb [] [] = .done (none, emit fb [])
    rw [formatLoop, if_pos rfl, emit_nil (Nat.lt_of_le_of_lt (Nat.le_add_right _ _) h)]
  | cons piece pieces ih =>
    have houtput : formatOutput (piece :: pieces) = piece.output ++ formatOutput pieces :=
      List.flatMap_cons
    rw [houtput, List.length_append] at h hfuel
    rw [List.length_cons] at hfuel
    obtain ⟨fuel, rfl⟩ : ∃ n, fuel = n + 1 := ⟨fuel - 1, by omega⟩
    have hoffset := nextOffset_formatText pieces
    obtain ⟨left, hleft, hrun⟩ := @formatLoop_piece fb (formatText pieces) (formatArgs pieces) piece
      hseparate.1 fuel (by omega) (by omega)
    have hwritten : (emit fb piece.output).bytesWritten = fb.bytesWritten + piece.output.length :=
      emit_bytesWritten (by omega)
    calc formatLoop (fuel + 1) fb (formatText (piece :: pieces)) (formatArgs (piece :: pieces))
        = formatLoop left (emit fb piece.output) (formatText pieces) (formatArgs pieces) := hrun
      _ = .done (none, emit (emit fb piece.output) (formatOutput pieces)) :=
          ih hseparate.2 (by omega) (by rw [hwritten]; omega)
      _ = .done (none, emit fb (formatOutput (piece :: pieces))) := by
          rw [emit_emit (by rw [List.length_append]; omega), houtput]

/-- The buffer that a text leaves. -/
theorem holds_terminate_emit {buffer : ℕ → Char} {capacity : ℕ} {text : List Char}
    (h : text.length < 2 ^ 64) :
    Holds text buffer capacity (terminate (emit ⟨buffer, capacity, 0⟩ text)).buffer where
  outside i hi := by
    have houtside : (emit ⟨buffer, capacity, 0⟩ text).buffer i = buffer i := by
      simp only [emit, writeMany]
      rw [if_neg (by omega)]
    rw [terminate, emit_capacity]
    split_ifs with hcapacity
    · dsimp only at hcapacity ⊢
      rw [if_neg (by omega)]
      exact houtside
    · exact houtside
  shown hcapacity i hi := by
    have hlt : i < text.length := by omega
    rw [terminate_emit_getD (by omega) hlt h, List.getD_eq_getElem _ _ hlt,
      List.getElem?_eq_getElem hlt]
  terminated hcapacity := by
    rw [terminate, emit_capacity, if_pos (Nat.pos_iff_ne_zero.mp hcapacity),
      emit_start_bytesWritten buffer capacity h]
    exact if_pos rfl

/-- **A format writes** what its pieces come to, from the start of a buffer. -/
theorem vsnprintf_emits {pieces : List Piece} (hseparate : Separate pieces)
    (hlength : (formatOutput pieces).length < 2 ^ 31) {fuel : ℕ}
    (hfuel : pieces.length + (formatOutput pieces).length < fuel) (buffer : ℕ → Char) (capacity : ℕ) :
    vsnprintf fuel buffer capacity (formatText pieces) (formatArgs pieces) =
      .done (((formatOutput pieces).length : ℤ),
        terminate (emit ⟨buffer, capacity, 0⟩ (formatOutput pieces))) := by
  have hnul : strRuntime (formatText pieces) = formatText pieces := by
    rw [strRuntime, List.takeWhile_eq_self_iff]
    intro c hc
    obtain ⟨piece, -, hc⟩ := List.mem_flatMap.mp hc
    rw [decide_eq_true_eq]
    rintro rfl
    exact piece.nul_not_mem_text hc
  unfold vsnprintf
  rw [hnul, formatLoop_pieces hseparate hfuel (by simp only; omega), done_bind]
  simp only [pure_eq]
  rw [emit_start_bytesWritten buffer capacity (by omega), sizeToInt_of_lt hlength]

/-- No flags are flags. -/
theorem noFlags_mem : ∀ flag ∈ ([] : List Char), flag ∈ ['+', '-', ' ', '0', '#'] :=
  fun _ hflag => absurd hflag List.not_mem_nil

end Pieces

end UltraKernel.Format
