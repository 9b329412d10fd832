import UltraKernel.Format.Parse
import Mathlib.Data.Nat.Digits.Lemmas
import Mathlib.Tactic.NormNum

/-!
# The representation of an integer

`repr_buffer` is filled from its end with the digits of the value, a lone zero for the value 0, and
the prefix of the alternate form.  Everything a 64-bit value needs fits.

* `representation_eq`: what `repr_buffer` holds;
* `writeInteger_eq`: `write_integer` writes the sign, the padding and the representation.
-/

namespace UltraKernel.Format

open Outcome

/-! ### Digits -/

/-- The characters of a value's digits. -/
def digitsText (fm : FmtSpec) (value : ℕ) : List Char :=
  ((fm.base.digits value).reverse).map (digitChar fm)

/-- **The digit loop** stores the digits of the value. -/
theorem digitsLoop_eq {fm : FmtSpec} (hbase : 1 < fm.base) {index value : ℕ}
    (hlen : (fm.base.digits value).length ≤ index) (text : List Char) :
    digitsLoop fm index value text =
      .done ⟨index - (fm.base.digits value).length, digitsText fm value ++ text⟩ := by
  induction index generalizing value text with
  | zero =>
    have hnil : fm.base.digits value = [] := List.eq_nil_of_length_eq_zero (by omega)
    obtain rfl := Nat.digits_eq_nil_iff_eq_zero.mp hnil
    simp [digitsLoop, digitsText]
  | succ index ih =>
    rcases Nat.eq_zero_or_pos value with rfl | hpos
    · simp [digitsLoop, digitsText]
    · have hdigits := Nat.digits_def' hbase hpos
      rw [hdigits, List.length_cons] at hlen
      rw [digitsLoop, if_neg (by omega), ih (by omega)]
      simp only [digitsText, hdigits, List.length_cons, List.reverse_cons, List.map_append,
        List.map_singleton, List.append_assoc, List.singleton_append]
      rw [Nat.add_sub_add_right]

theorem digits_length_le {base value : ℕ} (hbase : KnownBase base) (h : value < 2 ^ 64) :
    (base.digits value).length ≤ 22 := by
  have hone : 1 < base := by
    rcases hbase with rfl | rfl | rfl <;> decide
  refine (Nat.digits_length_le_iff hone value).mpr (h.trans_le ?_)
  rcases hbase with rfl | rfl | rfl <;> norm_num

/-! ### The buffer -/

/-- The digits of a value, or a zero. -/
def valueText (fm : FmtSpec) (value : ℕ) : List Char :=
  if value = 0 then ['0'] else digitsText fm value

/-- The prefix of the alternate form. -/
def alternateText (fm : FmtSpec) : List Char :=
  if fm.alternateForm ∧ fm.base = 16 then ['0', if fm.uppercase then 'X' else 'x']
  else if fm.alternateForm ∧ fm.base = 8 then ['0']
  else []

def reprText (fm : FmtSpec) (value : ℕ) : List Char := alternateText fm ++ valueText fm value

/-- The buffer with a text at its end. -/
def ReprBuffer.holding (text : List Char) : ReprBuffer := ⟨reprBufferSize - text.length, text⟩

theorem store_holding {text : List Char} (hlen : text.length < reprBufferSize) (c : Char) :
    (ReprBuffer.holding text).store c = .done (ReprBuffer.holding (c :: text)) := by
  obtain ⟨n, hn⟩ : ∃ n, reprBufferSize - text.length = n + 1 :=
    ⟨reprBufferSize - text.length - 1, by omega⟩
  unfold ReprBuffer.holding
  rw [hn, ReprBuffer.store, List.length_cons, show reprBufferSize - (text.length + 1) = n by omega]

theorem digitsText_length (fm : FmtSpec) (value : ℕ) :
    (digitsText fm value).length = (fm.base.digits value).length := by
  rw [digitsText, List.length_map, List.length_reverse]

theorem valueText_length_le {fm : FmtSpec} {value : ℕ} (hbase : KnownBase fm.base)
    (hvalue : value < 2 ^ 64) : 1 ≤ (valueText fm value).length ∧
      (valueText fm value).length ≤ 22 := by
  unfold valueText
  split_ifs with hzero
  · simp
  · rw [digitsText_length]
    exact ⟨List.length_pos_iff.mpr (Nat.digits_ne_nil_iff_ne_zero.mpr hzero),
      digits_length_le hbase hvalue⟩

theorem writeDigits_eq {fm : FmtSpec} {value : ℕ} (hbase : KnownBase fm.base)
    (hvalue : value < 2 ^ 64) : writeDigits fm value =
      .done (ReprBuffer.holding (valueText fm value), (valueText fm value).length) := by
  have hone : 1 < fm.base := by
    rcases hbase with hbase | hbase | hbase <;> omega
  have hlen := digits_length_le hbase hvalue
  have hsize : reprBufferSize = 32 := rfl
  rw [writeDigits, digitsLoop_eq hone (by omega), done_bind, List.append_nil]
  dsimp only
  rw [show reprBufferSize - (reprBufferSize - (fm.base.digits value).length) =
    (fm.base.digits value).length by omega]
  by_cases hzero : value = 0
  · subst hzero
    have hempty : digitsText fm 0 = [] := by simp [digitsText]
    rw [valueText, if_pos rfl, Nat.digits_zero, if_pos List.length_nil, hempty]
    rfl
  · have hne : (fm.base.digits value).length ≠ 0 :=
      (List.length_pos_iff.mpr (Nat.digits_ne_nil_iff_ne_zero.mpr hzero)).ne'
    rw [if_neg hne, valueText, if_neg hzero, ReprBuffer.holding, digitsText_length, pure_eq]

theorem writeAlternate_eq (fm : FmtSpec) {text : List Char}
    (hlen : text.length + 2 ≤ reprBufferSize) :
    writeAlternate fm (ReprBuffer.holding text) text.length =
      .done (ReprBuffer.holding (alternateText fm ++ text),
        (alternateText fm ++ text).length) := by
  unfold writeAlternate alternateText
  by_cases hhex : fm.alternateForm ∧ fm.base = 16
  · rw [if_pos hhex, if_pos hhex, store_holding (by omega), done_bind,
      store_holding (by rw [List.length_cons]; omega)]
    rfl
  rw [if_neg hhex, if_neg hhex]
  by_cases hoctal : fm.alternateForm ∧ fm.base = 8
  · rw [if_pos hoctal, if_pos hoctal, store_holding (by omega)]
    rfl
  · rw [if_neg hoctal, if_neg hoctal]
    rfl

/-- **The representation fits**: every byte is stored inside the buffer, and `repr_size` is the
number of bytes stored. -/
theorem representation_eq {fm : FmtSpec} {value : ℕ} (hbase : KnownBase fm.base)
    (hvalue : value < 2 ^ 64) : representation fm value =
      .done (ReprBuffer.holding (reprText fm value), (reprText fm value).length) := by
  have hlen := (valueText_length_le hbase hvalue).2
  have hsize : reprBufferSize = 32 := rfl
  rw [representation, writeDigits_eq hbase hvalue, done_bind]
  exact writeAlternate_eq fm (by omega)

/-! ### Writing -/

def negative (fm : FmtSpec) (value : BitVec 64) : Bool := fm.isSigned && value.msb

/-- The value that is represented: of a negative one, its negation. -/
def magnitude (fm : FmtSpec) (value : BitVec 64) : ℕ :=
  (if negative fm value then -value else value).toNat

/-- The sign, or the flag in its place. -/
def signText (fm : FmtSpec) (value : BitVec 64) : List Char :=
  if fm.prepend || negative fm value then [if negative fm value then '-' else fm.prependChar]
  else []

def writeSign (fb : FmtBufState) (fm : FmtSpec) (value : BitVec 64) : FmtBufState :=
  if fm.prepend || negative fm value then
    writeOne fb (if negative fm value then '-' else fm.prependChar)
  else fb

/-- **`write_integer`** writes the sign, and the representation after or before the padding. -/
theorem writeInteger_eq (fb : FmtBufState) {fm : FmtSpec} (value : BitVec 64)
    (hbase : KnownBase fm.base) : writeInteger fb fm value =
      .done (if fm.leftJustify then
          writePadding (writeMany (writeSign fb fm value) (reprText fm (magnitude fm value))
            (reprText fm (magnitude fm value)).length) fm (reprText fm (magnitude fm value)).length
        else
          writeMany (writePadding (writeSign fb fm value) fm
            (reprText fm (magnitude fm value)).length) (reprText fm (magnitude fm value))
            (reprText fm (magnitude fm value)).length) := by
  have hrun := @representation_eq fm (magnitude fm value) hbase (BitVec.isLt _)
  unfold writeInteger
  dsimp only
  change representation fm (magnitude fm value) >>= _ = _
  rw [hrun, done_bind]
  dsimp only
  by_cases hleft : fm.leftJustify
  · rw [if_pos hleft, if_pos hleft]
    rfl
  · rw [if_neg hleft, if_neg hleft]
    rfl

/-- **`write_integer` ends** on every value, whatever the flags. -/
theorem writeInteger_done (fb : FmtBufState) {fm : FmtSpec} (value : BitVec 64)
    (hbase : KnownBase fm.base) : ∃ fb', writeInteger fb fm value = .done fb' :=
  ⟨_, writeInteger_eq fb value hbase⟩

end UltraKernel.Format
