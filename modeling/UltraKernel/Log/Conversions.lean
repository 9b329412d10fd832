import UltraKernel.Format.ReadBack
import UltraKernel.Log.Print

/-!
# The conversions of the kernel's messages

A few conversions make up nearly all of the messages: strings, decimal numbers, and addresses with all of
their digits.

* `textConversion_output`, `decimalConversion_output`, `addressConversion_output`: what they come to.
-/

namespace UltraKernel.Log

open Format

/-! ### Conversions -/

/-- `z` takes 64 bits, whatever is made of them. -/
theorem size_read (value : BitVec 64) (isSigned : Bool) (vlist : List Arg) :
    Modifier.z.length.vaArg isSigned (.longLong value :: vlist) = .done (value, vlist) := by
  cases isSigned <;> rfl

theorem unsigned_mem : 'u' ∈ ['d', 'i', 'o', 'x', 'X', 'u'] := by decide

theorem decimal_mem : 'd' ∈ ['d', 'i', 'o', 'x', 'X', 'u'] := by decide

theorem upperHex_mem : 'X' ∈ ['d', 'i', 'o', 'x', 'X', 'u'] := by decide

/-- `%zu` -/
def sizeConversion (value : BitVec 64) : Starred where
  flags := []
  width := .none
  precision := .none
  operand := .integer .z 'u' (.longLong value) value unsigned_mem (size_read value _)
  flags_mem := noFlags_mem

theorem short_of_some {text t : List Char} (h : text.length < 2 ^ 63) (ht : some text = some t) :
    t.length < 2 ^ 63 := Option.some.inj ht ▸ h

/-- `%s` -/
def textConversion (text : List Char) (h : text.length < 2 ^ 63) : Starred where
  flags := []
  width := .none
  precision := .none
  operand := .string (some text) fun _ ht => short_of_some h ht
  flags_mem := noFlags_mem

theorem zeroFlag_mem : ∀ flag ∈ ['0'], flag ∈ ['+', '-', ' ', '0', '#'] :=
  List.forall_mem_singleton.mpr (by decide)

/-- `%016zX` -/
def addressConversion (value : BitVec 64) : Starred where
  flags := ['0']
  width := .literal ['1', '6'] (by decide)
    (List.forall_mem_cons.mpr ⟨by decide, List.forall_mem_singleton.mpr (by decide)⟩) (by decide)
  precision := .none
  operand := .integer .z 'X' (.longLong value) value upperHex_mem (size_read value _)
  flags_mem := zeroFlag_mem

theorem int_read (value : BitVec 32) (vlist : List Arg) :
    Modifier.none.length.vaArg false (.int value :: vlist) = .done (value.setWidth 64, vlist) := rfl

theorem signed_read (value : BitVec 32) (vlist : List Arg) :
    Modifier.none.length.vaArg true (.int value :: vlist) = .done (value.signExtend 64, vlist) := rfl

/-- `%d` -/
def decimalConversion (value : BitVec 32) : Starred where
  flags := []
  width := .none
  precision := .none
  operand := .integer .none 'd' (.int value) (value.signExtend 64) decimal_mem (signed_read value)
  flags_mem := noFlags_mem

/-- `%02X` -/
def opcodeConversion (value : BitVec 32) : Starred where
  flags := ['0']
  width := .literal ['2'] (by decide) (List.forall_mem_singleton.mpr (by decide)) (by decide)
  precision := .none
  operand := .integer .none 'X' (.int value) (value.setWidth 64) upperHex_mem (int_read value)
  flags_mem := zeroFlag_mem

theorem sizeConversion_width (value : BitVec 64) : (sizeConversion value).width.value < 2 ^ 64 :=
  show 0 < 2 ^ 64 by decide

theorem textConversion_width {text : List Char} (h : text.length < 2 ^ 63) :
    (textConversion text h).width.value < 2 ^ 64 :=
  show 0 < 2 ^ 64 by decide

theorem addressConversion_width (value : BitVec 64) :
    (addressConversion value).width.value < 2 ^ 64 :=
  show digitsValue 10 ['1', '6'] < 2 ^ 64 by decide

theorem decimalConversion_width (value : BitVec 32) : (decimalConversion value).width.value < 2 ^ 64 :=
  show 0 < 2 ^ 64 by decide

theorem opcodeConversion_width (value : BitVec 32) : (opcodeConversion value).width.value < 2 ^ 64 :=
  show digitsValue 10 ['2'] < 2 ^ 64 by decide

theorem newline_plain : Plain ("\n").toList := by decide

/-! ### What they come to -/

/-- The upper case digits of an address, all 16 of them. -/
def addressText (address : ℕ) : List Char :=
  let digits := valueText { base := 16, uppercase := true } address
  List.replicate (16 - digits.length) '0' ++ digits

theorem sizeConversion_output (value : BitVec 64) :
    (sizeConversion value).conversion.output = decimalText value.toNat := by
  show integerText { (sizeConversion value).spec with
    isSigned := false, base := 10, uppercase := false } value = decimalText value.toNat
  rw [integerText_unsigned rfl rfl rfl rfl, show (sizeConversion value).spec.minWidth = 0 from rfl]
  rw [Nat.zero_sub, List.replicate_zero, List.nil_append]
  exact valueText_congr rfl rfl value.toNat

theorem textConversion_output {text : List Char} (h : text.length < 2 ^ 63) :
    (textConversion text h).conversion.output = text.takeWhile (· ≠ nul) := by
  show shown (textConversion text h).spec 0 text ++ List.replicate (0 - _) ' ' = _
  rw [Nat.zero_sub, List.replicate_zero, List.append_nil]
  rfl

theorem addressConversion_output (value : BitVec 64) :
    (addressConversion value).conversion.output = addressText value.toNat := by
  show integerText { (addressConversion value).spec with
    isSigned := false, base := 16, uppercase := true } value = addressText value.toNat
  rw [integerText_unsigned rfl rfl rfl rfl, addressText, valueText_congr rfl rfl]
  rfl

/-- A number that is not negative. -/
theorem decimalConversion_output {value : BitVec 32} (hvalue : value.toNat < 2 ^ 31) :
    (decimalConversion value).conversion.output = decimalText value.toNat := by
  have hmsb : value.msb = false := by
    rw [BitVec.msb_eq_decide]
    exact decide_eq_false (Nat.not_le.mpr hvalue)
  have hextend : value.signExtend 64 = value.setWidth 64 := BitVec.signExtend_eq_setWidth_of_msb_false hmsb
  have hnonneg : (value.setWidth 64).msb = false := by
    rw [BitVec.msb_setWidth]
    simp
  show integerText { (decimalConversion value).spec with
    isSigned := true, base := 10, uppercase := false } (value.signExtend 64) = decimalText value.toNat
  rw [hextend, integerText_nonneg (by rw [negative, hnonneg, Bool.and_false]) rfl rfl rfl,
    show (decimalConversion value).spec.minWidth = 0 from rfl, Nat.zero_sub, List.replicate_zero,
    List.nil_append, BitVec.toNat_setWidth_of_le (show 32 ≤ 64 by decide)]
  exact valueText_congr rfl rfl value.toNat

/-- The upper case digits of an opcode, two at least. -/
def opcodeText (opcode : ℕ) : List Char :=
  let digits := valueText { base := 16, uppercase := true } opcode
  List.replicate (2 - digits.length) '0' ++ digits

theorem opcodeConversion_output (value : BitVec 32) :
    (opcodeConversion value).conversion.output = opcodeText value.toNat := by
  show integerText { (opcodeConversion value).spec with
    isSigned := false, base := 16, uppercase := true } (value.setWidth 64) = opcodeText value.toNat
  rw [integerText_unsigned rfl rfl rfl rfl, opcodeText, valueText_congr rfl rfl,
    BitVec.toNat_setWidth_of_le (show 32 ≤ 64 by decide)]
  rfl

theorem decimalText_length_le {n : ℕ} (hn : n < 2 ^ 64) : (decimalText n).length ≤ 22 :=
  (valueText_length_le (.inr (.inl rfl)) hn).2

theorem addressText_length_le {address : ℕ} (h : address < 2 ^ 64) :
    (addressText address).length ≤ 22 := by
  have hdigits := @valueText_length_le { base := 16, uppercase := true } address (.inr (.inr rfl)) h
  rw [addressText, List.length_append, List.length_replicate]
  omega

theorem opcodeText_length_le {opcode : ℕ} (h : opcode < 2 ^ 64) : (opcodeText opcode).length ≤ 22 := by
  have hdigits := @valueText_length_le { base := 16, uppercase := true } opcode (.inr (.inr rfl)) h
  rw [opcodeText, List.length_append, List.length_replicate]
  omega

end UltraKernel.Log
