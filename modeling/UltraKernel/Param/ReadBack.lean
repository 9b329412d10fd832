import UltraKernel.Param.Operations
import UltraKernel.Format.ReadBack
import UltraKernel.Common.Classification

/-!
# A parameter's text sets its value

`param_get_*` prints without a base prefix or leading zeros, except for the zero itself, so that
the conversions detect the base 10, or read a lone `0` as an octal numeral without digits.

* `integerText_signedText`, `numeral_signedText`: the text is the decimal numeral of the value;
* `readsBack_integer`: what a get with one integer conversion leaves;
* `param_get_sets`: a get with room is undone by a set.
-/

namespace UltraKernel.Param

open Word Format Outcome Positional

/-! ### What is printed -/

/-- The decimal numeral of an integer. -/
def signedText (v : ℤ) : List Char := (if v < 0 then ['-'] else []) ++ decimalText v.natAbs

/-- The specification of a conversion without flags. -/
def plainSpec (isSigned : Bool) : FmtSpec := { isSigned := isSigned }

section Fits

variable {t : IntType} {v : ℤ}

theorem fits_signed (h : t.Fits v) (hsign : t.isSigned = true) : -2 ^ 63 ≤ v ∧ v < 2 ^ 63 := by
  obtain ⟨hle, hge⟩ := h
  cases t <;>
    simp only [IntType.least, IntType.greatest, IntType.isSigned, IntType.bits, if_true,
      Bool.false_eq_true, if_false] at hle hge hsign <;> omega

theorem fits_unsigned (h : t.Fits v) (hsign : t.isSigned = false) : 0 ≤ v ∧ v < 2 ^ 64 := by
  obtain ⟨hle, hge⟩ := h
  cases t <;>
    simp only [IntType.least, IntType.greatest, IntType.isSigned, IntType.bits, if_true,
      Bool.false_eq_true, if_false, Bool.true_eq_false] at hle hge hsign <;> omega

theorem toInt_ofInt {bits : ℕ} (hbits : bits = 32 ∨ bits = 64) (hle : -2 ^ (bits - 1) ≤ v)
    (hlt : v < 2 ^ (bits - 1)) : (BitVec.ofInt bits v).toInt = v := by
  rw [BitVec.toInt_ofInt]
  rcases hbits with rfl | rfl
  · exact Int.bmod_eq_of_le (by norm_num at hle ⊢; omega) (by norm_num at hlt ⊢; omega)
  · exact Int.bmod_eq_of_le (by norm_num at hle ⊢; omega) (by norm_num at hlt ⊢; omega)

/-- **A signed promotion** keeps the value. -/
theorem signExtend_ofInt (hle : -2 ^ 31 ≤ v) (hlt : v < 2 ^ 31) :
    (BitVec.ofInt 32 v).signExtend 64 = BitVec.ofInt 64 v := by
  rw [← BitVec.toInt_inj, BitVec.toInt_signExtend_of_le (by decide), toInt_ofInt (.inl rfl) hle hlt,
    toInt_ofInt (.inr rfl) (by omega) (by omega)]

/-- **An unsigned promotion** keeps the value. -/
theorem setWidth_ofInt (hle : 0 ≤ v) (hlt : v < 2 ^ 32) :
    (BitVec.ofInt 32 v).setWidth 64 = BitVec.ofInt 64 v := by
  rw [← BitVec.toNat_inj, BitVec.toNat_setWidth, BitVec.toNat_ofInt, BitVec.toNat_ofInt]
  omega

theorem negative_plainSpec (h : t.Fits v) :
    negative (plainSpec t.isSigned) (BitVec.ofInt 64 v) = decide (v < 0) := by
  rw [negative, plainSpec]
  dsimp only
  cases hsign : t.isSigned with
  | true =>
    obtain ⟨hle, hlt⟩ := fits_signed h hsign
    rw [Bool.true_and, BitVec.msb_eq_toInt, toInt_ofInt (.inr rfl) hle hlt]
  | false =>
    have hle := (fits_unsigned h hsign).1
    rw [Bool.false_and]
    exact (decide_eq_false (not_lt.mpr hle)).symm

theorem magnitude_plainSpec (h : t.Fits v) :
    magnitude (plainSpec t.isSigned) (BitVec.ofInt 64 v) = v.natAbs := by
  have hrange : -2 ^ 63 ≤ v ∧ v < 2 ^ 64 := by
    cases hsign : t.isSigned with
    | true =>
      have := fits_signed h hsign
      omega
    | false =>
      have := fits_unsigned h hsign
      omega
  rw [magnitude, negative_plainSpec h]
  by_cases hneg : v < 0
  · rw [if_pos (decide_eq_true hneg), ← BitVec.ofInt_neg, BitVec.toNat_ofInt]
    omega
  · rw [if_neg (by simpa using hneg), BitVec.toNat_ofInt]
    omega

/-- **The text of a value** is its decimal numeral. -/
theorem integerText_signedText (h : t.Fits v) :
    integerText (plainSpec t.isSigned) (BitVec.ofInt 64 v) = signedText v := by
  have hrepr : ∀ n, reprText (plainSpec t.isSigned) n = decimalText n := fun _ => rfl
  have hpadding : ∀ n, paddingText (plainSpec t.isSigned) n = [] := by
    intro n
    rw [paddingText, plainSpec, Nat.zero_sub, List.replicate_zero]
  have hsign : signText (plainSpec t.isSigned) (BitVec.ofInt 64 v) = if v < 0 then ['-'] else [] := by
    rw [signText, negative_plainSpec h]
    by_cases hneg : v < 0
    · simp [hneg, plainSpec]
    · simp [hneg, plainSpec]
  rw [integerText, hpadding, hrepr, magnitude_plainSpec h, hsign]
  rfl

/-- **The decimal numeral** denotes the value. -/
theorem numeralBody_decimalText (n : ℕ) : NumeralBody (decimalText n) n := by
  rcases eq_or_ne n 0 with rfl | hne
  · exact .octal (by simp)
  · obtain ⟨c, rest, htext, hc, _⟩ := decimalText_head hne
    have hvalue : digitsValue 10 (decimalText n) = n := digitsValue_valueText knownBase_ten
    have hdigits : ∀ c ∈ decimalText n, IsDigitOf 10 c := valueText_digits knownBase_ten
    rw [htext] at hvalue hdigits ⊢
    have hbody := NumeralBody.decimal hc hdigits
    rwa [hvalue] at hbody

theorem numeral_signedText (h : t.Fits v) : Numeral t.isSigned (signedText v) v := by
  have hbody := numeralBody_decimalText v.natAbs
  unfold signedText
  by_cases hneg : v < 0
  · have hsigned : t.isSigned = true := by
      cases hsign : t.isSigned with
      | true => rfl
      | false => exact absurd hneg (not_lt.mpr (fits_unsigned h hsign).1)
    rw [if_pos hneg]
    have hnumeral := Numeral.minus hsigned hbody
    rwa [show -(v.natAbs : ℤ) = v by omega] at hnumeral
  · rw [if_neg hneg, List.nil_append]
    have hnumeral : Numeral t.isSigned _ _ := .plain hbody
    rwa [show (v.natAbs : ℤ) = v by omega] at hnumeral

end Fits

/-! ### Getting and setting -/

section Get

variable {fmt : List Char} {arg : Arg} {isSigned : Bool} {value : BitVec 64}

/-- A get leaves the text of the value in the string, NUL-terminated, and returns its length; a set of
the text stores the value. -/
def ReadsBack {α : Type} (outStr : OutString) (get : Outcome FormatBug (ℕ × OutString))
    (set : List Char → α → ErrorT × α) (text : List Char) (v : α) : Prop :=
  (∃ out, get = .done (text.length, out) ∧ out.size = text.length ∧ out.text = text ∧
    bufferString out.mutableText outStr.size = text) ∧ ∀ stored, set text stored = (eok, v)

/-- **A get with one integer conversion** leaves the text of the conversion. -/
theorem readsBack_integer {α : Type} {set : List Char → α → ErrorT × α} {v : α} {fm : FmtSpec}
    (hnul : nul ∉ fmt) (hpercent : fmt.head? ≠ some '%')
    (hparse : parseConversion fmt [arg] = .done (.integer fm value, [], []))
    (hbase : KnownBase fm.base) (hlength : (integerText fm value).length < 2 ^ 31)
    (htext : nul ∉ integerText fm value)
    (hset : ∀ stored, set (integerText fm value) stored = (eok, v)) (fuel : ℕ)
    (outStr : OutString) (hroom : (integerText fm value).length < outStr.size) :
    ReadsBack outStr (paramGetWithFmt ('%' :: fmt) (fuel + 2) outStr arg) set (integerText fm value) v := by
  have hcount := sizeToInt_word hlength
  have hrun := vsnprintf_integer outStr.mutableText outStr.size hnul
    hpercent hparse hbase (by omega) fuel
  refine ⟨?_, hset⟩
  unfold paramGetWithFmt
  rw [hrun, done_bind]
  simp only [hcount]
  refine ⟨_, rfl, ?_⟩
  simp only [OutString.text]
  obtain ⟨hshown, _⟩ := @terminate_emit_buffer outStr.mutableText _ _ hroom outStr.size_lt.le
  have hread := @bufferString_terminate outStr.mutableText _ _ htext hroom outStr.size_lt.le
  have hsize : min (integerText fm value).length outStr.size = (integerText fm value).length :=
    Nat.min_eq_left hroom.le
  have hleft : (List.range (min (integerText fm value).length outStr.size)).map
      (terminate (emit ⟨outStr.mutableText, outStr.size, 0⟩ (integerText fm value))).buffer =
        integerText fm value := by
    rw [hsize]
    refine List.ext_getElem (by simp) fun i hi hi' => ?_
    rw [List.getElem_map, List.getElem_range, hshown i hi']
  rw [hread, hleft]
  exact ⟨hsize, rfl, rfl⟩

end Get

/-- The format and the argument that a get of an integer type prints with. -/
theorem paramGet_prints {t : IntType} {v : ℤ} (h : t.Fits v) :
    ∃ fmt arg, nul ∉ fmt ∧ fmt.head? ≠ some '%' ∧
      parseConversion fmt [arg] =
        .done (.integer (plainSpec t.isSigned) (BitVec.ofInt 64 v), [], []) ∧
      ∀ fuel outStr, paramGet fuel outStr v t = paramGetWithFmt ('%' :: fmt) fuel outStr arg := by
  have hd : -2 ^ 31 ≤ v → v < 2 ^ 31 → parseConversion ['d'] [promoted v] =
      .done (.integer (plainSpec true) (BitVec.ofInt 64 v), [], []) := by
    intro hle hlt
    rw [← signExtend_ofInt hle hlt]
    rfl
  have hu : 0 ≤ v → v < 2 ^ 32 → parseConversion ['u'] [promoted v] =
      .done (.integer (plainSpec false) (BitVec.ofInt 64 v), [], []) := by
    intro hle hlt
    rw [← setWidth_ofInt hle hlt]
    rfl
  obtain ⟨hle, hge⟩ := h
  cases t <;> simp only [IntType.least, IntType.greatest, IntType.isSigned, IntType.bits, if_true,
    Bool.false_eq_true, if_false] at hle hge ⊢
  · exact ⟨['d'], _, by decide, by decide, hd (by omega) (by omega), fun _ _ => rfl⟩
  · exact ⟨['u'], _, by decide, by decide, hu (by omega) (by omega), fun _ _ => rfl⟩
  · exact ⟨['d'], _, by decide, by decide, hd (by omega) (by omega), fun _ _ => rfl⟩
  · exact ⟨['u'], _, by decide, by decide, hu (by omega) (by omega), fun _ _ => rfl⟩
  · exact ⟨['d'], _, by decide, by decide, hd (by omega) (by omega), fun _ _ => rfl⟩
  · exact ⟨['u'], _, by decide, by decide, hu (by omega) (by omega), fun _ _ => rfl⟩
  · exact ⟨['l', 'l', 'd'], _, by decide, by decide, rfl, fun _ _ => rfl⟩
  · exact ⟨['l', 'l', 'u'], _, by decide, by decide, rfl, fun _ _ => rfl⟩

theorem paramSet_eq (str : List Char) (stored : ℤ) (t : IntType) :
    paramSet str stored t = store stored (t.strTo str) := by
  cases t <;> rfl

theorem signedText_length {t : IntType} {v : ℤ} (h : t.Fits v) :
    (signedText v).length < 2 ^ 31 := by
  have hlt : v.natAbs < 2 ^ 64 := by
    cases hsign : t.isSigned with
    | true =>
      have := fits_signed h hsign
      omega
    | false =>
      have := fits_unsigned h hsign
      omega
  have hdigits : (decimalText v.natAbs).length ≤ 22 := (valueText_length_le knownBase_ten hlt).2
  have hsign : (if v < 0 then ['-'] else []).length ≤ 1 := by
    split_ifs <;> simp
  rw [signedText, List.length_append]
  omega

theorem nul_not_mem_signedText (v : ℤ) : nul ∉ signedText v := by
  intro hmem
  rcases List.mem_append.mp hmem with hmem | hmem
  · split_ifs at hmem
    · exact absurd hmem (by decide)
    · exact absurd hmem (by decide)
  · exact absurd (decimalText_isdigit nul hmem) (by decide)

/-- **Every integer type**: a set of the text of a value stores the value. -/
theorem integer_readsBack {t : IntType} {v : ℤ} (h : t.Fits v) (fuel : ℕ) (outStr : OutString)
    (hroom : (signedText v).length < outStr.size) :
    ReadsBack outStr (paramGet (fuel + 2) outStr v t) (fun str stored => paramSet str stored t)
      (signedText v) v := by
  obtain ⟨fmt, arg, hnul, hpercent, hparse, hget⟩ := paramGet_prints h
  rw [← integerText_signedText h] at hroom ⊢
  have htext := integerText_signedText h
  rw [hget]
  refine readsBack_integer hnul hpercent hparse (.inr (.inl rfl)) ?_ ?_ ?_ fuel outStr hroom
  · rw [htext]
    exact signedText_length h
  · rw [htext]
    exact nul_not_mem_signedText v
  · intro stored
    rw [htext, paramSet_eq, strTo_numeral (numeral_signedText h), if_pos h]
    rfl

/-- The numeral of a boolean. -/
def boolText (v : Bool) : List Char := signedText v.toNat

theorem bool_readsBack (v : Bool) (fuel : ℕ) (outStr : OutString)
    (hroom : (boolText v).length < outStr.size) :
    ReadsBack outStr (paramGetBool (fuel + 2) outStr v) paramSetBool (boolText v) v := by
  have hfits : IntType.i32.Fits (v.toNat : ℤ) := by
    cases v <;> decide
  obtain ⟨fmt, arg, hnul, hpercent, hparse, hget⟩ := paramGet_prints hfits
  have htext := integerText_signedText hfits
  have hzero : signedText 0 = ['0'] := by decide +kernel
  have hone : signedText 1 = ['1'] := by decide +kernel
  rw [boolText, ← htext] at hroom ⊢
  change ReadsBack outStr (paramGet (fuel + 2) outStr (v.toNat : ℤ) .i32) paramSetBool _ v
  rw [hget]
  refine readsBack_integer hnul hpercent hparse (.inr (.inl rfl)) ?_ ?_ ?_ fuel outStr hroom
  · rw [htext]
    exact signedText_length hfits
  · rw [htext]
    exact nul_not_mem_signedText _
  · intro stored
    rw [htext]
    cases v with
    | false =>
      change paramSetBool (signedText 0) stored = _
      rw [hzero]
      rfl
    | true =>
      change paramSetBool (signedText 1) stored = _
      rw [hone]
      rfl

theorem string_readsBack {src : List Char} (hnul : nul ∉ src) (dst : OutString)
    (hroom : src.length < dst.size) :
    ReadsBack dst (.done (paramGetString dst src)) paramSetString src src := by
  have hsize : min src.length dst.size = src.length := Nat.min_eq_left hroom.le
  have hshown : ∀ i (hi : i < src.length),
      (paramGetString dst src).2.mutableText i = src[i] := by
    intro i hi
    simp only [paramGetString, hsize]
    rw [if_pos hi, List.getD_eq_getElem _ _ hi]
  have hend : (paramGetString dst src).2.mutableText src.length = nul := by
    simp only [paramGetString, hsize]
    rw [if_neg (lt_irrefl _), if_pos ⟨hroom, trivial⟩]
  have htext : (paramGetString dst src).2.text = src := by
    refine List.ext_getElem (by simp [OutString.text, paramGetString, hsize]) fun i hi hi' => ?_
    simp only [OutString.text, List.getElem_map, List.getElem_range]
    exact hshown i hi'
  exact ⟨⟨(paramGetString dst src).2, rfl, hsize, htext, bufferString_of_shown hnul hroom hshown hend⟩,
    fun _ => rfl⟩

/-- **A get with room is undone by a set**, for every integer type and for booleans: what the string
holds is the numeral of the value, what is returned is its length, and a set of it stores the value. -/
theorem param_get_sets (fuel : ℕ) (outStr : OutString) :
    (∀ t v, IntType.Fits t v → (signedText v).length < outStr.size →
      ReadsBack outStr (paramGet (fuel + 2) outStr v t) (fun str stored => paramSet str stored t)
        (signedText v) v) ∧
    ∀ v, (boolText v).length < outStr.size →
      ReadsBack outStr (paramGetBool (fuel + 2) outStr v) paramSetBool (boolText v) v :=
  ⟨fun _ _ h hroom => integer_readsBack h fuel outStr hroom,
    fun v hroom => bool_readsBack v fuel outStr hroom⟩

/-- The least `i8`, in a string of 8 bytes. -/
theorem param_get_sets_leastI8 :
    (signedText (-128)).length = 4 ∧
      ReadsBack ⟨fun _ => nul, 8, by decide⟩ (paramGet 2 ⟨fun _ => nul, 8, by decide⟩ (-128) .i8)
        (fun str stored => paramSet str stored .i8) (signedText (-128)) (-128) := by
  have hlength : (signedText (-128)).length = 4 := by decide +kernel
  exact ⟨hlength, (param_get_sets 0 ⟨fun _ => nul, 8, by decide⟩).1 .i8 (-128) (by decide)
    (by rw [hlength]; decide)⟩

end UltraKernel.Param
