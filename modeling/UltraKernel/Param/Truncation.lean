import UltraKernel.Param.ReadBack

/-!
# What a truncated get leaves

The get operations share one contract: the number of characters of the value's text is returned,
and the output string is left with the part of the text that it has room for.  The string getter
copies that part.  The others print with `snprintf`, which keeps the last byte for a NUL that the
contract counts as text.

* `getsPart_integer_iff`: a get with one integer conversion, into a string of any size;
* `param_get_truncates_iff`: which gets of which type keep to the contract.
-/

namespace UltraKernel.Param

open Word Format Outcome

/-- A get that returned `bytes` and left `out`: the count is that of the whole text, and the string
holds the part of the text that it has room for. -/
structure GetsPart (outStr : OutString) (full : List Char) (bytes : ℕ) (out : OutString) :
    Prop where
  count : bytes = full.length
  size : out.size = min full.length outStr.size
  text : out.text = full.take out.size

section GetsPart

variable {outStr : OutString} {full : List Char}

/-- A text, character by character. -/
theorem text_eq_take_iff {out : OutString} (hsize : out.size ≤ full.length) :
    out.text = full.take out.size ↔
      ∀ i < out.size, out.mutableText i = full.getD i nul := by
  constructor
  · intro htext i hi
    have hget : out.text[i]? = (full.take out.size)[i]? := by rw [htext]
    rw [OutString.text, List.getElem?_map, List.getElem?_range hi, List.getElem?_take_of_lt hi,
      List.getElem?_eq_getElem (hi.trans_le hsize)] at hget
    rw [List.getD_eq_getElem _ _ (hi.trans_le hsize)]
    exact Option.some.inj hget
  · intro hshown
    refine List.ext_getElem (by simp [OutString.text, hsize]) ?_
    intro i hi _
    rw [OutString.text, List.length_map, List.length_range] at hi
    simp only [OutString.text, List.getElem_map, List.getElem_range, List.getElem_take]
    rw [hshown i hi, List.getD_eq_getElem _ _ (hi.trans_le hsize)]

/-- The last byte of a buffer is a NUL when the text needs all of it. -/
theorem terminate_emit_last {buffer : ℕ → Char} {capacity : ℕ} (hpos : 0 < capacity)
    (hfull : capacity ≤ full.length) (hlength : full.length < 2 ^ 64) :
    (terminate (emit ⟨buffer, capacity, 0⟩ full)).buffer (capacity - 1) = nul := by
  have hwritten := emit_start_bytesWritten buffer capacity hlength
  unfold terminate
  rw [emit_capacity, if_pos (by simp only; omega), hwritten]
  exact if_pos (by simp only; omega)

/-- **A get with one integer conversion** leaves the part of its text exactly when the string is
empty, or has a byte more than the text. -/
theorem getsPart_integer_iff {fmt : List Char} {arg : Arg} {fm : FmtSpec} {value : BitVec 64}
    (hnul : nul ∉ fmt) (hpercent : fmt.head? ≠ some '%')
    (hparse : parseConversion fmt [arg] = .done (.integer fm value, [], []))
    (hbase : KnownBase fm.base) (hlength : (integerText fm value).length < 2 ^ 31)
    (htext : nul ∉ integerText fm value) (fuel : ℕ) (outStr : OutString) :
    ∃ bytes out, paramGetWithFmt ('%' :: fmt) (fuel + 2) outStr arg = .done (bytes, out) ∧
      (GetsPart outStr (integerText fm value) bytes out ↔
        outStr.size = 0 ∨ (integerText fm value).length < outStr.size) := by
  have hcount := sizeToInt_word hlength
  have hrun := vsnprintf_integer outStr.mutableText outStr.size hnul
    hpercent hparse hbase (by omega) fuel
  unfold paramGetWithFmt
  rw [hrun, done_bind]
  generalize integerText fm value = full at *
  refine ⟨_, _, rfl, ?_⟩
  simp only [hcount]
  have hword := outStr.size_lt
  constructor
  · intro h
    by_contra hroom
    simp only [not_or, not_lt] at hroom
    obtain ⟨hne, hfull⟩ := hroom
    have hpos := Nat.pos_of_ne_zero hne
    -- the NUL stands where the last character should
    have hlast := (text_eq_take_iff (Nat.min_le_left _ _)).mp h.text (outStr.size - 1)
      (by simp only; omega)
    simp only [terminate_emit_last hpos hfull (by omega)] at hlast
    rw [List.getD_eq_getElem _ _ (by omega)] at hlast
    exact htext (hlast ▸ List.getElem_mem _)
  · intro hroom
    refine ⟨rfl, rfl, (text_eq_take_iff (Nat.min_le_left _ _)).mpr ?_⟩
    intro i hi
    simp only at hi
    have hfits : full.length < outStr.size := by omega
    exact terminate_emit_getD (by omega) (by omega) (by omega)

/-- **The string getter** copies the part that fits, whatever the size. -/
theorem getsPart_string (dst : OutString) (src : List Char) :
    GetsPart dst src (paramGetString dst src).1 (paramGetString dst src).2 := by
  refine ⟨rfl, rfl, (text_eq_take_iff (Nat.min_le_left _ _)).mpr ?_⟩
  intro i hi
  have hi' : i < min src.length dst.size := hi
  show (if i < min src.length dst.size then src.getD i nul else _) = _
  rw [if_pos hi']

/-- **Every integer type.** -/
theorem getsPart_paramGet_iff {t : IntType} {v : ℤ} (h : t.Fits v) (fuel : ℕ)
    (outStr : OutString) :
    ∃ bytes out, paramGet (fuel + 2) outStr v t = .done (bytes, out) ∧
      (GetsPart outStr (signedText v) bytes out ↔
        outStr.size = 0 ∨ (signedText v).length < outStr.size) := by
  obtain ⟨fmt, arg, hnul, hpercent, hparse, hget⟩ := paramGet_prints h
  have htext := integerText_signedText h
  rw [hget, ← htext]
  refine getsPart_integer_iff hnul hpercent hparse (.inr (.inl rfl)) ?_ ?_ fuel outStr
  · rw [htext]
    exact signedText_length h
  · rw [htext]
    exact nul_not_mem_signedText v

/-- **Which gets keep to the contract**: those of the integer types and of `bool` exactly when the
string is empty or longer than the text, those of a string always. -/
theorem param_get_truncates_iff (fuel : ℕ) (outStr : OutString) :
    (∀ (t : IntType) (v : ℤ), t.Fits v →
      ∃ bytes out, paramGet (fuel + 2) outStr v t = .done (bytes, out) ∧
        (GetsPart outStr (signedText v) bytes out ↔
          outStr.size = 0 ∨ (signedText v).length < outStr.size)) ∧
    (∀ v : Bool, ∃ bytes out, paramGetBool (fuel + 2) outStr v = .done (bytes, out) ∧
      (GetsPart outStr (signedText v.toNat) bytes out ↔
        outStr.size = 0 ∨ (signedText v.toNat).length < outStr.size)) ∧
    ∀ src : List Char, GetsPart outStr src (paramGetString outStr src).1
      (paramGetString outStr src).2 := by
  refine ⟨?_, ?_, getsPart_string outStr⟩
  · intro t v h
    exact getsPart_paramGet_iff h fuel outStr
  · intro v
    have hfits : IntType.i32.Fits (v.toNat : ℤ) := by
      cases v <;> decide
    exact getsPart_paramGet_iff hfits fuel outStr

/-- A `u8` of 7 in a string of one byte: the byte is a NUL, and counted as text. -/
theorem param_get_truncates_seven :
    ∃ bytes out, paramGet 2 ⟨fun _ => nul, 1, by decide⟩ 7 .u8 = .done (bytes, out) ∧
      out.size = 1 ∧ out.text = [nul] ∧
      ¬ GetsPart ⟨fun _ => nul, 1, by decide⟩ (signedText 7) bytes out := by
  have hrun : (paramGet 2 ⟨fun _ => nul, 1, by decide⟩ 7 .u8).value?.map
      (fun p => (p.2.size, p.2.text)) = some (1, [nul]) := by
    decide +kernel
  obtain ⟨⟨bytes, out⟩, hvalue, heq⟩ := Option.map_eq_some_iff.mp hrun
  obtain ⟨hsize, htext⟩ := Prod.mk.inj heq
  refine ⟨bytes, out, value?_eq_some.mp hvalue, hsize, htext, ?_⟩
  intro hpart
  have hread := hpart.text
  rw [htext, hsize, show signedText 7 = ['7'] by decide +kernel] at hread
  exact absurd hread (by decide)

/-- The least `i8` fits into five bytes. -/
theorem param_get_truncates_iff_leastI8 :
    ∃ bytes out, paramGet 2 ⟨fun _ => nul, 5, by decide⟩ (-128) .i8 = .done (bytes, out) ∧
      (GetsPart ⟨fun _ => nul, 5, by decide⟩ (signedText (-128)) bytes out ↔
        (5 : ℕ) = 0 ∨ (signedText (-128)).length < 5) :=
  (param_get_truncates_iff 0 ⟨fun _ => nul, 5, by decide⟩).1 .i8 (-128) (by decide)

end GetsPart

end UltraKernel.Param
