import UltraKernel.Format.Integer
import UltraKernel.Format.Round
import Mathlib.Data.List.TakeWhile

/-!
# The text that is written

Everything the formatter writes is a text appended to the output: `emit` appends one, and appends
compose.  A text shorter than the capacity can be read back from the buffer up to its NUL.

* `writeInteger_emit`: an integer conversion appends its sign, padding and representation;
* `vsnprintf_integer`: what a format of one integer conversion leaves in the buffer.
-/

namespace UltraKernel.Format

open Word Outcome

/-! ### Appending -/

/-- The output with a text appended, as far as it fits. -/
def emit (fb : FmtBufState) (text : List Char) : FmtBufState := writeMany fb text text.length

/-- A single character is a text of length one. -/
theorem writeOne_emit (fb : FmtBufState) (c : Char) : writeOne fb c = emit fb [c] := by
  change writeOne fb c = writeMany fb [c] 1
  unfold writeOne writeMany
  congr 1
  funext i
  by_cases h : i = fb.bytesWritten ∧ fb.bytesWritten < fb.capacity
  · rw [if_pos h, if_pos (by omega), h.1, Nat.sub_self]
    rfl
  · rw [if_neg h, if_neg (by omega)]

section Emit

variable {fb : FmtBufState} {s t : List Char}

theorem emit_bytesWritten (h : fb.bytesWritten + t.length < 2 ^ 64) :
    (emit fb t).bytesWritten = fb.bytesWritten + t.length := add64_of_lt h

/-- The count of a text in a fresh buffer. -/
theorem emit_start_bytesWritten (buffer : ℕ → Char) (capacity : ℕ) (h : t.length < 2 ^ 64) :
    (emit ⟨buffer, capacity, 0⟩ t).bytesWritten = t.length := by
  rw [emit_bytesWritten (by simp only; omega), Nat.zero_add]

theorem emit_capacity (fb : FmtBufState) (t : List Char) : (emit fb t).capacity = fb.capacity := rfl

theorem emit_nil (h : fb.bytesWritten < 2 ^ 64) : emit fb [] = fb := by
  obtain ⟨buffer, capacity, bytesWritten⟩ := fb
  simp only [emit, writeMany, List.length_nil, Nat.zero_min, Nat.add_zero]
  rw [add64_of_lt h]
  congr
  funext i
  rw [if_neg (by omega)]

/-- **Appends compose.** -/
theorem emit_emit (h : fb.bytesWritten + (s ++ t).length < 2 ^ 64) :
    emit (emit fb s) t = emit fb (s ++ t) := by
  rw [List.length_append] at h
  have hs : (emit fb s).bytesWritten = fb.bytesWritten + s.length := emit_bytesWritten (by omega)
  have hwritten : add64 (emit fb s).bytesWritten t.length =
      add64 fb.bytesWritten (s ++ t).length := by
    rw [hs, List.length_append, add64, add64, Nat.add_assoc]
  unfold emit at hs hwritten ⊢
  unfold writeMany at hs hwritten ⊢
  simp only at hs hwritten ⊢
  rw [hwritten, hs]
  congr
  funext i
  by_cases hsecond : fb.bytesWritten + s.length < fb.capacity ∧ fb.bytesWritten + s.length ≤ i ∧
      i < fb.bytesWritten + s.length + min t.length (fb.capacity - (fb.bytesWritten + s.length))
  · rw [if_pos hsecond, if_pos (by rw [List.length_append]; omega),
      List.getD_append_right _ _ _ _ (by omega),
      show i - fb.bytesWritten - s.length = i - (fb.bytesWritten + s.length) by omega]
  · rw [if_neg hsecond]
    by_cases hfirst : fb.bytesWritten < fb.capacity ∧ fb.bytesWritten ≤ i ∧
        i < fb.bytesWritten + min s.length (fb.capacity - fb.bytesWritten)
    · rw [if_pos hfirst, if_pos (by rw [List.length_append]; omega),
        List.getD_append _ _ _ _ (by omega)]
    · rw [if_neg hfirst, if_neg (by rw [List.length_append]; omega)]

/-- The character that pads a conversion. -/
def paddingChar (fm : FmtSpec) : Char := if fm.leftJustify then ' ' else fm.padChar

theorem paddingLoop_emit {fm : FmtSpec} {mw : ℕ} (h : fb.bytesWritten + mw < 2 ^ 64) :
    paddingLoop fm mw fb = emit fb (List.replicate mw (paddingChar fm)) := by
  induction mw generalizing fb with
  | zero => exact (emit_nil h).symm
  | succ mw ih =>
    have hone : (emit fb [paddingChar fm]).bytesWritten = fb.bytesWritten + 1 :=
      emit_bytesWritten (by simp only [List.length_singleton]; omega)
    rw [paddingLoop, writeOne_emit]
    change paddingLoop fm mw (emit fb [paddingChar fm]) = _
    rw [ih (by omega), emit_emit (by simp; omega), List.replicate_succ]
    rfl

/-- What pads a text of the given size to the width. -/
def paddingText (fm : FmtSpec) (size : ℕ) : List Char :=
  List.replicate (fm.minWidth - size) (paddingChar fm)

theorem writePadding_emit {fm : FmtSpec} {size : ℕ}
    (h : fb.bytesWritten + (paddingText fm size).length < 2 ^ 64) :
    writePadding fb fm size = emit fb (paddingText fm size) := by
  rw [paddingText, List.length_replicate] at h
  unfold writePadding paddingText
  split_ifs with hle
  · rw [Nat.sub_eq_zero_of_le hle]
    exact (emit_nil (by omega)).symm
  · exact paddingLoop_emit h

theorem writeSign_emit {fm : FmtSpec} (value : BitVec 64) (h : fb.bytesWritten < 2 ^ 64) :
    writeSign fb fm value = emit fb (signText fm value) := by
  unfold writeSign signText
  split_ifs
  · exact writeOne_emit fb _
  · exact writeOne_emit fb _
  · exact (emit_nil h).symm

/-! ### Integers -/

/-- **The text of an integer conversion.** -/
def integerText (fm : FmtSpec) (value : BitVec 64) : List Char :=
  signText fm value ++
    if fm.leftJustify then
      reprText fm (magnitude fm value) ++ paddingText fm (reprText fm (magnitude fm value)).length
    else
      paddingText fm (reprText fm (magnitude fm value)).length ++ reprText fm (magnitude fm value)

/-- **An integer conversion appends its text.** -/
theorem writeInteger_emit {fm : FmtSpec} {value : BitVec 64} (hbase : KnownBase fm.base)
    (h : fb.bytesWritten + (integerText fm value).length < 2 ^ 64) :
    writeInteger fb fm value = .done (emit fb (integerText fm value)) := by
  have hsign : fb.bytesWritten < 2 ^ 64 := by omega
  rw [writeInteger_eq fb value hbase, writeSign_emit value hsign]
  unfold integerText at h ⊢
  have hwritten : (emit fb (signText fm value)).bytesWritten =
      fb.bytesWritten + (signText fm value).length :=
    emit_bytesWritten (by rw [List.length_append] at h; omega)
  by_cases hleft : fm.leftJustify
  · rw [if_pos hleft] at h
    rw [if_pos hleft, if_pos hleft]
    simp only [List.length_append] at h
    change Outcome.done (writePadding (emit (emit fb (signText fm value))
      (reprText fm (magnitude fm value))) fm _) = _
    rw [emit_emit (by rw [List.length_append]; omega), writePadding_emit, emit_emit]
    · rw [List.append_assoc]
    · simp only [List.length_append]
      omega
    · rw [emit_bytesWritten (by rw [List.length_append]; omega), List.length_append]
      omega
  · rw [if_neg hleft] at h
    rw [if_neg hleft, if_neg hleft]
    simp only [List.length_append] at h
    change Outcome.done (emit (writePadding (emit fb (signText fm value)) fm _)
      (reprText fm (magnitude fm value))) = _
    rw [writePadding_emit (by rw [hwritten]; omega), emit_emit, emit_emit]
    · simp only [List.length_append]
      omega
    · rw [hwritten, List.length_append]
      omega

end Emit

/-! ### Reading the buffer -/

/-- The string in a buffer of the given capacity, up to its NUL. -/
def bufferString (buffer : ℕ → Char) (capacity : ℕ) : List Char :=
  strRuntime ((List.range capacity).map buffer)

theorem sizeToInt_of_lt {n : ℕ} (h : n < 2 ^ 31) : sizeToInt n = n := by
  unfold sizeToInt
  rw [BitVec.toInt_eq_toNat_cond, BitVec.toNat_ofNat]
  rw [if_pos (by omega), Nat.mod_eq_of_lt (by omega)]

/-- The number of bytes that a getter takes from a return value. -/
theorem sizeToInt_word {n : ℕ} (h : n < 2 ^ 31) : (BitVec.ofInt 64 (sizeToInt n)).toNat = n := by
  rw [sizeToInt_of_lt h, BitVec.toNat_ofInt]
  omega

theorem terminate_bytesWritten (fb : FmtBufState) :
    (terminate fb).bytesWritten = fb.bytesWritten := by
  unfold terminate
  split_ifs <;> rfl

section Buffer

variable {buffer : ℕ → Char} {capacity : ℕ} {text : List Char}

/-- What is seen of a text: everything before the last byte of the buffer. -/
theorem terminate_emit_getD {i : ℕ} (hi : i + 1 < capacity) (htext : i < text.length)
    (hroom : text.length < 2 ^ 64) :
    (terminate (emit ⟨buffer, capacity, 0⟩ text)).buffer i = text.getD i nul := by
  rw [terminate, emit_capacity, if_pos (by simp only; omega),
    emit_start_bytesWritten buffer capacity hroom]
  dsimp only
  rw [if_neg (by omega)]
  simp only [emit, writeMany]
  rw [if_pos (by omega), Nat.sub_zero]

theorem terminate_emit_buffer (hroom : text.length < capacity) (hcapacity : capacity ≤ 2 ^ 64) :
    (∀ i (hi : i < text.length),
      (terminate (emit ⟨buffer, capacity, 0⟩ text)).buffer i = text[i]) ∧
    (terminate (emit ⟨buffer, capacity, 0⟩ text)).buffer text.length = nul := by
  constructor
  · intro i hi
    rw [terminate_emit_getD (by omega) hi (by omega), List.getD_eq_getElem _ _ hi]
  · have hwritten := emit_start_bytesWritten buffer capacity (show text.length < 2 ^ 64 by omega)
    have hlast : min text.length (capacity - 1) = text.length := by omega
    rw [terminate, emit_capacity, if_pos (by simp only; omega), hwritten, hlast]
    exact if_pos rfl

/-- A text that is in the buffer and followed by a NUL is what is read. -/
theorem bufferString_of_shown (hnul : nul ∉ text) (hroom : text.length < capacity)
    (hshown : ∀ i (hi : i < text.length), buffer i = text[i]) (hend : buffer text.length = nul) :
    bufferString buffer capacity = text := by
  obtain ⟨k, rfl⟩ : ∃ k, capacity = text.length + (k + 1) := ⟨capacity - text.length - 1, by omega⟩
  have hlead : (List.range text.length).map buffer = text := by
    refine List.ext_getElem (by simp) fun i hi hi' => ?_
    rw [List.getElem_map, List.getElem_range, hshown i hi']
  have hkeep : ∀ c ∈ text, decide (c ≠ nul) = true := by
    intro c hc
    rw [decide_eq_true_eq]
    rintro rfl
    exact hnul hc
  change buffer (text.length + 0) = nul at hend
  rw [bufferString, strRuntime, List.range_add, List.map_append, hlead,
    List.takeWhile_append_of_pos hkeep, List.range_succ_eq_map, List.map_cons, List.map_cons, hend,
    List.takeWhile_cons_of_neg (by simp), List.append_nil]

/-- **A text that fits is read back** up to its NUL. -/
theorem bufferString_terminate (hnul : nul ∉ text) (hroom : text.length < capacity)
    (hcapacity : capacity ≤ 2 ^ 64) :
    bufferString (terminate (emit ⟨buffer, capacity, 0⟩ text)).buffer capacity = text := by
  obtain ⟨hshown, hend⟩ := @terminate_emit_buffer buffer _ _ hroom hcapacity
  exact bufferString_of_shown hnul hroom hshown hend

/-! ### Formats of one conversion -/

theorem strRuntime_percent {fmt : List Char} (hnul : nul ∉ fmt) :
    strRuntime ('%' :: fmt) = '%' :: fmt := by
  rw [strRuntime, List.takeWhile_eq_self_iff]
  intro c hc
  rw [decide_eq_true_eq]
  rintro rfl
  rcases List.mem_cons.mp hc with hc | hc
  · exact absurd hc (by decide)
  · exact hnul hc

theorem nextOffset_percent (fmt : List Char) : nextOffset ('%' :: fmt) = 0 := by
  simp [nextOffset, strFindOne, List.findIdx?_cons]

theorem consume_percent {fmt : List Char} (hpercent : fmt.head? ≠ some '%') :
    consume ('%' :: fmt) ['%', '%'] = none := by
  cases fmt with
  | nil => rfl
  | cons c fmt =>
    have hc : '%' ≠ c := fun h => hpercent (by rw [h]; rfl)
    simp [consume, strStartsWith, hc]

theorem writeLiteral_percent (fb : FmtBufState) (fmt : List Char) :
    writeLiteral fb ('%' :: fmt) = fb := by
  rw [writeLiteral, nextOffset_percent, if_neg (not_not.mpr rfl)]

/-- **A format of one integer conversion** does what `write_integer` does. -/
theorem vsnprintf_writeInteger (buffer : ℕ → Char) (capacity : ℕ) {fmt : List Char}
    {vlist : List Arg} {fm : FmtSpec} {value : BitVec 64}
    (hnul : nul ∉ fmt) (hpercent : fmt.head? ≠ some '%')
    (hparse : parseConversion fmt vlist = .done (.integer fm value, [], [])) (fuel : ℕ) :
    vsnprintf (fuel + 2) buffer capacity ('%' :: fmt) vlist =
      writeInteger ⟨buffer, capacity, 0⟩ fm value >>= fun fb =>
        .done (sizeToInt fb.bytesWritten, terminate fb) := by
  have hoffset := nextOffset_percent fmt
  unfold vsnprintf
  rw [strRuntime_percent hnul, formatLoop_conversion (by rw [hoffset]; simp)
    (by rw [hoffset]; exact consume_percent hpercent) (by rw [hoffset]; exact hparse),
    writeLiteral_percent]
  show writeInteger ⟨buffer, capacity, 0⟩ fm value >>= _ >>= _ = _
  cases writeInteger ⟨buffer, capacity, 0⟩ fm value with
  | done fb =>
    rw [done_bind, done_bind, formatLoop, if_pos rfl, done_bind]
    rfl
  | halt => rfl
  | outOfFuel => rfl

/-- A conversion that is refused leaves the output as it was. -/
theorem vsnprintf_refused (buffer : ℕ → Char) (capacity : ℕ) {fmt : List Char} {vlist : List Arg}
    {code : ErrorT} (hnul : nul ∉ fmt) (hpercent : fmt.head? ≠ some '%')
    (hparse : parseConversion fmt vlist = .halt (.error code)) (fuel : ℕ) :
    vsnprintf (fuel + 1) buffer capacity ('%' :: fmt) vlist =
      .done (-(code : ℤ), ⟨buffer, capacity, 0⟩) := by
  have hoffset := nextOffset_percent fmt
  unfold vsnprintf
  rw [strRuntime_percent hnul, formatLoop_refused (by rw [hoffset]; simp)
    (by rw [hoffset]; exact consume_percent hpercent) (by rw [hoffset]; exact hparse),
    writeLiteral_percent, done_bind]
  rfl

/-- **A format of one integer conversion** leaves the text of the conversion. -/
theorem vsnprintf_integer (buffer : ℕ → Char) (capacity : ℕ) {fmt : List Char} {vlist : List Arg}
    {fm : FmtSpec} {value : BitVec 64}
    (hnul : nul ∉ fmt) (hpercent : fmt.head? ≠ some '%')
    (hparse : parseConversion fmt vlist = .done (.integer fm value, [], []))
    (hbase : KnownBase fm.base) (hroom : (integerText fm value).length < 2 ^ 64) (fuel : ℕ) :
    vsnprintf (fuel + 2) buffer capacity ('%' :: fmt) vlist =
      .done (sizeToInt (integerText fm value).length,
        terminate (emit ⟨buffer, capacity, 0⟩ (integerText fm value))) := by
  have hwritten := emit_start_bytesWritten buffer capacity hroom
  rw [vsnprintf_writeInteger buffer capacity hnul hpercent hparse,
    writeInteger_emit hbase (by simp only; omega), done_bind, hwritten]

end Buffer

end UltraKernel.Format
