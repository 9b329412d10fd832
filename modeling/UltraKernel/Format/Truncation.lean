import UltraKernel.Format.Text

/-!
# The output does not depend on the capacity

Two runs of the formatter on the same format and arguments, with different buffers, are compared.
Nothing they branch on depends on the output, so they end the same way, with the same number of
bytes; `Agree` says that each byte both buffers have room for is the same, and that nothing was
written past the capacity.

* `output_truncated`: there is one text, and a buffer receives the part of it that fits, then a
  NUL; `vsnprintf` returns the length of the text and `vscnprintf` the length of the part.
-/

namespace UltraKernel.Format

open Word Outcome

/-! ### The relation -/

/-- Two runs, with the second one's buffer and capacity at its start. -/
structure Agree (buffer : ℕ → Char) (capacity : ℕ) (s t : FmtBufState) : Prop where
  bytesWritten : s.bytesWritten = t.bytesWritten
  common : ∀ i < s.bytesWritten, i < s.capacity → i < t.capacity → s.buffer i = t.buffer i
  room : t.capacity = capacity
  outside : ∀ i, capacity ≤ i → t.buffer i = buffer i

section Agree

variable {buffer : ℕ → Char} {capacity : ℕ} {s t : FmtBufState}

theorem agree_start (first : ℕ → Char) (c : ℕ) :
    Agree buffer capacity ⟨first, c, 0⟩ ⟨buffer, capacity, 0⟩ where
  bytesWritten := rfl
  common i h := absurd h (Nat.not_lt_zero i)
  room := rfl
  outside _ _ := rfl

theorem Agree.writeMany (h : Agree buffer capacity s t) (string : List Char) (count : ℕ) :
    Agree buffer capacity (writeMany s string count) (writeMany t string count) where
  bytesWritten := by rw [Format.writeMany, Format.writeMany, h.bytesWritten]
  common i hi hs ht := by
    simp only [Format.writeMany, add64] at hi hs ht ⊢
    rw [← h.bytesWritten]
    by_cases hold : i < s.bytesWritten
    · rw [if_neg (by omega), if_neg (by omega)]
      exact h.common i hold hs ht
    · -- a count that wraps ends below what is written already
      have hlt : i < s.bytesWritten + count := hi.trans_le (Nat.mod_le _ _)
      rw [if_pos (by omega), if_pos (by omega)]
  room := h.room
  outside i hi := by
    have hcap := h.room
    simp only [Format.writeMany]
    rw [if_neg (by omega)]
    exact h.outside i hi

theorem Agree.writeOne (h : Agree buffer capacity s t) (c : Char) :
    Agree buffer capacity (writeOne s c) (writeOne t c) := by
  rw [writeOne_emit, writeOne_emit]
  exact h.writeMany [c] 1

/-! ### The loops -/

theorem Agree.paddingLoop (h : Agree buffer capacity s t) (fm : FmtSpec) (mw : ℕ) :
    Agree buffer capacity (paddingLoop fm mw s) (paddingLoop fm mw t) := by
  induction mw generalizing s t with
  | zero => exact h
  | succ mw ih => exact ih (h.writeOne _)

theorem Agree.writePadding (h : Agree buffer capacity s t) (fm : FmtSpec) (reprSize : ℕ) :
    Agree buffer capacity (writePadding s fm reprSize) (writePadding t fm reprSize) := by
  unfold Format.writePadding
  split_ifs
  · exact h
  · exact h.paddingLoop fm _

theorem Agree.stringLoop (h : Agree buffer capacity s t) (fm : FmtSpec) (text : List Char) (i : ℕ) :
    Agree buffer capacity (stringLoop fm text i s).1 (stringLoop fm text i t).1 ∧
      (stringLoop fm text i s).2 = (stringLoop fm text i t).2 := by
  induction text generalizing s t i with
  | nil => exact ⟨h, rfl⟩
  | cons c text ih =>
    simp only [Format.stringLoop]
    split_ifs
    · exact ih (h.writeOne c) (i + 1)
    · exact ⟨h, rfl⟩

theorem Agree.stringPadding (h : Agree buffer capacity s t) (fuel i minWidth : ℕ) :
    Related (Agree buffer capacity) (stringPadding fuel s i minWidth)
      (stringPadding fuel t i minWidth) := by
  induction fuel generalizing s t i with
  | zero => trivial
  | succ fuel ih =>
    simp only [Format.stringPadding]
    split_ifs
    · exact ih (h.writeOne ' ') (i + 1)
    · exact h

theorem Agree.structStringPadding (h : Agree buffer capacity s t) (fuel size precision : ℕ) :
    Related (Agree buffer capacity) (structStringPadding fuel s size precision)
      (structStringPadding fuel t size precision) := by
  induction fuel generalizing s t with
  | zero => trivial
  | succ fuel ih =>
    simp only [Format.structStringPadding]
    split_ifs
    · exact ih (h.writeOne ' ')
    · exact h

/-! ### Conversions -/

theorem Agree.writeInteger (h : Agree buffer capacity s t) (fm : FmtSpec) (value : BitVec 64) :
    Related (Agree buffer capacity) (writeInteger s fm value) (writeInteger t fm value) := by
  unfold Format.writeInteger
  dsimp only
  apply Related.bind_same _
  intro p
  have hsign : ∀ c b, Agree buffer capacity (if (b : Bool) then Format.writeOne s c else s)
      (if b then Format.writeOne t c else t) := by
    intro c b
    split_ifs
    · exact h.writeOne c
    · exact h
  by_cases hleft : fm.leftJustify
  · rw [if_pos hleft, if_pos hleft]
    exact ((hsign _ _).writeMany _ _).writePadding fm _
  · rw [if_neg hleft, if_neg hleft]
    exact ((hsign _ _).writePadding fm _).writeMany _ _

/-- **A conversion writes the same in both runs.** -/
theorem Agree.writeConversion (h : Agree buffer capacity s t) (fuel : ℕ)
    (conversion : Conversion) :
    Related (Agree buffer capacity) (writeConversion fuel s conversion)
      (writeConversion fuel t conversion) := by
  cases conversion with
  | char c => exact h.writeOne c
  | string fm text =>
    obtain ⟨hloop, hindex⟩ := h.stringLoop fm text 0
    simp only [Format.writeConversion, hindex]
    exact hloop.stringPadding _ _ _
  | structString fm string => exact (h.writeMany _ _).structStringPadding _ _ _
  | integer fm value => exact h.writeInteger fm value

theorem Agree.writeLiteral (h : Agree buffer capacity s t) (fmt : List Char) :
    Agree buffer capacity (writeLiteral s fmt) (writeLiteral t fmt) := by
  unfold Format.writeLiteral
  split_ifs
  · exact h.writeMany _ _
  · exact h

/-- **Two runs of the main loop** end the same way, with the same error, and agree. -/
theorem Agree.formatLoop (h : Agree buffer capacity s t) (fuel : ℕ) (fmt : List Char)
    (vlist : List Arg) :
    Related (fun p q => p.1 = q.1 ∧ Agree buffer capacity p.2 q.2) (formatLoop fuel s fmt vlist)
      (formatLoop fuel t fmt vlist) := by
  induction fuel generalizing s t fmt vlist with
  | zero => trivial
  | succ fuel ih =>
    have hliteral := h.writeLiteral fmt
    simp only [Format.formatLoop]
    split_ifs with hnil hend
    · exact ⟨rfl, h⟩
    · exact ⟨rfl, hliteral⟩
    cases consume (fmt.drop (nextOffset fmt)) ['%', '%'] with
    | some rest => exact ih (hliteral.writeOne '%') rest vlist
    | none =>
      dsimp only
      cases parseConversion ((fmt.drop (nextOffset fmt)).drop 1) vlist with
      | done p =>
        exact (hliteral.writeConversion fuel p.1).bind fun _ _ h' => ih h' p.2.1 p.2.2
      | halt stop =>
        cases stop with
        | error code => exact ⟨rfl, hliteral⟩
        | argument => rfl
      | outOfFuel => trivial

end Agree

/-! ### The text -/

/-- A run that returns no error has ended its loop without one. -/
theorem vsnprintf_cases {fuel n capacity : ℕ} {buffer : ℕ → Char} {fmtStr : List Char}
    {vlist : List Arg} {out : FmtBufState}
    (h : vsnprintf fuel buffer capacity fmtStr vlist = .done ((n : ℤ), out)) :
    ∃ fb, formatLoop fuel ⟨buffer, capacity, 0⟩ (strRuntime fmtStr) vlist = .done (none, fb) ∧
      (n : ℤ) = sizeToInt fb.bytesWritten ∧ out = terminate fb := by
  obtain ⟨⟨error, fb⟩, hloop, hret⟩ := bind_eq_done.mp h
  cases error with
  | some code =>
    obtain ⟨hn, _⟩ := Prod.mk.inj (Outcome.done.inj hret)
    rcases formatLoop_error hloop with rfl | rfl <;> simp only [einval, erange] at hn <;> omega
  | none =>
    obtain ⟨hn, hout⟩ := Prod.mk.inj (Outcome.done.inj hret)
    exact ⟨fb, hloop, hn.symm, hout.symm⟩

/-- What a buffer holds after a run: the part of the text that fits, and a NUL. -/
structure Holds (text : List Char) (buffer : ℕ → Char) (capacity : ℕ) (out : ℕ → Char) :
    Prop where
  outside : ∀ i, capacity ≤ i → out i = buffer i
  shown : 0 < capacity → ∀ i < min text.length (capacity - 1), text[i]? = some (out i)
  terminated : 0 < capacity → out (min text.length (capacity - 1)) = nul

/-- The buffer a run leaves, against the text of a run with room for all of it. -/
theorem Agree.holds {buffer : ℕ → Char} {capacity : ℕ} {s t : FmtBufState}
    (h : Agree buffer capacity s t) (hroom : s.bytesWritten ≤ s.capacity) :
    Holds ((List.range s.bytesWritten).map s.buffer) buffer capacity (terminate t).buffer := by
  have hcap := h.room
  have hlen : ((List.range s.bytesWritten).map s.buffer).length = s.bytesWritten := by simp
  refine ⟨fun i hi => ?_, fun hpos i hi => ?_, fun hpos => ?_⟩
  · unfold terminate
    split_ifs
    · simp only
      rw [if_neg (by omega)]
      exact h.outside i hi
    · exact h.outside i hi
  · rw [hlen] at hi
    have hi' : i < s.bytesWritten := by omega
    have hne : i ≠ min t.bytesWritten (t.capacity - 1) := by
      rw [← h.bytesWritten, hcap]
      omega
    simp only [terminate, hcap, if_pos (show capacity ≠ 0 by omega)]
    rw [hcap] at hne
    rw [if_neg hne, List.getElem?_map, List.getElem?_range hi']
    exact congrArg some (h.common i hi' (by omega) (by omega))
  · rw [hlen, h.bytesWritten]
    simp only [terminate, hcap, if_pos (show capacity ≠ 0 by omega), if_true]

theorem vscnprintf_of_done {fuel n capacity : ℕ} {buffer : ℕ → Char} {fmtStr : List Char}
    {vlist : List Arg} {out : FmtBufState} (hn : n < 2 ^ 31)
    (h : vsnprintf fuel buffer capacity fmtStr vlist = .done ((n : ℤ), out)) :
    vscnprintf fuel buffer capacity fmtStr vlist =
      .done (if capacity = 0 then 0 else ((min n (capacity - 1) : ℕ) : ℤ), out) := by
  unfold vscnprintf
  rw [h, done_bind]
  dsimp only
  rw [if_neg (by omega)]
  by_cases hfits : n < capacity
  · have hmin : min n (capacity - 1) = n := by omega
    rw [if_pos (by exact_mod_cast hfits), if_neg (by omega), hmin, pure_eq]
  · rw [if_neg (by exact_mod_cast hfits), pure_eq]
    by_cases hzero : capacity = 0
    · rw [if_neg (by simpa using hzero), if_pos hzero]
    · have hmin : min n (capacity - 1) = capacity - 1 := by omega
      rw [if_pos hzero, if_neg hzero, hmin, sizeToInt_of_lt (by omega)]

/-- **Truncation.**  When a run produces fewer than `2 ^ 31` bytes, there is one text, of the length
returned, such that every buffer of every capacity receives the part of it that fits and a NUL, and
nothing past its capacity; `vscnprintf` returns the length of that part.  And `write_integer`
stays inside `repr_buffer` on every value, with any flags. -/
theorem output_truncated {fuel n capacity₀ : ℕ} {buffer₀ : ℕ → Char} {fmtStr : List Char}
    {vlist : List Arg} {out₀ : FmtBufState}
    (h : vsnprintf fuel buffer₀ capacity₀ fmtStr vlist = .done ((n : ℤ), out₀))
    (hn : out₀.bytesWritten < 2 ^ 31) :
    (∃ text : List Char, text.length = n ∧ ∀ buffer capacity, ∃ out : FmtBufState,
      vsnprintf fuel buffer capacity fmtStr vlist = .done ((n : ℤ), out) ∧
      Holds text buffer capacity out.buffer ∧
      vscnprintf fuel buffer capacity fmtStr vlist =
        .done (if capacity = 0 then 0 else ((min n (capacity - 1) : ℕ) : ℤ), out)) ∧
    ∀ fb fm value, KnownBase fm.base → ∃ fb', writeInteger fb fm value = .done fb' := by
  refine ⟨?_, fun fb fm value hbase => writeInteger_done fb value hbase⟩
  obtain ⟨fb₀, hloop₀, hn₀, rfl⟩ := vsnprintf_cases h
  rw [terminate_bytesWritten] at hn
  obtain rfl : n = fb₀.bytesWritten := by
    rw [sizeToInt_of_lt hn] at hn₀
    exact_mod_cast hn₀
  -- the run with room for the whole text
  have hstart : Agree (fun _ => nul) (2 ^ 31) ⟨buffer₀, capacity₀, 0⟩ ⟨fun _ => nul, 2 ^ 31, 0⟩ :=
    agree_start buffer₀ capacity₀
  obtain ⟨⟨error, s⟩, hloop, herror, hagree⟩ :=
    (hstart.formatLoop fuel (strRuntime fmtStr) vlist).of_done hloop₀
  obtain rfl : none = error := herror
  replace hagree : Agree (fun _ => nul) (2 ^ 31) fb₀ s := hagree
  have hbytes := hagree.bytesWritten
  rw [hbytes] at hn ⊢
  refine ⟨(List.range s.bytesWritten).map s.buffer, by simp, fun buffer capacity => ?_⟩
  have hstart' : Agree buffer capacity ⟨fun _ => nul, 2 ^ 31, 0⟩ ⟨buffer, capacity, 0⟩ :=
    agree_start (fun _ => nul) (2 ^ 31)
  obtain ⟨⟨error', t⟩, hloop', herror', hagree'⟩ :=
    (hstart'.formatLoop fuel (strRuntime fmtStr) vlist).of_done hloop
  obtain rfl : none = error' := herror'
  replace hagree' : Agree buffer capacity s t := hagree'
  have hret : vsnprintf fuel buffer capacity fmtStr vlist =
      .done ((s.bytesWritten : ℤ), terminate t) := by
    unfold vsnprintf
    rw [hloop', done_bind]
    simp only [pure_eq, ← hagree'.bytesWritten, sizeToInt_of_lt hn]
  refine ⟨terminate t, hret, hagree'.holds (by rw [hagree.room]; exact hn.le), ?_⟩
  exact vscnprintf_of_done hn hret

/-- `%d` of 5 after a letter, into buffers of every capacity. -/
theorem output_truncated_letterDigit :
    ∃ text : List Char, text.length = 2 ∧ ∀ buffer capacity, ∃ out : FmtBufState,
      vsnprintf 4 buffer capacity ['a', '%', 'd'] [.int 5] = .done (2, out) ∧
      Holds text buffer capacity out.buffer := by
  have hrun : (vsnprintf 4 (fun _ => nul) 2 ['a', '%', 'd'] [.int 5]).value?.map
      (fun p => (p.1, p.2.bytesWritten)) = some (2, 2) := by
    decide +kernel
  obtain ⟨⟨n, out⟩, hvalue, heq⟩ := Option.map_eq_some_iff.mp hrun
  obtain ⟨rfl, hbytes⟩ := Prod.mk.inj heq
  obtain ⟨⟨text, hlen, hall⟩, _⟩ := output_truncated (n := 2) (value?_eq_some.mp hvalue)
    (lt_of_eq_of_lt hbytes (by decide))
  refine ⟨text, hlen, fun buffer capacity => ?_⟩
  obtain ⟨out', hret, hholds, _⟩ := hall buffer capacity
  exact ⟨out', hret, hholds⟩

end UltraKernel.Format
