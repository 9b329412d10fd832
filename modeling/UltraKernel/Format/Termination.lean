import UltraKernel.Format.Integer
import UltraKernel.Format.Round

/-!
# Termination of the formatter

`conversions` lists the conversions a format makes with its arguments.  Each round of the main loop
takes at least one character of the format, and every loop of a conversion ends, except for one:
the padding of `%pS` compares a size it never changes with the precision.

* `vsnprintf_terminates_iff`: the formatter returns, and `%.<p>pS` emits exactly `p` characters,
  exactly when no `%pS` has a precision larger than the size of its string.
-/

namespace UltraKernel.Format

open Word Outcome

/-! ### The conversions of a format -/

/-- The conversions of the first `n` rounds, and what stopped the reading. -/
def scan : ℕ → List Char → List Arg → List Conversion × Option ParseStop
  | 0, _, _ => ([], none)
  | n + 1, fmt, vlist =>
    let fmt := fmt.drop (nextOffset fmt)
    if fmt = [] then ([], none)
    else
      match consume fmt ['%', '%'] with
      | some fmt => scan n fmt vlist
      | none =>
        match parseConversion (fmt.drop 1) vlist with
        | .done (conversion, fmt, vlist) =>
          let (conversions, stop) := scan n fmt vlist
          (conversion :: conversions, stop)
        | .halt stop => ([], some stop)
        | .outOfFuel => ([], none)

/-- The conversions of a format string, with their arguments. -/
def conversions (fmtStr : List Char) (vlist : List Arg) : List Conversion :=
  (scan (strRuntime fmtStr).length (strRuntime fmtStr) vlist).1

/-- Every conversion finds an argument of its type. -/
def Matching (fmtStr : List Char) (vlist : List Arg) : Prop :=
  (scan (strRuntime fmtStr).length (strRuntime fmtStr) vlist).2 ≠ some .argument

instance (fmtStr : List Char) (vlist : List Arg) : Decidable (Matching fmtStr vlist) :=
  inferInstanceAs (Decidable (_ ≠ _))

/-- The precision of a `%pS`, 0 when none is given, does not exceed the size of its string. -/
def Conversion.Fits (conversion : Conversion) : Prop :=
  ∀ fm string, conversion = .structString fm string → fm.precision ≤ string.length

section Scan

variable {fmt rest : List Char} {vlist vlist' : List Arg} {conversion : Conversion}

theorem scan_percent (hend : fmt.drop (nextOffset fmt) ≠ [])
    (hpercent : consume (fmt.drop (nextOffset fmt)) ['%', '%'] = some rest) (n : ℕ) :
    scan (n + 1) fmt vlist = scan n rest vlist := by
  simp only [scan]
  rw [if_neg hend, hpercent]

theorem scan_conversion (hend : fmt.drop (nextOffset fmt) ≠ [])
    (hpercent : consume (fmt.drop (nextOffset fmt)) ['%', '%'] = none)
    (hparse : parseConversion ((fmt.drop (nextOffset fmt)).drop 1) vlist =
      .done (conversion, rest, vlist')) (n : ℕ) :
    scan (n + 1) fmt vlist =
      (conversion :: (scan n rest vlist').1, (scan n rest vlist').2) := by
  simp only [scan]
  rw [if_neg hend, hpercent, hparse]

theorem scan_stop {stop : ParseStop} (hend : fmt.drop (nextOffset fmt) ≠ [])
    (hpercent : consume (fmt.drop (nextOffset fmt)) ['%', '%'] = none)
    (hparse : parseConversion ((fmt.drop (nextOffset fmt)).drop 1) vlist = .halt stop) (n : ℕ) :
    scan (n + 1) fmt vlist = ([], some stop) := by
  simp only [scan]
  rw [if_neg hend, hpercent, hparse]

end Scan

/-! ### The loops of a conversion -/

theorem stringPadding_done (fb : FmtBufState) {fuel i minWidth : ℕ} (h : minWidth < fuel + i) :
    ∃ fb', stringPadding fuel fb i minWidth = .done fb' ∨ fuel = 0 := by
  induction fuel generalizing fb i with
  | zero => exact ⟨fb, Or.inr rfl⟩
  | succ fuel ih =>
    simp only [stringPadding]
    split_ifs with hlt
    · obtain ⟨fb', hrun | hzero⟩ := ih (writeOne fb ' ') (i := i + 1) (by omega)
      · exact ⟨fb', Or.inl hrun⟩
      · omega
    · exact ⟨fb, Or.inl rfl⟩

/-- The loop of `%pS` is never left when its condition holds once. -/
theorem structStringPadding_diverges {size precision : ℕ} (h : size < precision) (fuel : ℕ)
    (fb : FmtBufState) : structStringPadding fuel fb size precision = .outOfFuel := by
  induction fuel generalizing fb with
  | zero => rfl
  | succ fuel ih =>
    simp only [structStringPadding]
    rw [if_pos h, ih]

/-- The size `%pS` starts with is below the precision exactly when the string is too short. -/
theorem structString_size_lt (fm : FmtSpec) (string : List Char) :
    (if fm.hasPrecision then min fm.precision string.length else string.length) < fm.precision ↔
      string.length < fm.precision := by
  split_ifs <;> omega

theorem writeConversion_diverges {conversion : Conversion} (h : ¬ conversion.Fits) (fuel : ℕ)
    (fb : FmtBufState) : writeConversion fuel fb conversion = .outOfFuel := by
  simp only [Conversion.Fits, not_forall, not_le] at h
  obtain ⟨fm, string, rfl, hshort⟩ := h
  exact structStringPadding_diverges ((structString_size_lt fm string).mpr hshort) _ _

/-- **A conversion ends**, with enough fuel for its padding. -/
theorem writeConversion_done {conversion : Conversion} (hfits : conversion.Fits)
    (hbase : ∀ fm value, conversion = .integer fm value → KnownBase fm.base) :
    ∃ least, ∀ fuel, least ≤ fuel → ∀ fb, ∃ fb', writeConversion fuel fb conversion = .done fb' := by
  cases conversion with
  | char c => exact ⟨0, fun _ _ fb => ⟨_, rfl⟩⟩
  | string fm text =>
    refine ⟨fm.minWidth + 1, fun fuel hfuel fb => ?_⟩
    obtain ⟨fb', hrun | hzero⟩ := stringPadding_done (stringLoop fm text 0 fb).1
      (show fm.minWidth < fuel + (stringLoop fm text 0 fb).2 by omega)
    · exact ⟨fb', hrun⟩
    · omega
  | structString fm string =>
    refine ⟨1, fun fuel hfuel fb => ?_⟩
    obtain ⟨fuel, rfl⟩ : ∃ k, fuel = k + 1 := ⟨fuel - 1, by omega⟩
    have hstop := (structString_size_lt fm string).not.mpr (not_lt.mpr (hfits fm string rfl))
    exact ⟨_, if_neg hstop⟩
  | integer fm value =>
    exact ⟨0, fun _ _ fb => writeInteger_done fb value (hbase fm value rfl)⟩

/-! ### The main loop -/

/-- With enough fuel the main loop returns from this format, whatever was written before. -/
def Returns (fmt : List Char) (vlist : List Arg) : Prop :=
  ∃ least, ∀ fuel, least ≤ fuel → ∀ fb, ∃ result, formatLoop fuel fb fmt vlist = .done result

/-- A fuel for what follows the first round is one less than a fuel for the whole. -/
theorem returns_of_round {fmt : List Char} {vlist : List Arg} (least : ℕ)
    (h : ∀ fuel, least ≤ fuel → ∀ fb, ∃ result,
      formatLoop (fuel + 1) fb fmt vlist = .done result) : Returns fmt vlist := by
  refine ⟨least + 1, fun fuel hfuel fb => ?_⟩
  obtain ⟨fuel, rfl⟩ : ∃ k, fuel = k + 1 := ⟨fuel - 1, by omega⟩
  exact h fuel (by omega) fb

/-- **The main loop returns** when every conversion ends: a round takes at least one character. -/
theorem returns_of_fits {n : ℕ} {fmt : List Char} {vlist : List Arg} (hlen : fmt.length ≤ n)
    (hmatch : (scan n fmt vlist).2 ≠ some .argument)
    (hfits : ∀ conversion ∈ (scan n fmt vlist).1, conversion.Fits) : Returns fmt vlist := by
  induction n generalizing fmt vlist with
  | zero =>
    obtain rfl : fmt = [] := List.length_eq_zero_iff.mp (by omega)
    apply returns_of_round 0
    intro fuel _ fb
    obtain ⟨fb', hrun⟩ := formatLoop_end List.drop_nil fuel fb
    exact ⟨_, hrun⟩
  | succ n ih =>
    by_cases hend : fmt.drop (nextOffset fmt) = []
    · apply returns_of_round 0
      intro fuel _ fb
      obtain ⟨fb', hrun⟩ := formatLoop_end hend fuel fb
      exact ⟨_, hrun⟩
    cases hpercent : consume (fmt.drop (nextOffset fmt)) ['%', '%'] with
    | some rest =>
      have hrest := consume_length hpercent
      have hdrop := drop_length_le fmt
      simp only [List.length_cons] at hrest
      rw [scan_percent hend hpercent] at hmatch hfits
      obtain ⟨least, hleast⟩ := ih (by omega) hmatch hfits
      apply returns_of_round least
      intro fuel hfuel fb
      rw [formatLoop_percent hend hpercent]
      exact hleast fuel hfuel _
    | none =>
      cases hparse : parseConversion ((fmt.drop (nextOffset fmt)).drop 1) vlist with
      | done p =>
        obtain ⟨conversion, rest, vlist'⟩ := p
        have hlt := round_length hparse
        obtain ⟨_, hbase⟩ := (parseConversion_ends _ vlist).of_done hparse
        rw [scan_conversion hend hpercent hparse] at hmatch hfits
        obtain ⟨least, hleast⟩ := ih (by omega) hmatch
          fun c hc => hfits c (List.mem_cons_of_mem _ hc)
        obtain ⟨least', hleast'⟩ :=
          writeConversion_done (hfits conversion (List.mem_cons_self ..)) hbase
        apply returns_of_round (max least least')
        intro fuel hfuel fb
        obtain ⟨fb', hwrite⟩ := hleast' fuel (by omega) (writeLiteral fb fmt)
        rw [formatLoop_conversion hend hpercent hparse, hwrite, done_bind]
        exact hleast fuel (by omega) fb'
      | halt stop =>
        rw [scan_stop hend hpercent hparse] at hmatch
        cases stop with
        | error code =>
          apply returns_of_round 0
          intro fuel _ fb
          exact ⟨_, formatLoop_refused hend hpercent hparse fuel fb⟩
        | argument => exact absurd rfl hmatch
      | outOfFuel => exact absurd hparse (parseConversion_ends _ _).ne_outOfFuel

/-- **The main loop never returns** from a conversion that does not end. -/
theorem formatLoop_diverges {n : ℕ} {fmt : List Char} {vlist : List Arg} {conversion : Conversion}
    (hmem : conversion ∈ (scan n fmt vlist).1) (hfits : ¬ conversion.Fits) (fuel : ℕ)
    (fb : FmtBufState) (result : Option ErrorT × FmtBufState) :
    formatLoop fuel fb fmt vlist ≠ .done result := by
  induction n generalizing fmt vlist fuel fb with
  | zero => simp [scan] at hmem
  | succ n ih =>
    cases fuel with
    | zero => simp [formatLoop]
    | succ fuel =>
      by_cases hend : fmt.drop (nextOffset fmt) = []
      · simp [scan, hend] at hmem
      cases hpercent : consume (fmt.drop (nextOffset fmt)) ['%', '%'] with
      | some rest =>
        rw [scan_percent hend hpercent] at hmem
        rw [formatLoop_percent hend hpercent]
        exact ih hmem fuel _
      | none =>
        cases hparse : parseConversion ((fmt.drop (nextOffset fmt)).drop 1) vlist with
        | done p =>
          obtain ⟨first, rest, vlist'⟩ := p
          rw [scan_conversion hend hpercent hparse] at hmem
          rw [formatLoop_conversion hend hpercent hparse]
          intro hrun
          obtain ⟨fb', hwrite, hloop⟩ := bind_eq_done.mp hrun
          rcases List.mem_cons.mp hmem with rfl | hmem
          · rw [writeConversion_diverges hfits] at hwrite
            cases hwrite
          · exact ih hmem fuel fb' hloop
        | halt stop =>
          rw [scan_stop hend hpercent hparse] at hmem
          cases hmem
        | outOfFuel => exact absurd hparse (parseConversion_ends _ _).ne_outOfFuel

/-! ### The formatter -/

/-- A `%pS` that returns emits as many characters as its precision says. -/
def EmitsPrecision (fm : FmtSpec) (string : List Char) : Prop :=
  ∀ fb, ∃ fuel fb', writeConversion fuel fb (.structString fm string) = .done fb' ∧
    fb'.bytesWritten = add64 fb.bytesWritten fm.precision

theorem emitsPrecision_of_fits {fm : FmtSpec} {string : List Char} (hprecision : fm.hasPrecision)
    (hfits : fm.precision ≤ string.length) : EmitsPrecision fm string := by
  intro fb
  refine ⟨1, writeMany fb string fm.precision, ?_, rfl⟩
  simp only [writeConversion, structStringPadding]
  rw [if_pos hprecision, min_eq_left hfits, if_neg (lt_irrefl _)]

/-- **Termination.**  For arguments that match the format, `vsnprintf` returns and every `%.<p>pS`
emits exactly `p` characters if and only if no `%pS` has a precision that exceeds the size of its
string. -/
theorem vsnprintf_terminates_iff (fmtStr : List Char) (vlist : List Arg)
    (hmatch : Matching fmtStr vlist) :
    ((∀ buffer capacity, ∃ fuel result,
        vsnprintf fuel buffer capacity fmtStr vlist = .done result) ∧
      ∀ fm string, .structString fm string ∈ conversions fmtStr vlist → fm.hasPrecision →
        EmitsPrecision fm string) ↔
    ∀ conversion ∈ conversions fmtStr vlist, conversion.Fits := by
  constructor
  · rintro ⟨hends, _⟩ conversion hmem
    by_contra hfits
    obtain ⟨fuel, result, hrun⟩ := hends (fun _ => nul) 0
    obtain ⟨p, hloop, _⟩ := bind_eq_done.mp hrun
    exact formatLoop_diverges hmem hfits fuel _ p hloop
  · intro hfits
    refine ⟨fun buffer capacity => ?_, fun fm string hmem hprecision =>
      emitsPrecision_of_fits hprecision (hfits _ hmem fm string rfl)⟩
    obtain ⟨least, hleast⟩ := returns_of_fits le_rfl hmatch hfits
    obtain ⟨⟨error, fb⟩, hloop⟩ := hleast least le_rfl ⟨buffer, capacity, 0⟩
    cases error with
    | none => exact ⟨least, _, by rw [vsnprintf, hloop, done_bind]; rfl⟩
    | some code => exact ⟨least, _, by rw [vsnprintf, hloop, done_bind]; rfl⟩

/-- `%.1pS` of an empty string never returns. -/
theorem emptyString_diverges :
    Matching ['%', '.', '1', 'p', 'S'] [.structString (some [])] ∧
      ∀ fuel buffer capacity result, vsnprintf fuel buffer capacity ['%', '.', '1', 'p', 'S']
        [.structString (some [])] ≠ .done result := by
  refine ⟨by decide +kernel, fun fuel buffer capacity result hrun => ?_⟩
  obtain ⟨p, hloop, _⟩ := bind_eq_done.mp hrun
  have hmem : .structString { hasPrecision := true, precision := 1 } [] ∈
      (scan 5 ['%', '.', '1', 'p', 'S'] [.structString (some [])]).1 := by
    decide +kernel
  have hfits : ¬ (Conversion.structString { hasPrecision := true, precision := 1 } []).Fits :=
    fun h => absurd (h _ _ rfl) (by decide)
  exact formatLoop_diverges hmem hfits fuel _ p hloop

/-- `%.2pS` of a string of three characters returns. -/
theorem vsnprintf_terminates_iff_twoOfThree :
    ∃ fuel result, vsnprintf fuel (fun _ => nul) 4 ['%', '.', '2', 'p', 'S']
      [.structString (some ['a', 'b', 'c'])] = .done result := by
  have hscan : conversions ['%', '.', '2', 'p', 'S'] [.structString (some ['a', 'b', 'c'])] =
      [.structString { hasPrecision := true, precision := 2 } ['a', 'b', 'c']] := by
    decide +kernel
  refine ((vsnprintf_terminates_iff _ _ (by decide +kernel)).mpr ?_).1 _ _
  rw [hscan]
  intro conversion hmem fm string heq
  obtain rfl := List.mem_singleton.mp hmem
  obtain ⟨rfl, rfl⟩ := Conversion.structString.inj heq
  decide

end UltraKernel.Format
