import UltraKernel.Format.Model

/-!
# Reading conversions

Every function that reads a part of a conversion ends, leaves at most the format it was given, and
reports no error but `EINVAL` and `ERANGE`; the specifier takes at least one character.  The base
of a conversion is 8, 10 or 16.  The statements are about `Ends`, so they compose along the
sequence of the source.
-/

namespace UltraKernel

open Outcome

theorem doStrToU64Unchecked_error {base number : ℕ} {str : List Char} {code : ErrorT}
    (h : doStrToU64Unchecked base str number = .error code) : code = einval ∨ code = erange := by
  induction str generalizing number with
  | nil => simp [doStrToU64Unchecked] at h
  | cons c str ih =>
    simp only [doStrToU64Unchecked] at h
    split_ifs at h
    · exact Or.inl (Except.error.inj h).symm
    all_goals first | exact Or.inr (Except.error.inj h).symm | exact ih h

theorem strToU64WithBase_error {base : ℕ} {str : List Char} {code : ErrorT}
    (h : strToU64WithBase str base = .error code) : code = einval ∨ code = erange := by
  simp only [strToU64WithBase, doStrToU64] at h
  split_ifs at h
  all_goals first | exact Or.inl (Except.error.inj h).symm | exact doStrToU64Unchecked_error h

namespace Format

/-! ### Consuming characters -/

theorem consume_length {fmt tok rest : List Char} (h : consume fmt tok = some rest) :
    rest.length + tok.length = fmt.length := by
  unfold consume strStartsWith at h
  split_ifs at h with hpre
  obtain rfl := Option.some.inj h
  have hle := (List.isPrefixOf_iff_prefix.mp hpre).length_le
  rw [List.length_drop]
  omega

theorem consumeOneOf_length {str tokList rest : List Char} {c : Char}
    (h : consumeOneOf str tokList = some (c, rest)) : rest.length + 1 = str.length := by
  cases str with
  | nil => simp [consumeOneOf] at h
  | cons d str =>
    simp only [consumeOneOf] at h
    split_ifs at h
    simp only [Option.some.injEq, Prod.mk.injEq] at h
    simp [h.2]

theorem consumeDigits_length (fmt : List Char) : (consumeDigits fmt).2.length ≤ fmt.length := by
  induction fmt with
  | nil => simp [consumeDigits]
  | cons c fmt ih =>
    simp only [consumeDigits]
    split_ifs
    · exact ih.trans (by simp)
    · simp

/-! ### Parts of a conversion -/

/-- The errors a conversion is refused with. -/
def Refuses (stop : ParseStop) : Prop :=
  ∀ code, stop = .error code → code = einval ∨ code = erange

theorem refuses_argument : Refuses .argument := by
  intro code h
  cases h

theorem refuses_einval : Refuses (.error einval) := by
  intro code h
  exact Or.inl (ParseStop.error.inj h).symm

theorem parseNumber_ends (fmt : List Char) (mode : ParseNumberMode) (outValue : ℕ) :
    Ends Refuses (fun p => p.2.length ≤ fmt.length) (parseNumber fmt mode outValue) := by
  have hlen := consumeDigits_length fmt
  unfold parseNumber
  dsimp only
  split_ifs
  · exact refuses_einval
  · exact hlen
  · cases hvalue : strToU64WithBase (consumeDigits fmt).1 10 with
    | ok value => exact hlen
    | error code =>
      intro code' h
      obtain rfl := ParseStop.error.inj h
      exact strToU64WithBase_error hvalue

theorem setFlag_ends (fm : FmtSpec) (flag : Char) :
    Ends Refuses (fun fm' => fm'.base = fm.base) (setFlag fm flag) := by
  unfold setFlag
  split_ifs
  all_goals first | exact refuses_einval | rfl

theorem parseFlags_ends (fm : FmtSpec) (fmt : List Char) :
    Ends Refuses (fun p => p.2.length ≤ fmt.length ∧ p.1.base = fm.base) (parseFlags fm fmt) := by
  induction fmt generalizing fm with
  | nil => exact ⟨le_rfl, rfl⟩
  | cons flag fmt ih =>
    simp only [parseFlags]
    split_ifs
    · refine (setFlag_ends fm flag).bind fun fm' hbase => (ih fm').mono (fun _ h => h) fun p hp => ?_
      exact ⟨hp.1.trans (by simp), hp.2.trans hbase⟩
    · exact ⟨le_rfl, rfl⟩

section VaArg

variable (vlist : List Arg)

theorem vaInt_ends : Ends Refuses (fun _ => True) (vaInt vlist) := by
  unfold vaInt
  split
  · trivial
  · exact refuses_argument

theorem vaLongLong_ends : Ends Refuses (fun _ => True) (vaLongLong vlist) := by
  unfold vaLongLong
  split
  · trivial
  · exact refuses_argument

theorem vaString_ends : Ends Refuses (fun _ => True) (vaString vlist) := by
  unfold vaString
  split
  · trivial
  · exact refuses_argument

theorem vaStructString_ends : Ends Refuses (fun _ => True) (vaStructString vlist) := by
  unfold vaStructString
  split
  · trivial
  · exact refuses_argument

theorem vaPointer_ends : Ends Refuses (fun _ => True) (vaPointer vlist) := by
  unfold vaPointer
  split
  · trivial
  · exact refuses_argument

theorem vaArg_ends (isSigned : Bool) (length : Length) :
    Ends Refuses (fun _ => True) (length.vaArg isSigned vlist) := by
  cases length with
  | hh => exact (vaInt_ends vlist).bind fun _ _ => trivial
  | h => exact (vaInt_ends vlist).bind fun _ _ => trivial
  | ll => exact vaLongLong_ends vlist
  | none => exact (vaInt_ends vlist).bind fun _ _ => trivial

end VaArg

theorem parseWidth_ends (fm : FmtSpec) (fmt : List Char) (vlist : List Arg) :
    Ends Refuses (fun p => p.2.1.length ≤ fmt.length ∧ p.1.base = fm.base)
      (parseWidth fm fmt vlist) := by
  unfold parseWidth
  cases hstar : consume fmt ['*'] with
  | some rest =>
    have := consume_length hstar
    exact (vaInt_ends vlist).bind fun _ _ => ⟨Nat.le.intro this, rfl⟩
  | none => exact (parseNumber_ends fmt .maybe _).bind fun _ h => ⟨h, rfl⟩

theorem parsePrecision_ends (fm : FmtSpec) (fmt : List Char) (vlist : List Arg) :
    Ends Refuses (fun p => p.2.1.length ≤ fmt.length ∧ p.1.base = fm.base)
      (parsePrecision fm fmt vlist) := by
  unfold parsePrecision
  cases hdot : consume fmt ['.'] with
  | none => exact ⟨le_rfl, rfl⟩
  | some rest =>
    have hrest := consume_length hdot
    dsimp only
    cases hstar : consume rest ['*'] with
    | some rest' =>
      have := consume_length hstar
      refine (vaInt_ends vlist).bind fun _ _ => ?_
      exact ⟨(Nat.le.intro this).trans (Nat.le.intro hrest), rfl⟩
    | none =>
      exact (parseNumber_ends rest .must _).bind fun _ h => ⟨h.trans (Nat.le.intro hrest), rfl⟩

/-- The bases `write_integer` knows. -/
def KnownBase (base : ℕ) : Prop := base = 8 ∨ base = 10 ∨ base = 16

theorem knownBase_specifier (specifier : Char) : KnownBase (baseFromSpecifier specifier) := by
  unfold baseFromSpecifier KnownBase
  split_ifs <;> simp

/-- What is left of the format, and the base of an integer conversion. -/
def Parsed (fmt : List Char) (p : Conversion × List Char × List Arg) : Prop :=
  p.2.1.length < fmt.length ∧ ∀ fm value, p.1 = .integer fm value → KnownBase fm.base

theorem parsed_integer {fmt rest : List Char} {vlist : List Arg} {fm : FmtSpec} {value : BitVec 64}
    (hlt : rest.length < fmt.length) (hbase : KnownBase fm.base) :
    Parsed fmt (.integer fm value, rest, vlist) := by
  refine ⟨hlt, fun fm' value' h => ?_⟩
  obtain ⟨rfl, _⟩ := Conversion.integer.inj h
  exact hbase

theorem parsed_text {fmt rest : List Char} {vlist : List Arg} {conversion : Conversion}
    (hlt : rest.length < fmt.length) (hne : ∀ fm value, conversion ≠ .integer fm value) :
    Parsed fmt (conversion, rest, vlist) :=
  ⟨hlt, fun fm value h => absurd h (hne fm value)⟩

section Specifier

variable {fm : FmtSpec}

theorem parseInteger_ends (hbase : fm.base = 10) (length : Length) (fmt : List Char)
    (vlist : List Arg) : Ends Refuses (Parsed fmt) (parseInteger length fm fmt vlist) := by
  unfold parseInteger
  cases hd : (consume fmt ['d']).or (consume fmt ['i']) with
  | some rest =>
    have hrest : rest.length + 1 = fmt.length := by
      rcases Option.or_eq_some_iff.mp hd with h | ⟨_, h⟩ <;> exact consume_length h
    refine (vaArg_ends vlist true length).bind fun _ _ => parsed_integer (by omega) ?_
    exact Or.inr (Or.inl hbase)
  | none =>
    dsimp only
    cases hflag : consumeOneOf fmt ['o', 'x', 'X', 'u'] with
    | some p =>
      obtain ⟨flag, rest⟩ := p
      have hrest := consumeOneOf_length hflag
      refine (vaArg_ends vlist false length).bind fun _ _ => parsed_integer (by omega) ?_
      exact knownBase_specifier flag
    | none => exact refuses_einval

theorem parseSpecifier_ends (hbase : fm.base = 10) (fmt : List Char) (vlist : List Arg) :
    Ends Refuses (Parsed fmt) (parseSpecifier fm fmt vlist) := by
  have hlt : ∀ {f rest : List Char} {tok}, consume f tok = some rest → tok ≠ [] →
      f.length ≤ fmt.length → rest.length < fmt.length := by
    intro f rest tok h hne hle
    have := consume_length h
    have := List.length_pos_iff.mpr hne
    omega
  have hint : ∀ length {rest : List Char} {tok}, consume fmt tok = some rest →
      Ends Refuses (Parsed fmt) (parseInteger length fm rest vlist) := by
    intro length rest tok h
    have := consume_length h
    exact (parseInteger_ends hbase length rest vlist).mono (fun _ h => h)
      fun p hp => ⟨hp.1.trans_le (by omega), hp.2⟩
  unfold parseSpecifier
  split
  · rename_i rest h
    exact (vaInt_ends vlist).bind fun _ _ => parsed_text (hlt h (by simp) le_rfl) (by simp)
  split
  · rename_i rest h
    exact (vaString_ends vlist).bind fun _ _ => parsed_text (hlt h (by simp) le_rfl) (by simp)
  split
  · rename_i rest h
    have hrest := hlt h (by simp) le_rfl
    split
    · rename_i rest' h'
      exact (vaStructString_ends vlist).bind fun _ _ =>
        parsed_text (hlt h' (by simp) hrest.le) (by simp)
    · exact (vaPointer_ends vlist).bind fun _ _ => parsed_integer hrest (Or.inr (Or.inr rfl))
  split
  · exact hint .hh ‹_›
  split
  · exact hint .h ‹_›
  split
  · rename_i rest h
    rcases Option.or_eq_some_iff.mp h with h | ⟨_, h⟩ <;> exact hint .ll h
  split
  · exact hint .ll ‹_›
  · exact parseInteger_ends hbase .none fmt vlist

end Specifier

/-- **Reading a conversion** ends, takes at least its specifier, chooses a known base, and is
refused with `EINVAL` or `ERANGE` only. -/
theorem parseConversion_ends (fmt : List Char) (vlist : List Arg) :
    Ends Refuses (Parsed fmt) (parseConversion fmt vlist) := by
  unfold parseConversion
  refine (parseFlags_ends {} fmt).bind fun p hp => ?_
  refine (parseWidth_ends p.1 p.2 vlist).bind fun q hq => ?_
  refine (parsePrecision_ends q.1 q.2.1 q.2.2).bind fun r hr => ?_
  have hbase : r.1.base = 10 := hr.2.trans (hq.2.trans hp.2)
  exact (parseSpecifier_ends hbase r.2.1 r.2.2).mono (fun _ h => h)
    fun _ h => ⟨h.1.trans_le (hr.1.trans (hq.1.trans hp.1)), h.2⟩

end Format

end UltraKernel
