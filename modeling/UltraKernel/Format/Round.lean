import UltraKernel.Format.Parse

/-!
# One round of the main loop

What a round of `vsnprintf` does, as equations on `formatLoop`: it stops at the end of the format,
writes a `%` for `%%`, writes a conversion, or returns the error the conversion was refused with.
Each round that goes on has taken characters off the format.
-/

namespace UltraKernel.Format

open Outcome

section Round

variable {fmt rest : List Char} {vlist vlist' : List Arg} {conversion : Conversion}

theorem ne_nil_of_drop (hend : fmt.drop (nextOffset fmt) ≠ []) : fmt ≠ [] := by
  rintro rfl
  exact hend List.drop_nil

theorem drop_length_le (fmt : List Char) : (fmt.drop (nextOffset fmt)).length ≤ fmt.length := by
  rw [List.length_drop]
  omega

theorem formatLoop_end (hend : fmt.drop (nextOffset fmt) = []) (fuel : ℕ) (fb : FmtBufState) :
    ∃ fb', formatLoop (fuel + 1) fb fmt vlist = .done (none, fb') := by
  simp only [formatLoop, hend, if_true]
  split_ifs <;> exact ⟨_, rfl⟩

theorem formatLoop_percent (hend : fmt.drop (nextOffset fmt) ≠ [])
    (hpercent : consume (fmt.drop (nextOffset fmt)) ['%', '%'] = some rest) (fuel : ℕ)
    (fb : FmtBufState) : formatLoop (fuel + 1) fb fmt vlist =
      formatLoop fuel (writeOne (writeLiteral fb fmt) '%') rest vlist := by
  simp only [formatLoop]
  rw [if_neg (ne_nil_of_drop hend), if_neg hend, hpercent]

theorem formatLoop_conversion (hend : fmt.drop (nextOffset fmt) ≠ [])
    (hpercent : consume (fmt.drop (nextOffset fmt)) ['%', '%'] = none)
    (hparse : parseConversion ((fmt.drop (nextOffset fmt)).drop 1) vlist =
      .done (conversion, rest, vlist')) (fuel : ℕ) (fb : FmtBufState) :
    formatLoop (fuel + 1) fb fmt vlist =
      writeConversion fuel (writeLiteral fb fmt) conversion >>= fun fb =>
        formatLoop fuel fb rest vlist' := by
  simp only [formatLoop]
  rw [if_neg (ne_nil_of_drop hend), if_neg hend, hpercent, hparse]

theorem formatLoop_refused {code : ErrorT} (hend : fmt.drop (nextOffset fmt) ≠ [])
    (hpercent : consume (fmt.drop (nextOffset fmt)) ['%', '%'] = none)
    (hparse : parseConversion ((fmt.drop (nextOffset fmt)).drop 1) vlist =
      .halt (.error code)) (fuel : ℕ) (fb : FmtBufState) :
    formatLoop (fuel + 1) fb fmt vlist = .done (some code, writeLiteral fb fmt) := by
  simp only [formatLoop]
  rw [if_neg (ne_nil_of_drop hend), if_neg hend, hpercent, hparse]

theorem formatLoop_mismatch (hend : fmt.drop (nextOffset fmt) ≠ [])
    (hpercent : consume (fmt.drop (nextOffset fmt)) ['%', '%'] = none)
    (hparse : parseConversion ((fmt.drop (nextOffset fmt)).drop 1) vlist = .halt .argument)
    (fuel : ℕ) (fb : FmtBufState) :
    formatLoop (fuel + 1) fb fmt vlist = .halt .argument := by
  simp only [formatLoop]
  rw [if_neg (ne_nil_of_drop hend), if_neg hend, hpercent, hparse]

/-- A round that reads a conversion takes its `%` and more. -/
theorem round_length (hparse : parseConversion ((fmt.drop (nextOffset fmt)).drop 1) vlist =
    .done (conversion, rest, vlist')) : rest.length < fmt.length := by
  obtain ⟨hlt, _⟩ := (parseConversion_ends _ vlist).of_done hparse
  have := drop_length_le fmt
  simp only [List.length_drop] at *
  omega

end Round

/-- The formatter refuses a conversion with `EINVAL` or `ERANGE`. -/
theorem formatLoop_error {fuel : ℕ} {fb fb' : FmtBufState} {fmt : List Char} {vlist : List Arg}
    {code : ErrorT} (h : formatLoop fuel fb fmt vlist = .done (some code, fb')) :
    code = einval ∨ code = erange := by
  induction fuel generalizing fb fmt vlist with
  | zero => simp [formatLoop] at h
  | succ fuel ih =>
    by_cases hend : fmt.drop (nextOffset fmt) = []
    · obtain ⟨fb'', hrun⟩ := formatLoop_end hend fuel fb
      rw [hrun] at h
      cases h
    cases hpercent : consume (fmt.drop (nextOffset fmt)) ['%', '%'] with
    | some rest =>
      rw [formatLoop_percent hend hpercent] at h
      exact ih h
    | none =>
      have hends := parseConversion_ends ((fmt.drop (nextOffset fmt)).drop 1) vlist
      cases hparse : parseConversion ((fmt.drop (nextOffset fmt)).drop 1) vlist with
      | done p =>
        rw [formatLoop_conversion hend hpercent hparse] at h
        obtain ⟨_, _, hloop⟩ := bind_eq_done.mp h
        exact ih hloop
      | halt stop =>
        rw [hparse] at hends
        cases stop with
        | error code' =>
          rw [formatLoop_refused hend hpercent hparse] at h
          obtain ⟨hcode, _⟩ := Prod.mk.inj (Outcome.done.inj h)
          exact hends code (by rw [Option.some.inj hcode])
        | argument =>
          rw [formatLoop_mismatch hend hpercent hparse] at h
          cases h
      | outOfFuel => exact absurd hparse hends.ne_outOfFuel

end UltraKernel.Format
