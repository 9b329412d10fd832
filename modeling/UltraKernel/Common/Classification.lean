import UltraKernel.Common.Numerals

/-!
# How the conversions classify strings

`str_to_*` is meant to tell apart numerals that fit the type (`EOK`), numerals that do not
(`ERANGE`) and other strings (`EINVAL`).  A prefix without digits is accepted as zero, and a
character that is a hexadecimal digit but no digit of the base, or anything after digits that do
not fit, is reported as `ERANGE`.

* `doStrToU64_numeral`, `doStrToU64_other`: the unsigned conversion of a numeral, and of another
  string;
* `strTo_classifies_iff`: the strings that a conversion classifies as it should.
-/

namespace UltraKernel

open Positional

/-! ### Numerals -/

/-- **A numeral**: a sign, where `-` is one for the signed types only, and a body. -/
inductive Numeral (signed : Bool) : List Char → ℤ → Prop
  | plain {str} {v : ℕ} (h : NumeralBody str v) : Numeral signed str v
  | plus {str} {v : ℕ} (h : NumeralBody str v) : Numeral signed ('+' :: str) v
  | minus {str} {v : ℕ} (hsigned : signed) (h : NumeralBody str v) : Numeral signed ('-' :: str) (-v)

def IntType.Fits (t : IntType) (v : ℤ) : Prop := t.least ≤ v ∧ v ≤ t.greatest

instance (t : IntType) (v : ℤ) : Decidable (t.Fits v) := inferInstanceAs (Decidable (_ ∧ _))

theorem NumeralBody.head_isdigit {str : List Char} {v : ℕ} (h : NumeralBody str v) :
    ∃ c, str.head? = some c ∧ isdigit c := by
  cases h with
  | hex => exact ⟨'0', rfl, rfl⟩
  | binary => exact ⟨'0', rfl, rfl⟩
  | octal => exact ⟨'0', rfl, rfl⟩
  | decimal _ hdigits =>
    exact ⟨_, rfl, isdigit_of_isDigitOf (hdigits _ (List.mem_cons_self ..))⟩

/-- A numeral, through the sign that the conversions take off. -/
theorem numeral_iff {signed : Bool} {str : List Char} {v : ℤ} :
    Numeral signed str v ↔ ∃ u : ℕ, NumeralBody (afterSign signed str) u ∧
      v = if isNegative signed str then -(u : ℤ) else u := by
  constructor
  · intro h
    cases h with
    | @plain _ u h =>
      obtain ⟨c, hhead, hdigit⟩ := h.head_isdigit
      have hsign : ∀ d, ¬ isdigit d → ¬ strStartsWith str [d] := by
        intro d hd hstart
        rw [strStartsWith_singleton, hhead] at hstart
        exact hd (Option.some.inj hstart ▸ hdigit)
      have hplus := hsign '+' (by decide)
      have hminus := hsign '-' (by decide)
      exact ⟨u, by simpa [afterSign, hplus, hminus] using h, by simp [isNegative, hminus]⟩
    | @plus str u h =>
      refine ⟨u, ?_, ?_⟩
      · simpa [afterSign, strStartsWith] using h
      · simp [isNegative, strStartsWith]
    | @minus str u hsigned h =>
      refine ⟨u, ?_, ?_⟩
      · simpa [afterSign, strStartsWith, hsigned] using h
      · simp [isNegative, strStartsWith, hsigned]
  · rintro ⟨u, h, rfl⟩
    by_cases hplus : strStartsWith str ['+']
    · obtain ⟨rest, rfl⟩ := List.head?_eq_some_iff.mp (strStartsWith_singleton.mp hplus)
      have hafter : afterSign signed ('+' :: rest) = rest := by simp [afterSign, strStartsWith]
      have hnegative : isNegative signed ('+' :: rest) = false := by
        simp only [isNegative, strStartsWith, List.isPrefixOf_cons_cons, Char.reduceBEq,
          Bool.false_and, Bool.and_false]
      rw [hafter] at h
      rw [hnegative]
      exact .plus h
    by_cases hminus : signed ∧ strStartsWith str ['-']
    · obtain ⟨rest, rfl⟩ := List.head?_eq_some_iff.mp (strStartsWith_singleton.mp hminus.2)
      have hafter : afterSign signed ('-' :: rest) = rest := by
        simp [afterSign, strStartsWith, hminus.1]
      have hnegative : isNegative signed ('-' :: rest) = true := by
        simp [isNegative, strStartsWith, hminus.1]
      rw [hafter] at h
      rw [hnegative]
      exact .minus hminus.1 h
    · have hafter : afterSign signed str = str := by simp [afterSign, hplus, hminus]
      have hnegative : isNegative signed str = false := by
        rw [isNegative, ← Bool.not_eq_true, Bool.and_eq_true]
        exact hminus
      rw [hafter] at h
      rw [hnegative]
      exact .plain h

/-! ### The unsigned conversion -/

/-- Where the conversion judges a string, after its sign, as it should: a prefix has digits, and the
first character that is no digit of the base is no hexadecimal digit either and comes after digits
whose value fits. -/
structure Judged (str : List Char) : Prop where
  digits : (consumeBase str).1 ≠ 0 → (consumeBase str).2 = [] → (consumeBase str).1 = 8
  firstOther : (consumeBase str).1 ≠ 0 → ∀ c rest,
    afterDigits (consumeBase str).1 (consumeBase str).2 = c :: rest → ¬ isxdigit c ∧
      digitsValue (consumeBase str).1 (validDigits (consumeBase str).1 (consumeBase str).2) < 2 ^ 64

theorem doStrToU64_auto (str : List Char) :
    doStrToU64 str 0 = if (consumeBase str).1 = 0 then .error einval
      else doStrToU64Unchecked (consumeBase str).1 (consumeBase str).2 0 := by
  unfold doStrToU64
  simp

/-- **A numeral** is read as its value, if that fits 64 bits. -/
theorem doStrToU64_numeral {str : List Char} {v : ℕ} (h : NumeralBody str v) :
    doStrToU64 str 0 = if v < 2 ^ 64 then .ok v else .error erange := by
  obtain ⟨hbase, _, hdigits, rfl⟩ := numeralBody_iff.mp h
  rw [doStrToU64_auto, if_neg hbase, unchecked_eq (Nat.pos_of_ne_zero hbase),
    afterDigits_eq_nil.mpr hdigits, validDigits_of_all hdigits]

theorem NumeralBody.judged {str : List Char} {v : ℕ} (h : NumeralBody str v) : Judged str := by
  obtain ⟨_, hlead, hdigits, _⟩ := numeralBody_iff.mp h
  refine ⟨fun _ => hlead, fun _ c rest hafter => ?_⟩
  rw [afterDigits_eq_nil.mpr hdigits] at hafter
  cases hafter

/-- **Another string** is refused with `EINVAL` exactly where it is judged as it should. -/
theorem doStrToU64_other {str : List Char} (h : ∀ v, ¬ NumeralBody str v) :
    doStrToU64 str 0 = .error einval ↔ Judged str := by
  rw [doStrToU64_auto]
  by_cases hbase : (consumeBase str).1 = 0
  · rw [if_pos hbase]
    exact ⟨fun _ => ⟨fun hne => absurd hbase hne, fun hne => absurd hbase hne⟩, fun _ => rfl⟩
  rw [if_neg hbase, unchecked_eq (Nat.pos_of_ne_zero hbase)]
  have hrange : (.error erange : Except ErrorT ℕ) ≠ .error einval := by decide
  cases hafter : afterDigits (consumeBase str).1 (consumeBase str).2 with
  | nil =>
    -- only a prefix is left without being a numeral
    have hlead : ¬ ((consumeBase str).2 = [] → (consumeBase str).1 = 8) := fun hlead =>
      h _ (numeralBody_iff.mpr ⟨hbase, hlead, afterDigits_eq_nil.mp hafter, rfl⟩)
    refine iff_of_false ?_ fun hjudged => hlead (hjudged.digits hbase)
    dsimp only
    split_ifs
    · simp
    · exact hrange
  | cons c rest =>
    have hjudged : Judged str ↔ ¬ isxdigit c ∧ digitsValue (consumeBase str).1
        (validDigits (consumeBase str).1 (consumeBase str).2) < 2 ^ 64 := by
      refine ⟨fun hj => hj.firstOther hbase c rest hafter, fun hc => ⟨fun _ hnil => ?_, ?_⟩⟩
      · rw [hnil] at hafter
        cases hafter
      · intro _ c' rest' hafter'
        rw [hafter] at hafter'
        obtain ⟨rfl, _⟩ := List.cons.inj hafter'
        exact hc
    rw [hjudged]
    dsimp only
    by_cases hfits : digitsValue (consumeBase str).1
        (validDigits (consumeBase str).1 (consumeBase str).2) < 2 ^ 64
    · rw [if_pos hfits]
      by_cases hx : isxdigit c
      · rw [if_pos hx]
        exact iff_of_false hrange fun hc => hc.1 hx
      · rw [if_neg hx]
        exact iff_of_true rfl ⟨hx, hfits⟩
    · rw [if_neg hfits]
      exact iff_of_false hrange fun hc => hfits hc.2

/-! ### The conversions -/

/-- **The classification**: `EOK` for numerals that fit, `ERANGE` for those that do not, `EINVAL`
for every other string. -/
structure Classified (t : IntType) (str : List Char) : Prop where
  ok : (∃ v, t.strTo str = .ok v) ↔ ∃ v, Numeral t.isSigned str v ∧ t.Fits v
  range : t.strTo str = .error erange ↔ ∃ v, Numeral t.isSigned str v ∧ ¬ t.Fits v
  invalid : t.strTo str = .error einval ↔ ¬ ∃ v, Numeral t.isSigned str v

theorem IntType.fit_eq (t : IntType) (negative : Bool) (u : ℕ) :
    t.fit negative u = if t.Fits (if negative then -(u : ℤ) else u) then
      .ok (if negative then -(u : ℤ) else u) else .error erange := rfl

theorem IntType.not_fits_of_le (t : IntType) (negative : Bool) {u : ℕ} (h : 2 ^ 64 ≤ u) :
    ¬ t.Fits (if negative then -(u : ℤ) else u) := by
  cases t <;> cases negative <;>
    simp only [Fits, least, greatest, isSigned, bits, if_true, Bool.false_eq_true, if_false] <;>
    omega

/-- **A numeral is classified** by its value. -/
theorem strTo_numeral {t : IntType} {str : List Char} {v : ℤ} (h : Numeral t.isSigned str v) :
    t.strTo str = if t.Fits v then .ok v else .error erange := by
  obtain ⟨u, hbody, rfl⟩ := numeral_iff.mp h
  rw [IntType.strTo, IntType.strToWithBase_eq, doStrToU64_numeral hbody]
  by_cases hlt : u < 2 ^ 64
  · rw [if_pos hlt]
    exact t.fit_eq _ u
  · rw [if_neg hlt, if_neg (t.not_fits_of_le _ (not_lt.mp hlt))]
    rfl

theorem strTo_einval_iff {t : IntType} {str : List Char} :
    t.strTo str = .error einval ↔ doStrToU64 (afterSign t.isSigned str) 0 = .error einval := by
  rw [IntType.strTo, IntType.strToWithBase_eq]
  cases doStrToU64 (afterSign t.isSigned str) 0 with
  | error code =>
    exact ⟨fun h => congrArg _ (Except.error.inj h), fun h => congrArg _ (Except.error.inj h)⟩
  | ok u =>
    refine iff_of_false ?_ (by simp)
    change t.fit _ u ≠ _
    rw [t.fit_eq]
    generalize (if isNegative t.isSigned str then -(u : ℤ) else u) = v
    by_cases hfits : t.Fits v
    · simp [hfits]
    · simp [hfits, erange, einval]

theorem Numeral.unique {signed : Bool} {str : List Char} {v w : ℤ} (hv : Numeral signed str v)
    (hw : Numeral signed str w) : v = w := by
  obtain ⟨u, hu, rfl⟩ := numeral_iff.mp hv
  obtain ⟨u', hu', rfl⟩ := numeral_iff.mp hw
  rw [(numeralBody_iff.mp hu).2.2.2, (numeralBody_iff.mp hu').2.2.2]

/-- **The conversions classify a string** as they should exactly when it is judged as it should,
after its sign. -/
theorem strTo_classifies_iff (t : IntType) (str : List Char) :
    Classified t str ↔ Judged (afterSign t.isSigned str) := by
  have hcodes : erange ≠ einval := by decide
  by_cases hnumeral : ∃ v, Numeral t.isSigned str v
  · obtain ⟨v, hv⟩ := hnumeral
    obtain ⟨u, hbody, _⟩ := numeral_iff.mp hv
    refine iff_of_true ?_ hbody.judged
    have hread := strTo_numeral hv
    by_cases hfits : t.Fits v
    · rw [if_pos hfits] at hread
      constructor <;> rw [hread]
      · exact iff_of_true ⟨v, rfl⟩ ⟨v, hv, hfits⟩
      · refine iff_of_false (by simp) ?_
        rintro ⟨w, hw, hunfit⟩
        exact hunfit (hw.unique hv ▸ hfits)
      · exact iff_of_false (by simp) (not_not.mpr ⟨v, hv⟩)
    · rw [if_neg hfits] at hread
      constructor <;> rw [hread]
      · refine iff_of_false (by simp) ?_
        rintro ⟨w, hw, hfit⟩
        exact hfits (hw.unique hv ▸ hfit)
      · exact iff_of_true rfl ⟨v, hv, hfits⟩
      · exact iff_of_false (by simpa using hcodes) (not_not.mpr ⟨v, hv⟩)
  · have hbody : ∀ u, ¬ NumeralBody (afterSign t.isSigned str) u :=
      fun u hu => hnumeral ⟨_, numeral_iff.mpr ⟨u, hu, rfl⟩⟩
    rw [← doStrToU64_other hbody, ← strTo_einval_iff]
    refine ⟨fun hclass => hclass.invalid.mpr hnumeral, fun hread => ?_⟩
    constructor <;> rw [hread]
    · refine iff_of_false (by simp) ?_
      rintro ⟨w, hw, _⟩
      exact hnumeral ⟨w, hw⟩
    · refine iff_of_false (by simpa using Ne.symm hcodes) ?_
      rintro ⟨w, hw, _⟩
      exact hnumeral ⟨w, hw⟩
    · exact iff_of_true rfl hnumeral

theorem not_numeral {signed : Bool} {str : List Char}
    (h : ¬ (((consumeBase (afterSign signed str)).2 = [] → (consumeBase (afterSign signed str)).1 = 8) ∧
      ∀ c ∈ (consumeBase (afterSign signed str)).2,
        IsDigitOf (consumeBase (afterSign signed str)).1 c)) (v : ℤ) :
    ¬ Numeral signed str v := by
  intro hv
  obtain ⟨u, hu, _⟩ := numeral_iff.mp hv
  obtain ⟨_, hlead, hdigits, _⟩ := numeralBody_iff.mp hu
  exact h ⟨hlead, hdigits⟩

/-- **Strings that are classified wrong**: `0x` is read as zero, and `1a` and a letter after a
number of more than 64 bits are reported as out of range. -/
theorem strTo_misclassifies :
    ¬ Classified .u8 ['0', 'x'] ∧ ¬ Classified .i64 ['1', 'a'] ∧
      ¬ Classified .u64 (List.replicate 20 '9' ++ ['z']) := by
  refine ⟨fun hclass => ?_, fun hclass => ?_, fun hclass => ?_⟩
  · obtain ⟨v, hv, _⟩ := hclass.ok.mp ⟨0, by decide⟩
    exact not_numeral (by decide) v hv
  · obtain ⟨v, hv, _⟩ := hclass.range.mp (by decide)
    exact not_numeral (fun h => absurd (h.2 'a' (by decide)) (by decide)) v hv
  · obtain ⟨v, hv, _⟩ := hclass.range.mp (by decide +kernel)
    exact not_numeral (fun h => absurd (h.2 'z' (by decide)) (by decide)) v hv

end UltraKernel
