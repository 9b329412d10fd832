import UltraKernel.Common.Numerals
import UltraKernel.Common.StringContainer
import UltraKernel.Param.Operations

/-!
# The conversions on `struct string`, with their results behind pointers

The functions of `common/conversions.c` and the `set` operations of `param.c` once more, now on a
`struct string`: they stop where `BUG_ON` would or where a character outside the string is read,
and `*res` goes in and out.  A `res` is an integer; a local variable that is not initialised starts
as 0, and is read only after a success.

* `strToWithBase_holds`, `paramSet_holds`: they do what the functions on lists of characters do;
* `strToWithBase_exact`: what a success stores, and that a failure stores nothing.
-/

namespace UltraKernel.Sized

open Outcome Word Positional UltraKernel.Param

/-! ### Strings -/

/-- The loop of `str_starts_with`, over the rest of the prefix from the index on. -/
def startsWithLoop (str : Str) : ℕ → List Char → Outcome StringBug Bool
  | _, [] => .done true
  | i, c :: pre => do
    if (← charAt str i) ≠ c then return false else startsWithLoop str (i + 1) pre

def strStartsWith (str : Str) (pre : List Char) : Outcome StringBug Bool :=
  if pre.length > str.size then .done false else startsWithLoop str 0 pre

/-- The character that is popped and the string after it, if there is one. -/
def strPopOne (str : Str) : Outcome StringBug (Option (Char × Str)) :=
  if strEmpty str then .done none
  else do
    let c ← charAt str 0
    let str ← strOffsetBy str 1
    return some (c, str)

/-! ### Conversions -/

def consumeBase (str : Str) : Outcome StringBug (ℕ × Str) :=
  if strEmpty str then .done (0, str)
  else do
    if ← strStartsWith str ['0', 'x'] then
      let str ← strOffsetBy str 2
      return (16, str)
    else if ← strStartsWith str ['0', 'b'] then
      let str ← strOffsetBy str 2
      return (2, str)
    else if ← strStartsWith str ['0'] then
      let str ← strOffsetBy str 1
      return (8, str)
    else if isdigit (← charAt str 0) then return (10, str)
    else return (0, str)

/-- The loop of `do_str_to_u64_unchecked`. -/
def uncheckedLoop (base : ℕ) (res : ℤ) : ℕ → Str → ℕ → Outcome StringBug (ErrorT × ℤ)
  | 0, _, _ => .outOfFuel
  | fuel + 1, str, number => do
    match ← strPopOne str with
    | none => return (eok, number)
    | some (c, str) =>
      if ¬ isdigit c ∧ ¬ isxdigit c then return (einval, res)
      else
        let digit := if isdigit c then c.toNat - '0'.toNat else 10 + (tolower c).toNat - 'a'.toNat
        let next := add64 (mul64 number base) digit
        if next / base ≠ number then return (erange, res)
        else uncheckedLoop base res fuel str next

def doStrToU64Unchecked (str : Str) (res : ℤ) (base : ℕ) : Outcome StringBug (ErrorT × ℤ) :=
  uncheckedLoop base res (str.size + 1) str 0

def doStrToU64 (str : Str) (res : ℤ) (base : ℕ) : Outcome StringBug (ErrorT × ℤ) := do
  let (cb, str) ← consumeBase str
  if base = 0 ∧ cb = 0 then return (einval, res)
  else doStrToU64Unchecked str res (if base ≠ 0 then base else cb)

/-- The optional plus of the signed and unsigned functions. -/
def skipPlus (str : Str) : Outcome StringBug Str := do
  if ← strStartsWith str ['+'] then strOffsetBy str 1 else return str

def strToI64WithBase (str : Str) (res : ℤ) (base : ℕ) : Outcome StringBug (ErrorT × ℤ) := do
  if ← strStartsWith str ['-'] then
    let str ← strOffsetBy str 1
    let (ret, ures) ← doStrToU64 str 0 base
    if ret ≠ eok then return (ret, res)
    else if 0 < (-BitVec.ofInt 64 ures).toInt then return (erange, res)
    else return (eok, (-BitVec.ofInt 64 ures).toInt)
  else
    let str ← skipPlus str
    let (ret, ures) ← doStrToU64 str 0 base
    if ret ≠ eok then return (ret, res)
    else if ures > int64Max then return (erange, res)
    else return (eok, (BitVec.ofInt 64 ures).toInt)

def strToU64WithBase (str : Str) (res : ℤ) (base : ℕ) : Outcome StringBug (ErrorT × ℤ) := do
  let str ← skipPlus str
  if ← strStartsWith str ['-'] then return (einval, res)
  else doStrToU64 str res base

/-- The signed functions of fewer bits. -/
def narrowSignedWithBase (bits : ℕ) (str : Str) (res : ℤ) (base : ℕ) :
    Outcome StringBug (ErrorT × ℤ) := do
  let (ret, ires) ← strToI64WithBase str 0 base
  if ret ≠ eok then return (ret, res)
  else if (BitVec.ofInt bits ires).toInt ≠ ires then return (erange, res)
  else return (eok, (BitVec.ofInt bits ires).toInt)

/-- The unsigned functions of fewer bits. -/
def narrowUnsignedWithBase (bits : ℕ) (str : Str) (res : ℤ) (base : ℕ) :
    Outcome StringBug (ErrorT × ℤ) := do
  let (ret, ures) ← strToU64WithBase str 0 base
  if ret ≠ eok then return (ret, res)
  else if ures % 2 ^ bits ≠ ures then return (erange, res)
  else return (eok, ures % 2 ^ bits)

def strToI32WithBase : Str → ℤ → ℕ → Outcome StringBug (ErrorT × ℤ) := narrowSignedWithBase 32

def strToU32WithBase : Str → ℤ → ℕ → Outcome StringBug (ErrorT × ℤ) := narrowUnsignedWithBase 32

def strToI16WithBase : Str → ℤ → ℕ → Outcome StringBug (ErrorT × ℤ) := narrowSignedWithBase 16

def strToU16WithBase : Str → ℤ → ℕ → Outcome StringBug (ErrorT × ℤ) := narrowUnsignedWithBase 16

def strToI8WithBase : Str → ℤ → ℕ → Outcome StringBug (ErrorT × ℤ) := narrowSignedWithBase 8

def strToU8WithBase : Str → ℤ → ℕ → Outcome StringBug (ErrorT × ℤ) := narrowUnsignedWithBase 8

/-- The functions `str_to_*_with_base`. -/
def strToWithBase (str : Str) (res : ℤ) (base : ℕ) :
    IntType → Outcome StringBug (ErrorT × ℤ)
  | .i8 => strToI8WithBase str res base
  | .u8 => strToU8WithBase str res base
  | .i16 => strToI16WithBase str res base
  | .u16 => strToU16WithBase str res base
  | .i32 => strToI32WithBase str res base
  | .u32 => strToU32WithBase str res base
  | .i64 => strToI64WithBase str res base
  | .u64 => strToU64WithBase str res base

/-! ### `set` operations -/

/-- `PARAM_SET_OPS_TEMPLATE`, for a parameter with the value `*res`. -/
def paramSet (t : IntType) (str : Str) (res : ℤ) : Outcome StringBug (ErrorT × ℤ) :=
  strToWithBase str res 0 t

/-- An empty value means true. -/
def paramSetBool (str : Str) (res : Bool) : Outcome StringBug (ErrorT × Bool) :=
  if strEmpty str then .done (eok, true) else .done (store res (strToBool str.chars))

def paramSetString (str : Str) (_res : List Char) : Outcome StringBug (ErrorT × List Char) :=
  .done (eok, str.chars)

/-! ### Agreement with the functions on lists -/

section Holds

variable {str : Str} {line rest : List Char} {c : Char}

/-- A read inside the string. -/
theorem charAt_holds {text : List Char} {i : ℕ} (h : str.Holds text) (hi : text[i]? = some c) :
    charAt str i = .done c := by
  rw [charAt, h.chars_eq, hi]

theorem startsWithLoop_holds {text pre : List Char} {i : ℕ} (h : str.Holds text)
    (hlen : i + pre.length ≤ text.length) :
    startsWithLoop str i pre = .done (UltraKernel.strStartsWith (text.drop i) pre) := by
  induction pre generalizing i with
  | nil => rw [startsWithLoop, UltraKernel.strStartsWith, List.isPrefixOf_nil_left]
  | cons c pre ih =>
    rw [List.length_cons] at hlen
    have hi : i < text.length := by omega
    have hdrop : text.drop i = text[i] :: text.drop (i + 1) := List.drop_eq_getElem_cons hi
    rw [startsWithLoop, charAt_holds h (List.getElem?_eq_getElem hi), done_bind, hdrop,
      UltraKernel.strStartsWith, List.isPrefixOf_cons_cons]
    by_cases hc : text[i] = c
    · rw [if_neg (not_not.mpr hc), ih (by omega), hc, beq_self_eq_true, Bool.true_and]
      rfl
    · rw [if_pos hc, beq_false_of_ne (Ne.symm hc), Bool.false_and]
      rfl

theorem strStartsWith_holds (h : str.Holds line) (pre : List Char) :
    strStartsWith str pre = .done (UltraKernel.strStartsWith line pre) := by
  rw [strStartsWith, h.size]
  by_cases hlen : pre.length > line.length
  · rw [if_pos hlen, UltraKernel.strStartsWith]
    have hfalse : pre.isPrefixOf line = false := by
      rw [← Bool.not_eq_true, List.isPrefixOf_iff_prefix]
      intro hprefix
      have := hprefix.length_le
      omega
    rw [hfalse]
  · rw [if_neg hlen]
    exact startsWithLoop_holds h (by omega)

theorem strPopOne_nil (h : str.Holds []) : strPopOne str = .done none := by
  rw [strPopOne, if_pos (by simpa using h.strEmpty)]

theorem strPopOne_cons (h : str.Holds (c :: line)) :
    ∃ str', strPopOne str = .done (some (c, str')) ∧ str'.Holds line := by
  obtain ⟨str', hoffset, hstr', _⟩ := @strOffsetBy_holds str (c :: line) 1 h (by simp)
  refine ⟨str', ?_, hstr'⟩
  rw [strPopOne, if_neg (by simpa using h.strEmpty), h.charAt_zero, done_bind, hoffset, done_bind]
  rfl

/-- The characters that `str_starts_with` has found can be passed. -/
theorem strOffsetBy_prefix {pre : List Char} (h : str.Holds line)
    (hstart : UltraKernel.strStartsWith line pre = true) :
    ∃ str', strOffsetBy str pre.length = .done str' ∧ str'.Holds (line.drop pre.length) := by
  rw [UltraKernel.strStartsWith, List.isPrefixOf_iff_prefix] at hstart
  obtain ⟨str', hoffset, hstr', _⟩ := strOffsetBy_holds h hstart.length_le
  exact ⟨str', hoffset, hstr'⟩

theorem consumeBase_holds (h : str.Holds line) :
    ∃ str', consumeBase str = .done ((UltraKernel.consumeBase line).1, str') ∧
      str'.Holds (UltraKernel.consumeBase line).2 := by
  cases line with
  | nil =>
    rw [consumeBase, if_pos (by simpa using h.strEmpty)]
    exact ⟨str, rfl, h⟩
  | cons c line =>
    rw [consumeBase, if_neg (by simpa using h.strEmpty), UltraKernel.consumeBase]
    simp only [strStartsWith_holds h, done_bind]
    split_ifs with hhex hbinary hoctal hdigit
    · obtain ⟨str', hoffset, hstr'⟩ := strOffsetBy_prefix h hhex
      exact ⟨str', by rw [show 2 = ['0', 'x'].length from rfl, hoffset]; rfl, hstr'⟩
    · obtain ⟨str', hoffset, hstr'⟩ := strOffsetBy_prefix h hbinary
      exact ⟨str', by rw [show 2 = ['0', 'b'].length from rfl, hoffset]; rfl, hstr'⟩
    · obtain ⟨str', hoffset, hstr'⟩ := strOffsetBy_prefix h hoctal
      exact ⟨str', by rw [show 1 = ['0'].length from rfl, hoffset]; rfl, hstr'⟩
    · have hc : isdigit c = true := hdigit
      rw [h.charAt_zero, done_bind, if_pos hc]
      exact ⟨str, rfl, h⟩
    · have hc : ¬ isdigit c = true := hdigit
      rw [h.charAt_zero, done_bind, if_neg hc]
      exact ⟨str, rfl, h⟩

/-- **The digit loop** stores what the one on lists returns. -/
theorem uncheckedLoop_holds (base : ℕ) (res : ℤ) {fuel number : ℕ} (hfuel : line.length < fuel)
    (h : str.Holds line) : uncheckedLoop base res fuel str number =
      .done (store res (Int.ofNat <$> UltraKernel.doStrToU64Unchecked base line number)) := by
  induction line generalizing str fuel number with
  | nil =>
    obtain ⟨fuel, rfl⟩ : ∃ n, fuel = n + 1 := ⟨fuel - 1, by omega⟩
    rw [uncheckedLoop, strPopOne_nil h]
    rfl
  | cons c line ih =>
    obtain ⟨fuel, rfl⟩ : ∃ n, fuel = n + 1 := ⟨fuel - 1, by omega⟩
    rw [List.length_cons] at hfuel
    obtain ⟨str', hpop, hstr'⟩ := strPopOne_cons h
    rw [uncheckedLoop, hpop, done_bind, UltraKernel.doStrToU64Unchecked]
    dsimp only
    generalize (if isdigit c = true then c.toNat - '0'.toNat
      else 10 + (tolower c).toNat - 'a'.toNat) = digit
    split_ifs
    · rfl
    · rfl
    · exact ih (by omega) hstr'

theorem doStrToU64_holds (h : str.Holds line) (res : ℤ) (base : ℕ) :
    doStrToU64 str res base =
      .done (store res (Int.ofNat <$> UltraKernel.doStrToU64 line base)) := by
  obtain ⟨str', hconsume, hstr'⟩ := consumeBase_holds h
  rw [doStrToU64, hconsume, done_bind, UltraKernel.doStrToU64]
  dsimp only
  split_ifs
  · rfl
  all_goals
    rw [doStrToU64Unchecked]
    exact uncheckedLoop_holds _ res (by rw [hstr'.size]; omega) hstr'

theorem skipPlus_holds (h : str.Holds line) :
    ∃ str', skipPlus str = .done str' ∧
      str'.Holds (if UltraKernel.strStartsWith line ['+'] then line.drop 1 else line) := by
  rw [skipPlus, strStartsWith_holds h, done_bind]
  split_ifs with hplus
  · obtain ⟨str', hoffset, hstr'⟩ := strOffsetBy_prefix h hplus
    exact ⟨str', hoffset, hstr'⟩
  · exact ⟨str, rfl, h⟩

theorem strToU64WithBase_holds (h : str.Holds line) (res : ℤ) (base : ℕ) :
    strToU64WithBase str res base =
      .done (store res (Int.ofNat <$> UltraKernel.strToU64WithBase line base)) := by
  obtain ⟨str', hskip, hstr'⟩ := skipPlus_holds h
  rw [strToU64WithBase, hskip, done_bind, strStartsWith_holds hstr', done_bind,
    UltraKernel.strToU64WithBase]
  generalize (if UltraKernel.strStartsWith line ['+'] = true then line.drop 1 else line) = rest
    at hstr'
  by_cases hminus : UltraKernel.strStartsWith rest ['-'] = true
  · rw [if_pos hminus, if_pos hminus]
    rfl
  · rw [if_neg hminus, if_neg hminus]
    exact doStrToU64_holds hstr' res base

/-- The errors of the conversions are none of them `EOK`. -/
theorem unchecked_error {base number : ℕ} {code : ErrorT}
    (h : UltraKernel.doStrToU64Unchecked base line number = .error code) : code ≠ eok := by
  induction line generalizing number with
  | nil => cases h
  | cons c line ih =>
    rw [UltraKernel.doStrToU64Unchecked] at h
    dsimp only at h
    generalize (if isdigit c = true then c.toNat - '0'.toNat
      else 10 + (tolower c).toNat - 'a'.toNat) = digit at h
    split_ifs at h
    · rw [← Except.error.inj h]
      decide
    · rw [← Except.error.inj h]
      decide
    · exact ih h

theorem doStrToU64_error {base : ℕ} {code : ErrorT}
    (h : UltraKernel.doStrToU64 line base = .error code) : code ≠ eok := by
  rw [UltraKernel.doStrToU64] at h
  dsimp only at h
  split_ifs at h
  · rw [← Except.error.inj h]
    decide
  all_goals exact unchecked_error h

theorem fit_error {t : IntType} {negative : Bool} {u : ℕ} {code : ErrorT}
    (h : t.fit negative u = .error code) : code ≠ eok := by
  rw [IntType.fit] at h
  split_ifs at h
  all_goals
    rw [← Except.error.inj h]
    decide

theorem strToWithBase_error {t : IntType} {base : ℕ} {code : ErrorT}
    (h : t.strToWithBase line base = .error code) : code ≠ eok := by
  rw [IntType.strToWithBase_eq] at h
  cases hures : UltraKernel.doStrToU64 (afterSign t.isSigned line) base with
  | error code' =>
    rw [hures] at h
    rw [← Except.error.inj h]
    exact doStrToU64_error hures
  | ok ures =>
    rw [hures] at h
    exact fit_error h

theorem strToI64WithBase_holds (h : str.Holds line) (res : ℤ) (base : ℕ) :
    strToI64WithBase str res base =
      .done (store res (UltraKernel.strToI64WithBase line base)) := by
  rw [strToI64WithBase, strStartsWith_holds h, done_bind, UltraKernel.strToI64WithBase]
  by_cases hminus : UltraKernel.strStartsWith line ['-'] = true
  · obtain ⟨str', hoffset, hstr'⟩ := strOffsetBy_prefix h hminus
    have hstr' : str'.Holds (line.drop 1) := hstr'
    rw [if_pos hminus, if_pos hminus, show 1 = ['-'].length from rfl, hoffset, done_bind,
      doStrToU64_holds hstr', done_bind]
    cases hures : UltraKernel.doStrToU64 (line.drop 1) base with
    | error code => exact if_pos (doStrToU64_error hures)
    | ok ures =>
      show (if 0 < (-BitVec.ofInt 64 (ures : ℤ)).toInt then done (erange, res)
        else done (eok, (-BitVec.ofInt 64 (ures : ℤ)).toInt)) = done (store res
          (if 0 < (-BitVec.ofNat 64 ures).toInt then .error erange
            else .ok (-BitVec.ofNat 64 ures).toInt))
      rw [BitVec.ofInt_natCast]
      split_ifs
      · rfl
      · rfl
  · obtain ⟨str', hskip, hstr'⟩ := skipPlus_holds h
    rw [if_neg hminus, if_neg hminus, hskip, done_bind, doStrToU64_holds hstr', done_bind]
    cases hures : UltraKernel.doStrToU64
      (if UltraKernel.strStartsWith line ['+'] then line.drop 1 else line) base with
    | error code => exact if_pos (doStrToU64_error hures)
    | ok ures =>
      show (if (ures : ℤ) > int64Max then done (erange, res)
        else done (eok, (BitVec.ofInt 64 (ures : ℤ)).toInt)) = done (store res
          (if ures > int64Max then .error erange else .ok (BitVec.ofNat 64 ures).toInt))
      rw [BitVec.ofInt_natCast]
      by_cases hlarge : ures > int64Max
      · rw [if_pos hlarge, if_pos (by omega)]
        rfl
      · rw [if_neg hlarge, if_neg (by omega)]
        rfl

theorem narrowSigned_holds (bits : ℕ) (h : str.Holds line) (res : ℤ) (base : ℕ) :
    narrowSignedWithBase bits str res base =
      .done (store res (UltraKernel.strToI64WithBase line base >>= narrowSigned bits)) := by
  rw [narrowSignedWithBase, strToI64WithBase_holds h, done_bind]
  cases hires : UltraKernel.strToI64WithBase line base with
  | error code => exact if_pos (@strToWithBase_error line .i64 base code hires)
  | ok ires =>
    show (if (BitVec.ofInt bits ires).toInt ≠ ires then done (erange, res)
      else done (eok, (BitVec.ofInt bits ires).toInt)) = done (store res (narrowSigned bits ires))
    rw [narrowSigned]
    split_ifs
    · rfl
    · rfl

theorem narrowUnsigned_holds (bits : ℕ) (h : str.Holds line) (res : ℤ) (base : ℕ) :
    narrowUnsignedWithBase bits str res base = .done (store res
      (Int.ofNat <$> (UltraKernel.strToU64WithBase line base >>= narrowUnsigned bits))) := by
  rw [narrowUnsignedWithBase, strToU64WithBase_holds h, done_bind]
  cases hures : UltraKernel.strToU64WithBase line base with
  | error code =>
    have herror : IntType.u64.strToWithBase line base = .error code := by
      rw [IntType.strToWithBase, hures]
      rfl
    exact if_pos (strToWithBase_error herror)
  | ok ures =>
    show (if (ures : ℤ) % 2 ^ bits ≠ ures then done (erange, res)
      else done (eok, (ures : ℤ) % 2 ^ bits)) = done (store res
        (Int.ofNat <$> narrowUnsigned bits ures))
    have hcast : ((ures % 2 ^ bits : ℕ) : ℤ) = (ures : ℤ) % 2 ^ bits := by push_cast; rfl
    rw [narrowUnsigned, ← hcast]
    by_cases hfits : ures % 2 ^ bits = ures
    · rw [if_neg (not_not.mpr hfits), if_neg (not_not.mpr (congrArg Nat.cast hfits))]
      rfl
    · rw [if_pos hfits, if_pos (by exact_mod_cast hfits)]
      rfl

/-- **Every conversion** stores what the one on lists of characters returns. -/
theorem strToWithBase_holds (h : str.Holds line) (res : ℤ) (base : ℕ) (t : IntType) :
    strToWithBase str res base t = .done (store res (t.strToWithBase line base)) := by
  cases t with
  | i8 => exact narrowSigned_holds 8 h res base
  | u8 => exact narrowUnsigned_holds 8 h res base
  | i16 => exact narrowSigned_holds 16 h res base
  | u16 => exact narrowUnsigned_holds 16 h res base
  | i32 => exact narrowSigned_holds 32 h res base
  | u32 => exact narrowUnsigned_holds 32 h res base
  | i64 => exact strToI64WithBase_holds h res base
  | u64 => exact strToU64WithBase_holds h res base

/-- **The `set` operations** do what the ones on lists do. -/
theorem paramSet_holds (t : IntType) (h : str.Holds line) (res : ℤ) :
    paramSet t str res = .done (Param.paramSet line res t) := by
  refine (strToWithBase_holds h res 0 t).trans ?_
  cases t <;> rfl

theorem paramSetBool_holds (h : str.Holds line) (res : Bool) :
    paramSetBool str res = .done (Param.paramSetBool line res) := by
  rw [paramSetBool, h.strEmpty, h.chars_eq, Param.paramSetBool]
  by_cases hnil : line = []
  · rw [if_pos (decide_eq_true hnil), if_pos hnil]
  · rw [if_neg (by simpa using hnil), if_neg hnil]

theorem paramSetString_holds (h : str.Holds line) (res : List Char) :
    paramSetString str res = .done (Param.paramSetString line res) := by
  rw [paramSetString, h.chars_eq]
  rfl

/-! ### What is stored -/

/-- The digit loop succeeds on digits of the base only, with their value. -/
theorem unchecked_ok {base u : ℕ} (hbase : 0 < base)
    (h : UltraKernel.doStrToU64Unchecked base line 0 = .ok u) :
    (∀ c ∈ line, IsDigitOf base c) ∧ u = digitsValue base line := by
  rw [unchecked_eq hbase] at h
  split_ifs at h with hfits
  cases hafter : afterDigits base line with
  | nil =>
    have hdigits := afterDigits_eq_nil.mp hafter
    rw [hafter, validDigits_of_all hdigits] at h
    exact ⟨hdigits, (Except.ok.inj h).symm⟩
  | cons c rest =>
    rw [hafter] at h
    cases h

theorem fit_ok {t : IntType} {negative : Bool} {u : ℕ} {value : ℤ}
    (h : t.fit negative u = .ok value) : value = if negative then -(u : ℤ) else u := by
  rw [IntType.fit] at h
  by_cases hfits : t.least ≤ (if negative then -(u : ℤ) else u) ∧
      (if negative then -(u : ℤ) else u) ≤ t.greatest
  · rw [if_pos hfits] at h
    exact (Except.ok.inj h).symm
  · rw [if_neg hfits] at h
    cases h

/-- What a conversion has read when it succeeds. -/
theorem strToWithBase_ok {t : IntType} {base : ℕ} {value : ℤ}
    (h : t.strToWithBase line base = .ok value) :
    ∃ stripped digits, BaseOf (afterSign t.isSigned line) stripped digits ∧
      (∀ c ∈ digits, IsDigitOf (if base ≠ 0 then base else stripped) c) ∧
      value = if isNegative t.isSigned line
        then -(digitsValue (if base ≠ 0 then base else stripped) digits : ℤ)
        else digitsValue (if base ≠ 0 then base else stripped) digits := by
  rw [IntType.strToWithBase_eq] at h
  cases hures : UltraKernel.doStrToU64 (afterSign t.isSigned line) base with
  | error code =>
    rw [hures] at h
    cases h
  | ok ures =>
    rw [hures] at h
    have hvalue := fit_ok (show t.fit (isNegative t.isSigned line) ures = .ok value from h)
    rw [UltraKernel.doStrToU64] at hures
    dsimp only at hures
    have hstripped := baseOf_consumeBase (afterSign t.isSigned line)
    generalize (UltraKernel.consumeBase (afterSign t.isSigned line)).1 = stripped at *
    generalize (UltraKernel.consumeBase (afterSign t.isSigned line)).2 = digits at *
    by_cases hnone : base = 0 ∧ stripped = 0
    · rw [if_pos hnone] at hures
      cases hures
    · rw [if_neg hnone] at hures
      have hpos : 0 < if base ≠ 0 then base else stripped := by
        by_cases hzero : base = 0
        · rw [if_neg (not_not.mpr hzero)]
          exact Nat.pos_of_ne_zero fun h0 => hnone ⟨hzero, h0⟩
        · rw [if_pos hzero]
          exact Nat.pos_of_ne_zero hzero
      obtain ⟨hdigits, rfl⟩ := unchecked_ok hpos hures
      exact ⟨stripped, digits, hstripped, hdigits, hvalue⟩

/-- **The conversions are exact**, of any string in any base: after a success every character
behind the sign and the stripped prefix is a digit of the base in effect, and `*res` is the signed
value of these digits; after an error `*res` is what it was. -/
theorem strToWithBase_exact (t : IntType) (h : str.Holds line) (base : ℕ) (res : ℤ) :
    ∃ ret value, strToWithBase str res base t = .done (ret, value) ∧
      (ret ≠ eok → value = res) ∧
      (ret = eok → ∃ stripped digits, BaseOf (afterSign t.isSigned line) stripped digits ∧
        (∀ c ∈ digits, IsDigitOf (if base ≠ 0 then base else stripped) c) ∧
        value = if isNegative t.isSigned line
          then -(digitsValue (if base ≠ 0 then base else stripped) digits : ℤ)
          else digitsValue (if base ≠ 0 then base else stripped) digits) := by
  refine ⟨_, _, strToWithBase_holds h res base t, ?_, ?_⟩
  · intro hret
    cases hresult : t.strToWithBase line base with
    | ok value =>
      rw [hresult] at hret
      exact absurd rfl hret
    | error code => rfl
  · intro hret
    cases hresult : t.strToWithBase line base with
    | error code =>
      rw [hresult] at hret
      exact absurd hret (strToWithBase_error hresult)
    | ok value => exact strToWithBase_ok hresult

/-- The string `-0xf`, in base 16. -/
theorem strToWithBase_exact_minusFifteen :
    strToWithBase ⟨some ['-', '0', 'x', 'f'], 4⟩ 7 16 .i8 = .done (eok, -15) := by
  obtain ⟨ret, value, hrun, _, hexact⟩ := strToWithBase_exact .i8
    (holds_of_text ['-', '0', 'x', 'f'] []) 16 7
  have hret : (strToWithBase ⟨some ['-', '0', 'x', 'f'], 4⟩ 7 16 .i8).value?.map Prod.fst =
      some eok := by decide
  have hvalue : (strToWithBase ⟨some ['-', '0', 'x', 'f'], 4⟩ 7 16 .i8).value? = some (ret, value) :=
    Outcome.value?_eq_some.mpr hrun
  rw [hvalue] at hret
  obtain rfl : ret = eok := Option.some.inj hret
  obtain ⟨stripped, digits, hstripped, _, rfl⟩ := hexact rfl
  have hstripped : BaseOf ['0', 'x', 'f'] stripped digits := hstripped
  cases hstripped with
  | hex => exact hrun
  | octal hx _ => exact absurd rfl hx
  | decimal hzero _ => exact absurd rfl hzero
  | none hdigit => exact absurd (by decide) (hdigit '0' rfl)

end Holds

end UltraKernel.Sized
