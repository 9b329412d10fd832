import UltraKernel.Common.Conversions
import UltraKernel.Lib.Positional
import Mathlib.Data.List.TakeWhile

/-!
# What the conversions classify as a number

A numeral is a sign, a base prefix and digits.  The conversions detect a bad digit only through
the division that detects an overflow, and accept a prefix without digits.

* `unchecked_valid`, `unchecked_invalid`: what the digit loop does, up to the first character that
  is no digit of the base;
* `numeralBody_iff`: the strings that are the digits of a number, with or without a base prefix;
* `IntType.strToWithBase_eq`: the conversion to any integer type, from the unsigned digit loop.
-/

namespace UltraKernel

open Word Positional

/-! ### Digits -/

/-- The value of a digit character. -/
def digitOf (c : Char) : ℕ :=
  if isdigit c then c.toNat - '0'.toNat else 10 + (tolower c).toNat - 'a'.toNat

/-- A digit of a base up to 16. -/
def IsDigitOf (base : ℕ) (c : Char) : Prop := isxdigit c ∧ digitOf c < base

instance (base : ℕ) (c : Char) : Decidable (IsDigitOf base c) := inferInstanceAs (Decidable (_ ∧ _))

/-- The value of a string of digits. -/
def digitsValue (base : ℕ) (digits : List Char) : ℕ := accumulate base 0 (digits.map digitOf)

theorem isxdigit_of_isdigit {c : Char} (h : isdigit c) : isxdigit c := by
  simp only [isxdigit, h, Bool.true_or]

theorem digitOf_eq {c : Char} (h : isxdigit c) :
    digitOf c = if c.toNat ≤ 57 then c.toNat - 48
      else if 97 ≤ c.toNat then c.toNat - 87 else c.toNat - 55 := by
  have hrange := isxdigit_iff.mp h
  have hzero : '0'.toNat = 48 := rfl
  have ha : 'a'.toNat = 97 := rfl
  unfold digitOf
  rw [tolower_toNat, hzero, ha]
  by_cases hdigit : isdigit c
  · rw [if_pos hdigit, if_pos (isdigit_iff.mp hdigit).2]
  · rw [if_neg hdigit]
    rw [isdigit_iff] at hdigit
    split_ifs <;> omega

/-- A hexadecimal digit has a value below 16. -/
theorem digitOf_lt {c : Char} (h : isxdigit c) : digitOf c < 16 := by
  have hrange := isxdigit_iff.mp h
  rw [digitOf_eq h]
  split_ifs <;> omega

/-! ### The digit loop -/

/-- **The division test** passes exactly for a digit of the base and a product that did not wrap. -/
theorem next_div_eq_iff (number : ℕ) {base digit : ℕ} (hbase : 0 < base) (hdigit : digit < 2 ^ 64) :
    add64 (mul64 number base) digit / base = number ↔
      digit < base ∧ number * base + digit < 2 ^ 64 := by
  have hnext : add64 (mul64 number base) digit = (number * base + digit) % 2 ^ 64 :=
    Nat.mod_add_mod ..
  rw [hnext]
  by_cases hfits : number * base + digit < 2 ^ 64
  · have hdiv : (number * base + digit) / base = number + digit / base := by
      rw [Nat.mul_comm, Nat.mul_add_div hbase]
    rw [Nat.mod_eq_of_lt hfits, hdiv, Nat.add_eq_left, Nat.div_eq_zero_iff_lt hbase]
    exact (and_iff_left hfits).symm
  · -- a wrapped value is below the product
    have hwrap : (number * base + digit) % 2 ^ 64 < number * base := by
      generalize number * base = product at hfits
      omega
    have hdiv := Nat.div_lt_of_lt_mul (hwrap.trans_eq (Nat.mul_comm number base))
    simp only [hfits, and_false, iff_false]
    omega

section Loop

variable {base number : ℕ} {c : Char} {digits rest : List Char}

theorem unchecked_step (hc : isxdigit c) (str : List Char) (number : ℕ) :
    doStrToU64Unchecked base (c :: str) number =
      if add64 (mul64 number base) (digitOf c) / base ≠ number then .error erange
      else doStrToU64Unchecked base str (add64 (mul64 number base) (digitOf c)) := by
  rw [doStrToU64Unchecked, if_neg fun h => h.2 hc]
  rfl

theorem unchecked_digit (hbase : 0 < base) (hc : isxdigit c) (str : List Char) (number : ℕ) :
    doStrToU64Unchecked base (c :: str) number =
      if digitOf c < base ∧ number * base + digitOf c < 2 ^ 64 then
        doStrToU64Unchecked base str (number * base + digitOf c)
      else .error erange := by
  have hdigit : digitOf c < 2 ^ 64 := (digitOf_lt hc).trans (by decide)
  have hnext := next_div_eq_iff number hbase hdigit
  rw [unchecked_step hc]
  by_cases hfits : digitOf c < base ∧ number * base + digitOf c < 2 ^ 64
  · have hmul : number * base < 2 ^ 64 := by omega
    rw [if_neg (not_not.mpr (hnext.mpr hfits)), if_pos hfits, mul64_of_lt hmul, add64_of_lt hfits.2]
  · rw [if_pos (hnext.not.mpr hfits), if_neg hfits]

theorem unchecked_other (hc : ¬ isxdigit c) (str : List Char) (number : ℕ) :
    doStrToU64Unchecked base (c :: str) number = .error einval := by
  rw [doStrToU64Unchecked, if_pos ⟨fun h => hc (isxdigit_of_isdigit h), hc⟩]

/-- **Digits of the base** are accumulated until their value leaves 64 bits. -/
theorem unchecked_valid (hbase : 0 < base) (hvalid : ∀ d ∈ digits, IsDigitOf base d)
    (hnumber : number < 2 ^ 64) (rest : List Char) :
    doStrToU64Unchecked base (digits ++ rest) number =
      if accumulate base number (digits.map digitOf) < 2 ^ 64 then
        doStrToU64Unchecked base rest (accumulate base number (digits.map digitOf))
      else .error erange := by
  induction digits generalizing number with
  | nil => rw [List.map_nil, accumulate_nil, if_pos hnumber, List.nil_append]
  | cons d digits ih =>
    have hd := hvalid d (List.mem_cons_self ..)
    rw [List.cons_append, unchecked_digit hbase hd.1, List.map_cons, accumulate_cons]
    by_cases hfits : number * base + digitOf d < 2 ^ 64
    · rw [if_pos ⟨hd.2, hfits⟩, ih (fun d' hd' => hvalid d' (List.mem_cons_of_mem _ hd')) hfits]
    · have hle := le_accumulate hbase (number * base + digitOf d) (digits.map digitOf)
      rw [if_neg fun h => hfits h.2, if_neg (by omega)]

/-- **A character that is no digit of the base**, after digits whose value fits. -/
theorem unchecked_invalid (hbase : 0 < base) (hc : ¬ IsDigitOf base c) (str : List Char)
    (number : ℕ) : doStrToU64Unchecked base (c :: str) number =
      .error (if isxdigit c then erange else einval) := by
  by_cases hx : isxdigit c
  · rw [unchecked_digit hbase hx, if_neg fun h => hc ⟨hx, h.1⟩, if_pos hx]
  · rw [unchecked_other hx, if_neg hx]

/-- The digits of the base that a string starts with. -/
def validDigits (base : ℕ) (str : List Char) : List Char := str.takeWhile (IsDigitOf base ·)

/-- What follows the digits of the base. -/
def afterDigits (base : ℕ) (str : List Char) : List Char := str.dropWhile (IsDigitOf base ·)

theorem mem_validDigits {str : List Char} (hc : c ∈ validDigits base str) : IsDigitOf base c := by
  have h := List.mem_takeWhile_imp hc
  simpa using h

theorem afterDigits_head {str : List Char} (hc : afterDigits base str = c :: rest) :
    ¬ IsDigitOf base c := by
  have hhead := List.head?_dropWhile_not (fun c => decide (IsDigitOf base c)) str
  rw [afterDigits] at hc
  rw [hc] at hhead
  simpa using hhead

theorem afterDigits_eq_nil {str : List Char} :
    afterDigits base str = [] ↔ ∀ c ∈ str, IsDigitOf base c := by
  simp [afterDigits]

theorem validDigits_of_all {str : List Char} (h : ∀ c ∈ str, IsDigitOf base c) :
    validDigits base str = str := by
  simpa [validDigits] using h

/-- **The digit loop**: the value of the digits, unless they do not fit or something follows. -/
theorem unchecked_eq (hbase : 0 < base) (str : List Char) :
    doStrToU64Unchecked base str 0 =
      if digitsValue base (validDigits base str) < 2 ^ 64 then
        match afterDigits base str with
        | [] => .ok (digitsValue base (validDigits base str))
        | c :: _ => .error (if isxdigit c then erange else einval)
      else .error erange := by
  have hsplit : str = validDigits base str ++ afterDigits base str :=
    List.takeWhile_append_dropWhile.symm
  conv_lhs => rw [hsplit]
  rw [unchecked_valid hbase (fun _ hc => mem_validDigits hc) (by decide)]
  change (if digitsValue base (validDigits base str) < 2 ^ 64 then _ else _) = _
  refine if_congr Iff.rfl ?_ rfl
  cases hafter : afterDigits base str with
  | nil => rfl
  | cons c rest => exact unchecked_invalid hbase (afterDigits_head hafter) rest _

/-- **Digits only** are read as their value. -/
theorem unchecked_digits {str : List Char} (hbase : 0 < base) (hdigits : ∀ c ∈ str, IsDigitOf base c)
    (hfits : digitsValue base str < 2 ^ 64) :
    doStrToU64Unchecked base str 0 = .ok (digitsValue base str) := by
  rw [unchecked_eq hbase, afterDigits_eq_nil.mpr hdigits, validDigits_of_all hdigits, if_pos hfits]

end Loop

/-! ### Prefixes -/

theorem consumeBase_hex (digits : List Char) :
    consumeBase ('0' :: 'x' :: digits) = (16, digits) := by
  simp [consumeBase, strStartsWith]

theorem consumeBase_binary (digits : List Char) :
    consumeBase ('0' :: 'b' :: digits) = (2, digits) := by
  simp [consumeBase, strStartsWith]

theorem consumeBase_octal {digits : List Char} (hx : digits.head? ≠ some 'x')
    (hb : digits.head? ≠ some 'b') : consumeBase ('0' :: digits) = (8, digits) := by
  cases digits with
  | nil => rfl
  | cons d digits =>
    rw [List.head?_cons, ne_eq, Option.some.injEq] at hx hb
    simp [consumeBase, strStartsWith, Ne.symm hx, Ne.symm hb]

theorem consumeBase_decimal {c : Char} (hc : c ≠ '0') (hdigit : isdigit c) (digits : List Char) :
    consumeBase (c :: digits) = (10, c :: digits) := by
  simp [consumeBase, strStartsWith, Ne.symm hc, hdigit]

theorem consumeBase_none {str : List Char} (h : ∀ c, str.head? = some c → ¬ isdigit c) :
    consumeBase str = (0, str) := by
  cases str with
  | nil => rfl
  | cons c digits =>
    have hdigit := h c rfl
    have hzero : '0' ≠ c := by
      rintro rfl
      exact hdigit rfl
    simp [consumeBase, strStartsWith, hzero, hdigit]

/-- How `consume_base` reads a string. -/
inductive BaseOf : List Char → ℕ → List Char → Prop
  | hex {digits} : BaseOf ('0' :: 'x' :: digits) 16 digits
  | binary {digits} : BaseOf ('0' :: 'b' :: digits) 2 digits
  | octal {digits} (hx : digits.head? ≠ some 'x') (hb : digits.head? ≠ some 'b') :
    BaseOf ('0' :: digits) 8 digits
  | decimal {c digits} (hc : c ≠ '0') (hdigit : isdigit c) : BaseOf (c :: digits) 10 (c :: digits)
  | none {str} (h : ∀ c, str.head? = some c → ¬ isdigit c) : BaseOf str 0 str

theorem baseOf_consumeBase (str : List Char) :
    BaseOf str (consumeBase str).1 (consumeBase str).2 := by
  cases str with
  | nil => exact .none (by simp)
  | cons c digits =>
    by_cases hzero : c = '0'
    · subst hzero
      by_cases hx : digits.head? = some 'x'
      · obtain ⟨digits, rfl⟩ := List.head?_eq_some_iff.mp hx
        rw [consumeBase_hex]
        exact .hex
      by_cases hb : digits.head? = some 'b'
      · obtain ⟨digits, rfl⟩ := List.head?_eq_some_iff.mp hb
        rw [consumeBase_binary]
        exact .binary
      · rw [consumeBase_octal hx hb]
        exact .octal hx hb
    · by_cases hdigit : isdigit c
      · rw [consumeBase_decimal hzero hdigit]
        exact .decimal hzero hdigit
      · have hnone : ∀ d, (c :: digits).head? = some d → ¬ isdigit d := by
          intro d hd
          obtain rfl := Option.some.inj hd
          exact hdigit
        rw [consumeBase_none hnone]
        exact .none hnone

/-- **A numeral without its sign**, and its value. -/
inductive NumeralBody : List Char → ℕ → Prop
  | hex {digits} (hne : digits ≠ []) (hdigits : ∀ c ∈ digits, IsDigitOf 16 c) :
    NumeralBody ('0' :: 'x' :: digits) (digitsValue 16 digits)
  | binary {digits} (hne : digits ≠ []) (hdigits : ∀ c ∈ digits, IsDigitOf 2 c) :
    NumeralBody ('0' :: 'b' :: digits) (digitsValue 2 digits)
  | octal {digits} (hdigits : ∀ c ∈ digits, IsDigitOf 8 c) :
    NumeralBody ('0' :: digits) (digitsValue 8 digits)
  | decimal {c digits} (hc : c ≠ '0') (hdigits : ∀ d ∈ c :: digits, IsDigitOf 10 d) :
    NumeralBody (c :: digits) (digitsValue 10 (c :: digits))

theorem isdigit_of_isDigitOf {c : Char} (h : IsDigitOf 10 c) : isdigit c := by
  obtain ⟨hx, hlt⟩ := h
  have hrange := isxdigit_iff.mp hx
  rw [digitOf_eq hx] at hlt
  rw [isdigit_iff]
  split_ifs at hlt <;> omega

theorem isDigitOf_of_isdigit {c : Char} (h : isdigit c) : IsDigitOf 10 c := by
  have hrange := isdigit_iff.mp h
  refine ⟨isxdigit_of_isdigit h, ?_⟩
  rw [digitOf_eq (isxdigit_of_isdigit h), if_pos hrange.2]
  omega

/-- **A numeral**, in terms of what `consume_base` splits off. -/
theorem numeralBody_iff {str : List Char} {v : ℕ} :
    NumeralBody str v ↔ (consumeBase str).1 ≠ 0 ∧
      ((consumeBase str).2 = [] → (consumeBase str).1 = 8) ∧
      (∀ c ∈ (consumeBase str).2, IsDigitOf (consumeBase str).1 c) ∧
      v = digitsValue (consumeBase str).1 (consumeBase str).2 := by
  constructor
  · intro h
    cases h with
    | hex hne hdigits =>
      rw [consumeBase_hex]
      exact ⟨by simp, fun h => absurd h hne, hdigits, rfl⟩
    | binary hne hdigits =>
      rw [consumeBase_binary]
      exact ⟨by simp, fun h => absurd h hne, hdigits, rfl⟩
    | @octal digits hdigits =>
      have hhead : ∀ c, ¬ IsDigitOf 8 c → digits.head? ≠ some c :=
        fun c hc h => hc (hdigits c (List.mem_of_head? h))
      rw [consumeBase_octal (hhead 'x' (by decide)) (hhead 'b' (by decide))]
      exact ⟨by simp, fun _ => rfl, hdigits, rfl⟩
    | decimal hc hdigits =>
      rw [consumeBase_decimal hc (isdigit_of_isDigitOf (hdigits _ (List.mem_cons_self ..)))]
      exact ⟨by simp, fun h => by simp at h, hdigits, rfl⟩
  · rintro ⟨hbase, hlead, hdigits, rfl⟩
    generalize hread : consumeBase str = read at *
    have hcases := baseOf_consumeBase str
    rw [hread] at hcases
    obtain ⟨base, digits⟩ := read
    cases hcases with
    | hex => exact .hex (fun h => absurd (hlead h) (by simp)) hdigits
    | binary => exact .binary (fun h => absurd (hlead h) (by simp)) hdigits
    | octal => exact .octal hdigits
    | decimal hc => exact .decimal hc hdigits
    | none => exact absurd rfl hbase

/-! ### Signs and types -/

/-- The string after its sign; `-` is one for the signed types only. -/
def afterSign (signed : Bool) (str : List Char) : List Char :=
  if strStartsWith str ['+'] ∨ (signed ∧ strStartsWith str ['-']) then str.drop 1 else str

def isNegative (signed : Bool) (str : List Char) : Bool := signed && strStartsWith str ['-']

/-- The value with its sign, if it is one of the type. -/
def IntType.fit (t : IntType) (negative : Bool) (u : ℕ) : Except ErrorT ℤ :=
  if t.least ≤ (if negative then -(u : ℤ) else u) ∧ (if negative then -(u : ℤ) else u) ≤ t.greatest
  then .ok (if negative then -u else u) else .error erange

theorem unchecked_lt {base number v : ℕ} {str : List Char} (hnumber : number < 2 ^ 64)
    (h : doStrToU64Unchecked base str number = .ok v) : v < 2 ^ 64 := by
  induction str generalizing number with
  | nil =>
    obtain rfl := Except.ok.inj h
    exact hnumber
  | cons c str ih =>
    by_cases hc : isxdigit c
    · rw [unchecked_step hc] at h
      split_ifs at h
      exact ih (add64_lt _ _) h
    · rw [unchecked_other hc] at h
      cases h

theorem doStrToU64_lt {base v : ℕ} {str : List Char} (h : doStrToU64 str base = .ok v) :
    v < 2 ^ 64 := by
  unfold doStrToU64 at h
  dsimp only at h
  split_ifs at h
  · exact unchecked_lt (by decide) h
  · exact unchecked_lt (by decide) h

/-- The sign of a stored `u64`, and its negation. -/
theorem toInt_ofNat64 {u : ℕ} (h : u < 2 ^ 64) :
    (BitVec.ofNat 64 u).toInt = if u < 2 ^ 63 then (u : ℤ) else u - 2 ^ 64 := by
  rw [BitVec.toInt_eq_toNat_cond, BitVec.toNat_ofNat, Nat.mod_eq_of_lt h]
  push_cast
  split_ifs <;> omega

theorem toInt_neg_ofNat64 {u : ℕ} (h : u < 2 ^ 64) :
    (-BitVec.ofNat 64 u).toInt = if u ≤ 2 ^ 63 then -(u : ℤ) else 2 ^ 64 - u := by
  rw [BitVec.toInt_eq_toNat_cond, BitVec.toNat_neg, BitVec.toNat_ofNat, Nat.mod_eq_of_lt h]
  split_ifs <;> omega

theorem strToI64WithBase_eq (str : List Char) (base : ℕ) :
    strToI64WithBase str base =
      doStrToU64 (afterSign true str) base >>= IntType.i64.fit (isNegative true str) := by
  unfold strToI64WithBase afterSign isNegative
  by_cases hminus : strStartsWith str ['-']
  · simp only [hminus, and_self, or_true, if_true, Bool.and_self]
    cases hures : doStrToU64 (str.drop 1) base with
    | error code => rfl
    | ok u =>
      have hlt := doStrToU64_lt hures
      have hneg := toInt_neg_ofNat64 hlt
      change (if 0 < (-BitVec.ofNat 64 u).toInt then Except.error erange
        else Except.ok (-BitVec.ofNat 64 u).toInt) = IntType.i64.fit true u
      rw [IntType.fit, hneg]
      simp only [IntType.least, IntType.greatest, IntType.isSigned, IntType.bits, if_true]
      by_cases hfits : u ≤ 2 ^ 63
      · rw [if_pos hfits, if_neg (by omega), if_pos (by omega)]
      · rw [if_neg hfits, if_pos (by omega), if_neg (by omega)]
  · simp only [hminus, and_false, or_false, if_false, Bool.and_false, Bool.false_eq_true]
    cases hures : doStrToU64 (if strStartsWith str ['+'] then str.drop 1 else str) base with
    | error code => rfl
    | ok u =>
      have hlt := doStrToU64_lt hures
      change (if u > int64Max then Except.error erange
        else Except.ok (BitVec.ofNat 64 u).toInt) = IntType.i64.fit false u
      rw [IntType.fit, toInt_ofNat64 hlt, int64Max]
      simp only [IntType.least, IntType.greatest, IntType.isSigned, IntType.bits, if_true,
        Bool.false_eq_true, if_false]
      by_cases hfits : u < 2 ^ 63
      · rw [if_neg (by omega), if_pos hfits, if_pos (by omega)]
      · rw [if_pos (by omega), if_neg (by omega)]

theorem strToU64WithBase_eq (str : List Char) (base : ℕ) :
    strToU64WithBase str base = doStrToU64 (afterSign false str) base := by
  have hminus : ∀ s : List Char, strStartsWith s ['-'] → doStrToU64 s base = .error einval := by
    intro s hs
    obtain ⟨rest, rfl⟩ : ∃ rest, s = '-' :: rest := by
      obtain ⟨rest, hrest⟩ := List.isPrefixOf_iff_prefix.mp hs
      exact ⟨rest, hrest.symm⟩
    have hnone : consumeBase ('-' :: rest) = (0, '-' :: rest) := by
      refine consumeBase_none fun c hc => ?_
      obtain rfl := Option.some.inj hc
      decide
    unfold doStrToU64
    rw [hnone]
    dsimp only
    split_ifs
    · rfl
    · exact unchecked_other (by decide) _ _
    · exact unchecked_other (by decide) _ _
  unfold strToU64WithBase afterSign
  simp only [Bool.false_eq_true, false_and, or_false]
  split_ifs with hsign hstarts hstarts
  · exact (hminus _ hstarts).symm
  · rfl
  · exact (hminus _ hstarts).symm
  · rfl

/-- A signed value survives the cast to a type exactly when it is one of the type. -/
theorem narrowSigned_eq {bits : ℕ} (hbits : bits = 8 ∨ bits = 16 ∨ bits = 32) (v : ℤ) :
    narrowSigned bits v =
      if -2 ^ (bits - 1) ≤ v ∧ v ≤ 2 ^ (bits - 1) - 1 then .ok v else .error erange := by
  have hcast : (BitVec.ofInt bits v).toInt = v ↔
      -2 ^ (bits - 1) ≤ v ∧ v ≤ 2 ^ (bits - 1) - 1 := by
    rw [BitVec.toInt_ofInt, Int.bmod_def]
    rcases hbits with rfl | rfl | rfl <;> norm_num <;> split_ifs <;> omega
  unfold narrowSigned
  by_cases hfits : (BitVec.ofInt bits v).toInt = v
  · rw [if_neg (not_not.mpr hfits), if_pos (hcast.mp hfits), hfits]
  · rw [if_pos hfits, if_neg (hcast.not.mp hfits)]

theorem narrowUnsigned_eq (bits u : ℕ) :
    narrowUnsigned bits u = if u < 2 ^ bits then .ok u else .error erange := by
  unfold narrowUnsigned
  by_cases hfits : u < 2 ^ bits
  · rw [Nat.mod_eq_of_lt hfits, if_neg (not_not.mpr rfl), if_pos hfits]
  · have hmod := Nat.mod_lt u (Nat.two_pow_pos bits)
    rw [if_pos (by omega), if_neg hfits]

/-- The 64-bit check, then the narrow one, are the check of the narrow type. -/
theorem fit_narrowSigned {t : IntType} (hbits : t.bits = 8 ∨ t.bits = 16 ∨ t.bits = 32)
    (hsign : t.isSigned = true) (negative : Bool) (u : ℕ) :
    IntType.i64.fit negative u >>= narrowSigned t.bits = t.fit negative u := by
  unfold IntType.fit
  generalize (if negative then -(u : ℤ) else u) = v
  simp only [IntType.least, IntType.greatest, hsign, if_true]
  change (if -2 ^ 63 ≤ v ∧ v ≤ 2 ^ 63 - 1 then Except.ok v else Except.error erange) >>=
    narrowSigned t.bits = _
  by_cases hfits : -2 ^ 63 ≤ v ∧ v ≤ 2 ^ 63 - 1
  · rw [if_pos hfits]
    exact narrowSigned_eq hbits v
  · rw [if_neg hfits, if_neg]
    · rfl
    · rcases hbits with hbits | hbits | hbits <;> rw [hbits] <;> omega

theorem fit_narrowUnsigned {t : IntType} (hsign : t.isSigned = false) (u : ℕ) :
    Int.ofNat <$> narrowUnsigned t.bits u = t.fit false u := by
  rw [narrowUnsigned_eq, IntType.fit]
  simp only [IntType.least, IntType.greatest, hsign, Bool.false_eq_true, if_false]
  by_cases hfits : u < 2 ^ t.bits
  · have hcast : (u : ℤ) < 2 ^ t.bits := by exact_mod_cast hfits
    rw [if_pos hfits, if_pos ⟨by omega, by omega⟩]
    rfl
  · have hcast : ¬ (u : ℤ) < 2 ^ t.bits := by exact_mod_cast hfits
    rw [if_neg hfits, if_neg fun h => hcast (by omega)]
    rfl

/-- **Every conversion** reads the digits after the sign and checks that the value fits. -/
theorem IntType.strToWithBase_eq (t : IntType) (str : List Char) (base : ℕ) :
    t.strToWithBase str base =
      doStrToU64 (afterSign t.isSigned str) base >>= t.fit (isNegative t.isSigned str) := by
  have hsigned : ∀ {t : IntType}, t.bits = 8 ∨ t.bits = 16 ∨ t.bits = 32 → t.isSigned = true →
      strToI64WithBase str base >>= narrowSigned t.bits =
        doStrToU64 (afterSign t.isSigned str) base >>= t.fit (isNegative t.isSigned str) := by
    intro t hbits hsign
    rw [strToI64WithBase_eq, hsign]
    cases doStrToU64 (afterSign true str) base with
    | error code => rfl
    | ok u => exact fit_narrowSigned hbits hsign _ u
  have hunsigned : ∀ {t : IntType}, t.isSigned = false →
      Int.ofNat <$> (strToU64WithBase str base >>= narrowUnsigned t.bits) =
        doStrToU64 (afterSign t.isSigned str) base >>= t.fit (isNegative t.isSigned str) := by
    intro t hsign
    rw [strToU64WithBase_eq, hsign]
    cases doStrToU64 (afterSign false str) base with
    | error code => rfl
    | ok u => exact fit_narrowUnsigned hsign u
  cases t with
  | i8 => exact @hsigned .i8 (.inl rfl) rfl
  | i16 => exact @hsigned .i16 (.inr (.inl rfl)) rfl
  | i32 => exact @hsigned .i32 (.inr (.inr rfl)) rfl
  | i64 => exact strToI64WithBase_eq str base
  | u8 => exact @hunsigned .u8 rfl
  | u16 => exact @hunsigned .u16 rfl
  | u32 => exact @hunsigned .u32 rfl
  | u64 =>
    change Int.ofNat <$> strToU64WithBase str base = _
    rw [← @hunsigned .u64 rfl]
    cases hu : strToU64WithBase str base with
    | error code => rfl
    | ok u =>
      rw [strToU64WithBase_eq] at hu
      change Except.ok (Int.ofNat u) = Int.ofNat <$> narrowUnsigned 64 u
      rw [narrowUnsigned_eq, if_pos (doStrToU64_lt hu)]
      rfl

end UltraKernel
