import UltraKernel.Common.Strings
import UltraKernel.Lib.Word

/-!
# Reading numbers, as `common/conversions.c` does

An optional sign and base prefix, then digits accumulated in a 64-bit word, with a division that
detects a product that wrapped.  The narrower types are read as 64-bit values and checked.
-/

namespace UltraKernel

open Word

/-- The base a prefix stands for, and the string after the prefix; base 0 is none. -/
def consumeBase (str : List Char) : ℕ × List Char :=
  if strStartsWith str ['0', 'x'] then (16, str.drop 2)
  else if strStartsWith str ['0', 'b'] then (2, str.drop 2)
  else if strStartsWith str ['0'] then (8, str.drop 1)
  else if str.head?.any isdigit then (10, str)
  else (0, str)

/-- The loop of `do_str_to_u64_unchecked` from the accumulated `number` on. -/
def doStrToU64Unchecked (base : ℕ) : List Char → ℕ → Except ErrorT ℕ
  | [], number => .ok number
  | c :: str, number =>
    if ¬ isdigit c ∧ ¬ isxdigit c then .error einval
    else
      let digit := if isdigit c then c.toNat - '0'.toNat else 10 + (tolower c).toNat - 'a'.toNat
      let next := add64 (mul64 number base) digit
      if next / base ≠ number then .error erange else doStrToU64Unchecked base str next

def doStrToU64 (str : List Char) (base : ℕ) : Except ErrorT ℕ :=
  let (cb, str) := consumeBase str
  if base = 0 ∧ cb = 0 then .error einval
  else doStrToU64Unchecked (if base ≠ 0 then base else cb) str 0

def strToU64WithBase (str : List Char) (base : ℕ) : Except ErrorT ℕ :=
  let str := if strStartsWith str ['+'] then str.drop 1 else str
  if strStartsWith str ['-'] then .error einval else doStrToU64 str base

example : strToU64WithBase ['0', '4', '2'] 10 = .ok 42 := by decide

/-- `INT64_MAX` -/
def int64Max : ℕ := 2 ^ 63 - 1

/-- The value is the `i64` that is stored. -/
def strToI64WithBase (str : List Char) (base : ℕ) : Except ErrorT ℤ :=
  if strStartsWith str ['-'] then do
    let ures ← doStrToU64 (str.drop 1) base
    if 0 < (-BitVec.ofNat 64 ures).toInt then throw erange
    return (-BitVec.ofNat 64 ures).toInt
  else do
    let ures ← doStrToU64 (if strStartsWith str ['+'] then str.drop 1 else str) base
    if ures > int64Max then throw erange
    return (BitVec.ofNat 64 ures).toInt

/-! ### Narrower types -/

/-- The check of the signed functions: the value, cast to `bits` bits, is the same. -/
def narrowSigned (bits : ℕ) (ires : ℤ) : Except ErrorT ℤ :=
  if (BitVec.ofInt bits ires).toInt ≠ ires then .error erange
  else .ok (BitVec.ofInt bits ires).toInt

/-- The check of the unsigned functions. -/
def narrowUnsigned (bits ures : ℕ) : Except ErrorT ℕ :=
  if ures % 2 ^ bits ≠ ures then .error erange else .ok (ures % 2 ^ bits)

def strToI32WithBase (str : List Char) (base : ℕ) : Except ErrorT ℤ :=
  strToI64WithBase str base >>= narrowSigned 32

def strToU32WithBase (str : List Char) (base : ℕ) : Except ErrorT ℕ :=
  strToU64WithBase str base >>= narrowUnsigned 32

def strToI16WithBase (str : List Char) (base : ℕ) : Except ErrorT ℤ :=
  strToI64WithBase str base >>= narrowSigned 16

def strToU16WithBase (str : List Char) (base : ℕ) : Except ErrorT ℕ :=
  strToU64WithBase str base >>= narrowUnsigned 16

def strToI8WithBase (str : List Char) (base : ℕ) : Except ErrorT ℤ :=
  strToI64WithBase str base >>= narrowSigned 8

def strToU8WithBase (str : List Char) (base : ℕ) : Except ErrorT ℕ :=
  strToU64WithBase str base >>= narrowUnsigned 8

/-- The integer types of `common/types.h`. -/
inductive IntType where
  | i8
  | u8
  | i16
  | u16
  | i32
  | u32
  | i64
  | u64
  deriving DecidableEq, Repr

namespace IntType

def bits : IntType → ℕ
  | i8 | u8 => 8
  | i16 | u16 => 16
  | i32 | u32 => 32
  | i64 | u64 => 64

def isSigned : IntType → Bool
  | i8 | i16 | i32 | i64 => true
  | u8 | u16 | u32 | u64 => false

/-- The least value of the type. -/
def least (t : IntType) : ℤ := if t.isSigned then -2 ^ (t.bits - 1) else 0

/-- The greatest value of the type. -/
def greatest (t : IntType) : ℤ := if t.isSigned then 2 ^ (t.bits - 1) - 1 else 2 ^ t.bits - 1

/-- The functions `str_to_*_with_base`. -/
def strToWithBase (str : List Char) (base : ℕ) : IntType → Except ErrorT ℤ
  | i8 => strToI8WithBase str base
  | u8 => Int.ofNat <$> strToU8WithBase str base
  | i16 => strToI16WithBase str base
  | u16 => Int.ofNat <$> strToU16WithBase str base
  | i32 => strToI32WithBase str base
  | u32 => Int.ofNat <$> strToU32WithBase str base
  | i64 => strToI64WithBase str base
  | u64 => Int.ofNat <$> strToU64WithBase str base

/-- The functions `str_to_*`, which detect the base. -/
def strTo (str : List Char) (t : IntType) : Except ErrorT ℤ := t.strToWithBase str 0

end IntType

/-! ### Booleans -/

def charsCaselessCompare (lhs rhs : Char) : Bool := tolower lhs = tolower rhs

/-- The options of `str_to_bool`, the first `NUM_TRUE_OPTIONS` of them true. -/
def boolOptions : List (List Char) :=
  [['y'], ['t'], ['o', 'n'], ['1'], ['n'], ['f'], ['o', 'f', 'f'], ['0']]

/-- `NUM_TRUE_OPTIONS` -/
def numTrueOptions : ℕ := 4

def strToBool (str : List Char) : Except ErrorT Bool :=
  match boolOptions.findIdx? (strEqualsWithCb str · charsCaselessCompare) with
  | some i => .ok (decide (i < numTrueOptions))
  | none => .error einval

end UltraKernel
