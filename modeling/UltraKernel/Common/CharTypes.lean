import UltraKernel.Common.Strings
import Mathlib.Data.List.GetD

/-!
# The character classes of `ctype.h`

A class is a mask, and `g_ascii_map` has the bits of each character.  A character is of a class if it has
all of its bits.

* `isCharOfType_digit`, `isCharOfType_hexDigit`, `isCharOfType_space`, `tolower_table`: the classes that are
  asked for are those of ASCII;
* `isalnum_eq_false`: no character is at once a small letter, a capital one and a digit.
-/

namespace UltraKernel

/-! ### The classes -/

/-- `CHAR_TYPE_CONTROL` -/
def charTypeControl : ℕ := 1 <<< 0

/-- `CHAR_TYPE_SPACE` -/
def charTypeSpace : ℕ := 1 <<< 1

/-- `CHAR_TYPE_BLANK` -/
def charTypeBlank : ℕ := 1 <<< 2

/-- `CHAR_TYPE_PUNCTUATION` -/
def charTypePunctuation : ℕ := 1 <<< 3

/-- `CHAR_TYPE_LOWER` -/
def charTypeLower : ℕ := 1 <<< 4

/-- `CHAR_TYPE_UPPER` -/
def charTypeUpper : ℕ := 1 <<< 5

/-- `CHAR_TYPE_DIGIT` -/
def charTypeDigit : ℕ := 1 <<< 6

/-- `CHAR_TYPE_HEX_DIGIT` -/
def charTypeHexDigit : ℕ := 1 <<< 7

/-- `CHAR_TYPE_ALPHA` -/
def charTypeAlpha : ℕ := charTypeLower ||| charTypeUpper

/-- `CHAR_TYPE_ALNUM` -/
def charTypeAlnum : ℕ := charTypeAlpha ||| charTypeDigit

/-- `g_ascii_map`, up to the zeroes at its end. -/
def gAsciiMap : List ℕ :=
  List.replicate 9 charTypeControl ++
  [charTypeControl ||| charTypeSpace ||| charTypeBlank] ++
  List.replicate 4 (charTypeControl ||| charTypeSpace) ++
  List.replicate 18 charTypeControl ++
  [charTypeSpace ||| charTypeBlank] ++
  List.replicate 15 charTypePunctuation ++
  List.replicate 10 (charTypeDigit ||| charTypeHexDigit) ++
  List.replicate 7 charTypePunctuation ++
  List.replicate 6 (charTypeUpper ||| charTypeHexDigit) ++
  List.replicate 20 charTypeUpper ++
  List.replicate 6 charTypePunctuation ++
  List.replicate 6 (charTypeLower ||| charTypeHexDigit) ++
  List.replicate 20 charTypeLower ++
  List.replicate 4 charTypePunctuation ++
  [charTypeControl]

def isCharOfType (c : Char) (type : ℕ) : Bool := gAsciiMap.getD (c.toNat % 256) 0 &&& type = type

def isalnum (c : Char) : Bool := isCharOfType c charTypeAlnum

/-! ### What they are -/

section Table

variable {c : Char}

theorem gAsciiMap_length : gAsciiMap.length = 128 := by
  simp only [gAsciiMap, List.length_append, List.length_replicate, List.length_singleton]

/-- What holds of the bits of the first half of the characters; the others have none. -/
theorem isCharOfType_iff {type : ℕ} {P : ℕ → Prop} (htype : 0 ≠ type)
    (htable : ∀ n < 128, gAsciiMap.getD n 0 &&& type = type ↔ P n) (hrest : ∀ n, P n → n < 128)
    (hc : c.toNat < 256) : isCharOfType c type = true ↔ P c.toNat := by
  rw [isCharOfType, Nat.mod_eq_of_lt hc, decide_eq_true_iff]
  by_cases hlt : c.toNat < 128
  · exact htable c.toNat hlt
  · have hnone : gAsciiMap.getD c.toNat 0 = 0 :=
      List.getD_eq_default _ _ (gAsciiMap_length ▸ Nat.not_lt.mp hlt)
    rw [hnone, Nat.zero_and]
    exact iff_of_false htype fun h => hlt (hrest _ h)

theorem isCharOfType_digit (hc : c.toNat < 256) : isCharOfType c charTypeDigit = isdigit c := by
  have htable : ∀ n < 128, gAsciiMap.getD n 0 &&& charTypeDigit = charTypeDigit ↔ 48 ≤ n ∧ n ≤ 57 := by
    decide +kernel
  exact Bool.eq_iff_iff.mpr
    ((isCharOfType_iff (by decide) htable (fun n hn => by omega) hc).trans isdigit_iff.symm)

theorem isCharOfType_hexDigit (hc : c.toNat < 256) : isCharOfType c charTypeHexDigit = isxdigit c := by
  have htable : ∀ n < 128, gAsciiMap.getD n 0 &&& charTypeHexDigit = charTypeHexDigit ↔
      (48 ≤ n ∧ n ≤ 57) ∨ (97 ≤ n ∧ n ≤ 102) ∨ (65 ≤ n ∧ n ≤ 70) := by
    decide +kernel
  exact Bool.eq_iff_iff.mpr
    ((isCharOfType_iff (by decide) htable (fun n hn => by omega) hc).trans isxdigit_iff.symm)

theorem isCharOfType_space (hc : c.toNat < 256) : isCharOfType c charTypeSpace = isspace c := by
  have htable : ∀ n < 128, gAsciiMap.getD n 0 &&& charTypeSpace = charTypeSpace ↔
      (9 ≤ n ∧ n ≤ 13) ∨ n = 32 := by
    decide +kernel
  have hspace : isspace c = true ↔ (9 ≤ c.toNat ∧ c.toNat ≤ 13) ∨ c.toNat = 32 := by
    simp only [isspace, Bool.or_eq_true, Bool.and_eq_true, decide_eq_true_eq]
  exact Bool.eq_iff_iff.mpr
    ((isCharOfType_iff (by decide) htable (fun n hn => by omega) hc).trans hspace.symm)

/-- `tolower`, from the table. -/
theorem tolower_table (hc : c.toNat < 256) : (tolower c).toNat =
    if isCharOfType c charTypeUpper then c.toNat + ('a'.toNat - 'A'.toNat) else c.toNat := by
  have htable : ∀ n < 128, gAsciiMap.getD n 0 &&& charTypeUpper = charTypeUpper ↔ 65 ≤ n ∧ n ≤ 90 := by
    decide +kernel
  rw [tolower_toNat]
  exact if_congr (isCharOfType_iff (by decide) htable (fun n hn => by omega) hc).symm rfl rfl

/-- **No character is alphanumeric**: it would need all the bits of the class. -/
theorem isalnum_eq_false (hc : c.toNat < 256) : isalnum c = false := by
  have htable : ∀ n < 128, gAsciiMap.getD n 0 &&& charTypeAlnum = charTypeAlnum ↔ False := by
    decide +kernel
  exact Bool.eq_false_iff.mpr (isCharOfType_iff (by decide) htable (fun _ => False.elim) hc).mp

end Table

end UltraKernel
