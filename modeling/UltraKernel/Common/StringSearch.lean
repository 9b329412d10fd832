import UltraKernel.Common.StringContainer
import UltraKernel.Lib.Word
import Mathlib.Data.List.Infix

/-!
# Where one string occurs in another

`str_find` goes over the places of a string.  Where the first character is that of the needle, it compares
the rest.

* `strEquals_holds`: two strings are compared;
* `matchLoop_holds`: the comparison at one place;
* `strFind_first`: the place that is found is the first one;
* `strContains_holds`: the needle is a part of the string.
-/

namespace UltraKernel

open Word Outcome

/-! ### The functions -/

/-- The loop of `str_equals`. -/
def strEqualsLoop (lhs rhs : Str) : ℕ → ℕ → Outcome StringBug Bool
  | 0, _ => .outOfFuel
  | fuel + 1, i =>
    if i < lhs.size then do
      let l ← charAt lhs i
      let r ← charAt rhs i
      if l ≠ r then return false else strEqualsLoop lhs rhs fuel (i + 1)
    else .done true

def strEquals (fuel : ℕ) (lhs rhs : Str) : Outcome StringBug Bool :=
  if lhs.size ≠ rhs.size then .done false else strEqualsLoop lhs rhs fuel 0

/-- The loop over the needle: `k` after it. -/
def matchLoop (str needle : Str) : ℕ → ℕ → ℕ → Outcome StringBug ℕ
  | 0, _, _ => .outOfFuel
  | fuel + 1, j, k =>
    if k < needle.size then do
      let c ← charAt str j
      let d ← charAt needle k
      if c ≠ d then return k else matchLoop str needle fuel (j + 1) (k + 1)
    else .done k

/-- The loop over the places; `none` is the source's `-1`. -/
def strFindLoop (str needle : Str) : ℕ → ℕ → Outcome StringBug (Option ℕ)
  | 0, _ => .outOfFuel
  | fuel + 1, i =>
    if i < add64 (sub64 str.size needle.size) 1 then do
      let c ← charAt str i
      let d ← charAt needle 0
      if c ≠ d then strFindLoop str needle fuel (i + 1)
      else
        let k ← matchLoop str needle fuel i 0
        if k = needle.size then return some i else strFindLoop str needle fuel (i + 1)
    else .done none

def strFind (fuel : ℕ) (str needle : Str) (startingAt : ℕ) : Outcome StringBug (Option ℕ) :=
  if startingAt > str.size then .halt .bugOn
  else if needle.size > sub64 str.size startingAt then .done none
  else if strEmpty needle then .done (some startingAt)
  else strFindLoop str needle fuel startingAt

def strContains (fuel : ℕ) (str needle : Str) : Outcome StringBug Bool := do
  let found ← strFind fuel str needle 0
  return found.isSome

/-! ### The first place -/

/-- What a search from a place on finds: the first place at which the needle occurs, or that there is
none. -/
def FindsFirst (wanted hay : List Char) (start : ℕ) : Option ℕ → Prop
  | some i => start ≤ i ∧ wanted <+: hay.drop i ∧ ∀ j, start ≤ j → j < i → ¬ wanted <+: hay.drop j
  | none => ∀ i, start ≤ i → ¬ wanted <+: hay.drop i

section FindsFirst

variable {wanted hay : List Char} {start : ℕ} {result : Option ℕ}

theorem FindsFirst.here (h : wanted <+: hay.drop start) : FindsFirst wanted hay start (some start) :=
  ⟨Nat.le_refl start, h, fun _ hle hlt => absurd hle (Nat.not_le.mpr hlt)⟩

/-- It is not here. -/
theorem FindsFirst.later (h : FindsFirst wanted hay (start + 1) result)
    (hhere : ¬ wanted <+: hay.drop start) : FindsFirst wanted hay start result := by
  have hfrom : ∀ {P : ℕ → Prop}, (∀ i, start + 1 ≤ i → P i) → P start → ∀ i, start ≤ i → P i := by
    intro P hlater hfirst i hi
    rcases Nat.eq_or_lt_of_le hi with rfl | hlt
    · exact hfirst
    · exact hlater i hlt
  cases result with
  | none => exact hfrom h hhere
  | some i =>
    obtain ⟨hle, hoccurs, hfirst⟩ := h
    exact ⟨Nat.le_of_succ_le hle, hoccurs, hfrom hfirst fun _ => hhere⟩

theorem length_of_occurs {i : ℕ} (h : wanted <+: hay.drop i) : wanted.length ≤ hay.length - i := by
  have hlength := h.length_le
  rwa [List.length_drop] at hlength

/-- There is no room for it. -/
theorem FindsFirst.short (hne : wanted ≠ []) (hshort : hay.length < start + wanted.length) :
    FindsFirst wanted hay start none := by
  intro i hi hoccurs
  have hpos := List.length_pos_iff.mpr hne
  have hlength := length_of_occurs hoccurs
  omega

theorem FindsFirst.isSome_iff (h : FindsFirst wanted hay 0 result) :
    result.isSome = true ↔ wanted <:+: hay := by
  rw [List.infix_iff_prefix_suffix]
  cases result with
  | none =>
    refine iff_of_false (by simp) ?_
    rintro ⟨tail, hprefix, hsuffix⟩
    rw [List.suffix_iff_eq_drop.mp hsuffix] at hprefix
    exact h _ (Nat.zero_le _) hprefix
  | some i => exact iff_of_true rfl ⟨_, h.2.1, List.drop_suffix i hay⟩

end FindsFirst

/-! ### The loops -/

section Search

variable {str needle : Str} {hay wanted : List Char} {fuel : ℕ}

theorem Str.Holds.charAt_getElem (h : str.Holds hay) {i : ℕ} (hi : i < hay.length) :
    charAt str i = .done hay[i] := by
  rw [charAt, h.chars_eq, List.getElem?_eq_getElem hi]

/-- **The comparison at one place**, from the k-th character of the needle on. -/
theorem matchLoop_holds (h : str.Holds hay) (hneedle : needle.Holds wanted) {j k : ℕ}
    (hk : k ≤ wanted.length) (hroom : j + (wanted.length - k) ≤ hay.length)
    (hfuel : wanted.length - k < fuel) :
    ∃ k', matchLoop str needle fuel j k = .done k' ∧
      (k' = wanted.length ↔ wanted.drop k <+: hay.drop j) := by
  induction fuel generalizing j k with
  | zero => omega
  | succ fuel ih =>
    rw [matchLoop, hneedle.size]
    by_cases hlt : k < wanted.length
    · have hj : j < hay.length := by omega
      rw [if_pos hlt, h.charAt_getElem hj, done_bind, hneedle.charAt_getElem hlt, done_bind,
        List.drop_eq_getElem_cons hlt, List.drop_eq_getElem_cons hj, List.cons_prefix_cons]
      by_cases hc : hay[j] = wanted[k]
      · obtain ⟨k', hrun, hiff⟩ := @ih (j + 1) (k + 1) hlt (by omega) (by omega)
        refine ⟨k', ?_, hiff.trans (and_iff_right hc.symm).symm⟩
        rw [if_neg (not_not.mpr hc)]
        exact hrun
      · refine ⟨k, ?_, iff_of_false (Nat.ne_of_lt hlt) fun hprefix => hc hprefix.1.symm⟩
        rw [if_pos hc]
        rfl
    · rw [if_neg hlt]
      have hend : k = wanted.length := Nat.le_antisymm hk (Nat.not_lt.mp hlt)
      refine ⟨k, rfl, iff_of_true hend ?_⟩
      rw [hend, List.drop_length]
      exact List.nil_prefix

/-- **The loop over the places**, from one of them on. -/
theorem strFindLoop_holds (h : str.Holds hay) (hneedle : needle.Holds wanted) (hne : wanted ≠ [])
    (hwanted : wanted.length ≤ hay.length) (hlength : hay.length < 2 ^ 63) {i : ℕ}
    (hi : i ≤ hay.length) (hfuel : hay.length + 2 ≤ fuel + i) :
    ∃ result, strFindLoop str needle fuel i = .done result ∧ FindsFirst wanted hay i result := by
  have hpos := List.length_pos_iff.mpr hne
  have hlast : add64 (sub64 str.size needle.size) 1 = hay.length - wanted.length + 1 := by
    rw [h.size, hneedle.size, sub64_of_le hwanted (by omega), add64_of_lt (by omega)]
  induction fuel generalizing i with
  | zero => omega
  | succ fuel ih =>
    rw [strFindLoop, hlast]
    by_cases hroom : i < hay.length - wanted.length + 1
    · have hlt : i < hay.length := by omega
      rw [if_pos hroom, h.charAt_getElem hlt, done_bind, hneedle.charAt_getElem hpos, done_bind]
      have hnext := ih (show i + 1 ≤ hay.length by omega) (by omega)
      by_cases hc : hay[i] = wanted[0]
      · obtain ⟨k, hmatch, hk⟩ := @matchLoop_holds str needle hay wanted fuel h hneedle i 0
          (Nat.zero_le _) (by omega) (by omega)
        rw [if_neg (not_not.mpr hc), hmatch, done_bind, hneedle.size]
        rw [List.drop_zero] at hk
        by_cases hfound : k = wanted.length
        · rw [if_pos hfound]
          exact ⟨some i, rfl, .here (hk.mp hfound)⟩
        · rw [if_neg hfound]
          obtain ⟨result, hrun, hfinds⟩ := hnext
          exact ⟨result, hrun, hfinds.later (mt hk.mpr hfound)⟩
      · have hhere : ¬ wanted <+: hay.drop i := by
          intro hprefix
          rw [← List.drop_zero (l := wanted), List.drop_eq_getElem_cons hpos,
            List.drop_eq_getElem_cons hlt, List.cons_prefix_cons] at hprefix
          exact hc hprefix.1.symm
        obtain ⟨result, hrun, hfinds⟩ := hnext
        rw [if_pos hc]
        exact ⟨result, hrun, hfinds.later hhere⟩
    · rw [if_neg hroom]
      exact ⟨none, rfl, .short hne (by omega)⟩

/-- **`str_find` finds the first place**, and reads no character outside of the strings; it stops only for a
start behind the end. -/
theorem strFind_first (h : str.Holds hay) (hneedle : needle.Holds wanted) (hlength : hay.length < 2 ^ 63)
    (hfuel : hay.length + 2 ≤ fuel) (startingAt : ℕ) :
    (hay.length < startingAt → strFind fuel str needle startingAt = .halt .bugOn) ∧
    (startingAt ≤ hay.length → ∃ result, strFind fuel str needle startingAt = .done result ∧
      FindsFirst wanted hay startingAt result) := by
  refine ⟨fun hbehind => if_pos (h.size ▸ hbehind), fun hstart => ?_⟩
  have hleft : sub64 str.size startingAt = hay.length - startingAt := by
    rw [h.size, sub64_of_le hstart (by omega)]
  rw [strFind, if_neg (h.size ▸ Nat.not_lt.mpr hstart), hleft, hneedle.size, hneedle.strEmpty]
  by_cases hne : wanted = []
  · rw [hne]
    exact ⟨some startingAt, rfl, .here List.nil_prefix⟩
  · by_cases hshort : wanted.length > hay.length - startingAt
    · rw [if_pos hshort]
      exact ⟨none, rfl, .short hne (by omega)⟩
    · rw [if_neg hshort, if_neg (by simpa using hne)]
      exact strFindLoop_holds h hneedle hne (by omega) hlength hstart (by omega)

/-- **`str_contains`** -/
theorem strContains_holds (h : str.Holds hay) (hneedle : needle.Holds wanted)
    (hlength : hay.length < 2 ^ 63) (hfuel : hay.length + 2 ≤ fuel) :
    strContains fuel str needle = .done (decide (wanted <:+: hay)) := by
  obtain ⟨result, hrun, hfinds⟩ := (strFind_first h hneedle hlength hfuel 0).2 (Nat.zero_le _)
  rw [strContains, hrun, done_bind]
  exact congrArg Outcome.done (Bool.eq_iff_iff.mpr (hfinds.isSome_iff.trans decide_eq_true_iff.symm))

theorem strEqualsLoop_holds (h : str.Holds hay) (hneedle : needle.Holds wanted)
    (hsame : wanted.length = hay.length) {i : ℕ} (hi : i ≤ hay.length)
    (hfuel : hay.length - i < fuel) :
    strEqualsLoop str needle fuel i = .done (decide (hay.drop i = wanted.drop i)) := by
  induction fuel generalizing i with
  | zero => omega
  | succ fuel ih =>
    rw [strEqualsLoop, h.size]
    by_cases hlt : i < hay.length
    · have hlt' : i < wanted.length := hsame ▸ hlt
      rw [if_pos hlt, h.charAt_getElem hlt, done_bind, hneedle.charAt_getElem hlt', done_bind,
        List.drop_eq_getElem_cons hlt, List.drop_eq_getElem_cons hlt']
      by_cases hc : hay[i] = wanted[i]
      · rw [if_neg (not_not.mpr hc), ih hlt (by omega), hc]
        exact congrArg Outcome.done
          (decide_eq_decide.mpr ⟨congrArg (wanted[i] :: ·), fun heq => (List.cons.inj heq).2⟩)
      · rw [if_pos hc, decide_eq_false fun heq => hc (List.cons.inj heq).1]
        rfl
    · rw [if_neg hlt, List.drop_of_length_le (Nat.not_lt.mp hlt),
        List.drop_of_length_le (hsame ▸ Nat.not_lt.mp hlt)]
      rfl

/-- **`str_equals`** -/
theorem strEquals_holds (h : str.Holds hay) (hneedle : needle.Holds wanted) (hfuel : hay.length < fuel) :
    strEquals fuel str needle = .done (decide (hay = wanted)) := by
  rw [strEquals, h.size, hneedle.size]
  by_cases hsame : hay.length = wanted.length
  · rw [if_neg (not_not.mpr hsame), strEqualsLoop_holds h hneedle hsame.symm (Nat.zero_le _) hfuel]
    rfl
  · rw [if_pos hsame, decide_eq_false fun heq => hsame (congrArg List.length heq)]

end Search

theorem strFind_first_abcab : ∃ result,
    strFind 7 ⟨some ['a', 'b', 'c', 'a', 'b'], 5⟩ ⟨some ['a', 'b'], 2⟩ 1 = .done result ∧
      FindsFirst ['a', 'b'] ['a', 'b', 'c', 'a', 'b'] 1 result :=
  (strFind_first (holds_of_text ['a', 'b', 'c', 'a', 'b'] []) (holds_of_text ['a', 'b'] []) (by decide)
    (by decide) 1).2 (by decide)

end UltraKernel
