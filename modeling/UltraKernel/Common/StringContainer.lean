import UltraKernel.Common.Strings
import UltraKernel.Lib.Outcome

/-!
# `struct string` as a pointer and a size

The scanner of the command line moves one string over its input and grows another one over the
characters that it passes.  Here a string is the memory from its pointer on, with a size, and the
operations stop where `BUG_ON` would, or where a character outside the string is read.

* `Str.Holds`: the string is a given list of characters;
* `strOffsetBy_holds`, `strExtendBy_holds`, `strFindWithCb_holds`: what the operations do to it.
-/

namespace UltraKernel

open Outcome

/-- `struct string`: the memory from `text` on, `none` for `NULL`, and the size. -/
structure Str where
  text : Option (List Char)
  size : ℕ
  deriving DecidableEq

/-- What a run may not do: fail a `BUG_ON`, or read a character that is not in the string. -/
inductive StringBug where
  | bugOn
  | read
  deriving DecidableEq, Repr

/-- The characters of a string. -/
def Str.chars (str : Str) : List Char := (str.text.getD []).take str.size

/-- `str.text[i]` -/
def charAt (str : Str) (i : ℕ) : Outcome StringBug Char :=
  match str.chars[i]? with
  | some c => .done c
  | none => .halt .read

def strEmpty (str : Str) : Bool := str.size = 0

def strOffsetBy (str : Str) (value : ℕ) : Outcome StringBug Str :=
  if str.size < value then .halt .bugOn
  else .done ⟨str.text.map (List.drop value), str.size - value⟩

def strExtendBy (str : Str) (value : ℕ) : Outcome StringBug Str :=
  if str.text = none then .halt .bugOn else .done ⟨str.text, str.size + value⟩

/-- The result of `str_clear`. -/
def strClear : Str := ⟨none, 0⟩

def strSubstring (str : Str) (startIdx endIdx : ℕ) : Outcome StringBug Str :=
  if startIdx > endIdx then .done ⟨none, 0⟩
  else if endIdx > str.size then .halt .bugOn
  else .done ⟨str.text.map (List.drop startIdx), endIdx - startIdx⟩

/-- The loop of `str_find_with_cb`; `none` is the source's `-1`. -/
def findLoop (isMatch : Str → Outcome StringBug Bool) :
    ℕ → Str → ℕ → Outcome StringBug (Option ℕ)
  | 0, _, _ => .outOfFuel
  | fuel + 1, str, offset =>
    if strEmpty str then .done none
    else do
      if ← isMatch str then return some offset
      else
        let str ← strOffsetBy str 1
        findLoop isMatch fuel str (offset + 1)

def strFindWithCb (fuel : ℕ) (str : Str) (isMatch : Str → Outcome StringBug Bool) (offset : ℕ) :
    Outcome StringBug (Option ℕ) :=
  if offset > str.size then .halt .bugOn
  else do
    let str ← strOffsetBy str offset
    findLoop isMatch fuel str offset

/-! ### The characters of a string -/

/-- The string is these characters, all of them in memory. -/
structure Str.Holds (str : Str) (line : List Char) : Prop where
  size : str.size = line.length
  isPrefix : line <+: str.text.getD []

section Holds

variable {str key : Str} {line rest chars : List Char} {c : Char}

theorem Str.Holds.chars_eq (h : str.Holds line) : str.chars = line := by
  obtain ⟨beyond, hbeyond⟩ := h.isPrefix
  rw [Str.chars, h.size, ← hbeyond, List.take_left]

theorem Str.Holds.strEmpty (h : str.Holds line) : strEmpty str = decide (line = []) := by
  rw [UltraKernel.strEmpty, h.size, decide_eq_decide, List.length_eq_zero_iff]

theorem Str.Holds.charAt_zero (h : str.Holds (c :: line)) : charAt str 0 = .done c := by
  rw [charAt, h.chars_eq]
  rfl

theorem holds_nil (text : Option (List Char)) : (⟨text, 0⟩ : Str).Holds [] :=
  ⟨rfl, List.nil_prefix⟩

theorem strClear_holds : strClear.Holds [] := holds_nil none

/-- A string over memory that goes on behind it. -/
theorem holds_of_text (line beyond : List Char) :
    (⟨some (line ++ beyond), line.length⟩ : Str).Holds line :=
  ⟨rfl, List.prefix_append ..⟩

/-- **Moving on** drops the characters passed. -/
theorem strOffsetBy_holds {n : ℕ} (h : str.Holds line) (hn : n ≤ line.length) :
    ∃ str', strOffsetBy str n = .done str' ∧ str'.Holds (line.drop n) ∧
      str'.text = str.text.map (List.drop n) := by
  rw [strOffsetBy, if_neg (by rw [h.size]; omega)]
  refine ⟨_, rfl, ⟨?_, ?_⟩, rfl⟩
  · rw [h.size, List.length_drop]
  · obtain ⟨beyond, hbeyond⟩ := h.isPrefix
    have htext : (str.text.map (List.drop n)).getD [] = (str.text.getD []).drop n := by
      cases str.text with
      | none => simp
      | some text => rfl
    rw [htext, ← hbeyond, List.drop_append_of_le_length hn]
    exact List.prefix_append ..

/-- The second string begins where the first one ends. -/
def Adjacent (key str : Str) : Prop := str.text = key.text.map (List.drop key.size)

/-- **Growing over the next character** of the string that follows, which moves on. -/
theorem strExtendBy_holds (hkey : key.Holds chars) (hadjacent : Adjacent key str)
    (h : str.Holds (c :: line)) :
    ∃ key' str', strExtendBy key 1 = .done key' ∧ strOffsetBy str 1 = .done str' ∧
      key'.Holds (chars ++ [c]) ∧ Adjacent key' str' ∧ str'.Holds line := by
  obtain ⟨beyond, hbeyond⟩ := h.isPrefix
  cases htext : key.text with
  | none =>
    rw [hadjacent, htext] at hbeyond
    simp at hbeyond
  | some text =>
    obtain ⟨str', hoffset, hline, hmoved⟩ := strOffsetBy_holds (n := 1) h (by simp)
    have hpassed : text.drop key.size = c :: (line ++ beyond) := by
      rw [hadjacent, htext] at hbeyond
      exact hbeyond.symm
    refine ⟨⟨some text, key.size + 1⟩, str', ?_, hoffset, ⟨?_, ?_⟩, ?_, hline⟩
    · rw [strExtendBy, htext, if_neg (by simp)]
    · rw [hkey.size, List.length_append, List.length_singleton]
    · have hchars : text.take key.size = chars := by
        have hread := hkey.chars_eq
        rw [Str.chars, htext] at hread
        exact hread
      refine ⟨line ++ beyond, ?_⟩
      rw [List.append_assoc, List.singleton_append, ← hpassed, ← hchars, List.take_append_drop]
      rfl
    · rw [Adjacent, hmoved, hadjacent, htext, Option.map_some, Option.map_some, Option.map_some,
        List.drop_drop]

theorem strSubstring_holds (h : str.Holds (chars ++ rest)) :
    ∃ str', strSubstring str 0 chars.length = .done str' ∧ str'.Holds chars := by
  obtain ⟨beyond, hbeyond⟩ := h.isPrefix
  rw [strSubstring, if_neg (by omega), if_neg (by rw [h.size, List.length_append]; omega)]
  refine ⟨_, rfl, rfl, rest ++ beyond, ?_⟩
  cases htext : str.text with
  | none =>
    rw [htext] at hbeyond
    rw [← List.append_assoc, hbeyond]
    rfl
  | some text =>
    rw [htext] at hbeyond
    rw [← List.append_assoc, hbeyond]
    rfl

/-- **The search** finds the end of the characters that do not match. -/
theorem findLoop_holds {isMatch : Str → Outcome StringBug Bool} {stops : Char → Bool}
    (hmatch : ∀ {str c line}, Str.Holds str (c :: line) → isMatch str = .done (stops c))
    (hchars : ∀ c ∈ chars, stops c = false) (hrest : rest.head?.all stops)
    {fuel offset : ℕ} (hfuel : chars.length < fuel) (h : str.Holds (chars ++ rest)) :
    findLoop isMatch fuel str offset =
      .done (if rest = [] then none else some (offset + chars.length)) := by
  induction chars generalizing str fuel offset with
  | nil =>
    obtain ⟨fuel, rfl⟩ : ∃ n, fuel = n + 1 := ⟨fuel - 1, by omega⟩
    cases rest with
    | nil => rw [findLoop, if_pos (by simpa using h.strEmpty), if_pos rfl]
    | cons c rest =>
      have hc : stops c = true := by simpa using hrest
      rw [findLoop, if_neg (by simpa using h.strEmpty), hmatch h, done_bind, if_pos hc]
      rfl
  | cons c chars ih =>
    obtain ⟨fuel, rfl⟩ : ∃ n, fuel = n + 1 := ⟨fuel - 1, by omega⟩
    obtain ⟨str', hoffset, hstr', _⟩ := strOffsetBy_holds (n := 1) h (by simp)
    rw [findLoop, if_neg (by simpa using h.strEmpty), hmatch h, done_bind,
      if_neg (by simpa using hchars c (List.mem_cons_self ..)), hoffset, done_bind,
      ih (fun d hd => hchars d (List.mem_cons_of_mem _ hd)) (by simpa using hfuel) hstr',
      List.length_cons, show offset + 1 + chars.length = offset + (chars.length + 1) by omega]

theorem strFindWithCb_holds {isMatch : Str → Outcome StringBug Bool} {stops : Char → Bool}
    (hmatch : ∀ {str c line}, Str.Holds str (c :: line) → isMatch str = .done (stops c))
    (hchars : ∀ c ∈ chars, stops c = false) (hrest : rest.head?.all stops)
    {fuel : ℕ} (hfuel : chars.length < fuel) (h : str.Holds (chars ++ rest)) :
    strFindWithCb fuel str isMatch 0 = .done (if rest = [] then none else some chars.length) := by
  obtain ⟨str', hoffset, hstr', _⟩ := strOffsetBy_holds (n := 0) h (Nat.zero_le _)
  rw [strFindWithCb, if_neg (Nat.not_lt_zero _), hoffset, done_bind,
    findLoop_holds hmatch hchars hrest hfuel hstr', Nat.zero_add]

end Holds

end UltraKernel
