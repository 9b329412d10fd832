import UltraKernel.Cmdline.Model
import Mathlib.Data.List.DropRight

/-!
# Command lines that render items

A line is items with whitespace around them, possibly a `--` and what follows it.  The scanner
reads every item as its key and value, but leaves the closing quote of a quoted value behind: it
is the next key that is read.

* `scanItem_key`: the loop over a key passes the characters of a key;
* `reads_item`: what is read from an item.
-/

namespace UltraKernel.Cmdline

open Outcome

/-! ### Items -/

/-- A key of an item. -/
structure Key where
  text : List Char
  ne_nil : text ≠ []
  plain : ∀ c ∈ text, isspace c = false ∧ c ≠ '=' ∧ c ≠ '"'
  noStop : ¬ ['-', '-'] <:+: text

/-- A key alone, with a value, or with a value in quotes. -/
inductive Item where
  | bare (key : Key)
  | assigned (key : Key) (value : List Char) (hspace : ∀ c ∈ value, isspace c = false)
    (hquote : value.head? ≠ some '"')
  | quoted (key : Key) (value : List Char) (hquote : '"' ∉ value)

namespace Item

def key : Item → List Char
  | bare key | assigned key _ _ _ | quoted key _ _ => key.text

def value : Item → List Char
  | bare _ => []
  | assigned _ value _ _ | quoted _ value _ => value

def text : Item → List Char
  | bare key => key.text
  | assigned key value _ _ => key.text ++ '=' :: value
  | quoted key value _ => key.text ++ '=' :: '"' :: (value ++ ['"'])

def isQuoted : Item → Bool
  | quoted .. => true
  | _ => false

/-- The keys and values that are read from an item. -/
def pieces : Item → List (List Char × List Char)
  | bare key => [(key.text, [])]
  | assigned key value _ _ => [(key.text, value)]
  | quoted key value _ => [(key.text, value), (['"'], [])]

end Item

/-- Whitespace. -/
def Blank (gap : List Char) : Prop := ∀ c ∈ gap, isspace c = true

/-- The line ends or goes on with whitespace. -/
def Separated (line : List Char) : Prop := line.head?.all isspace

/-- **A line that renders items**: whitespace, or a `--` and the rest of the arguments, or an item
that is separated from what follows it. -/
inductive Renders : List Item → Option (List Char) → List Char → Prop
  | done {gap} (hgap : Blank gap) : Renders [] none gap
  | stop {gap rest} (hgap : Blank gap) : Renders [] (some rest) (gap ++ '-' :: '-' :: rest)
  | item {gap item items rest line} (hgap : Blank gap) (hline : Renders items rest line)
    (hseparated : Separated line) : Renders (item :: items) rest (gap ++ (item.text ++ line))

/-! ### Trimming -/

section Trim

variable {str : Str} {line : List Char}

theorem cmdlineTrim_holds {fuel : ℕ} (hfuel : line.length < fuel) (h : str.Holds line) :
    ∃ str', cmdlineTrim fuel str = .done str' ∧ str'.Holds (line.dropWhile isspace) := by
  induction line generalizing str fuel with
  | nil =>
    obtain ⟨fuel, rfl⟩ : ∃ n, fuel = n + 1 := ⟨fuel - 1, by omega⟩
    rw [cmdlineTrim, if_pos (by simpa using h.strEmpty)]
    exact ⟨str, rfl, h⟩
  | cons c line ih =>
    obtain ⟨fuel, rfl⟩ : ∃ n, fuel = n + 1 := ⟨fuel - 1, by omega⟩
    rw [List.length_cons] at hfuel
    rw [cmdlineTrim, if_neg (by simpa using h.strEmpty), h.charAt_zero, done_bind]
    by_cases hc : isspace c = true
    · obtain ⟨str', hoffset, hstr', _⟩ := strOffsetBy_holds (n := 1) h (by simp)
      rw [if_pos hc, hoffset, done_bind, List.dropWhile_cons_of_pos hc]
      exact ih (by omega) hstr'
    · rw [if_neg hc, List.dropWhile_cons_of_neg hc]
      exact ⟨str, rfl, h⟩

theorem dropWhile_blank {gap : List Char} (hgap : Blank gap) (line : List Char) :
    (gap ++ line).dropWhile isspace = line.dropWhile isspace :=
  List.dropWhile_append_of_pos hgap

theorem dropWhile_of_head {c : Char} (hc : isspace c = false) (line : List Char) :
    (c :: line).dropWhile isspace = c :: line :=
  List.dropWhile_cons_of_neg (by simp [hc])

end Trim

/-! ### Reading a key -/

section Scan

variable {key cmdline : Str} {known chars after value : List Char} {fuel : ℕ}

/-- What the loop over a key passes, followed by `after`. -/
structure Passed (chars after : List Char) : Prop where
  plain : ∀ c ∈ chars, isspace c = false ∧ c ≠ '='
  noStop : ∀ before rest, chars = before ++ rest → rest ≠ [] →
    strStartsWith (rest ++ after) ['-', '-'] = false

theorem Passed.tail {c : Char} (h : Passed (c :: chars) after) : Passed chars after where
  plain d hd := h.plain d (List.mem_cons_of_mem _ hd)
  noStop before rest heq hne := h.noStop (c :: before) rest (by rw [heq, List.cons_append]) hne

/-- **The loop over a key** passes the characters of the key. -/
theorem scanItem_key (fuel : ℕ) (hpassed : Passed chars after) (hkey : key.Holds known)
    (hadjacent : Adjacent key cmdline) (h : cmdline.Holds (chars ++ after)) :
    ∃ key' cmdline', scanItem (fuel + chars.length) key cmdline = scanItem fuel key' cmdline' ∧
      key'.Holds (known ++ chars) ∧ cmdline'.Holds after := by
  induction chars generalizing key cmdline known with
  | nil =>
    rw [List.append_nil]
    exact ⟨key, cmdline, rfl, hkey, h⟩
  | cons c chars ih =>
    obtain ⟨key', cmdline', hextend, hoffset, hkey', hadjacent', hcmdline'⟩ :=
      strExtendBy_holds hkey hadjacent h
    obtain ⟨hspace, heq⟩ := hpassed.plain c (List.mem_cons_self ..)
    have hstop : ¬ strStartsWith cmdline.chars ['-', '-'] = true := by
      rw [h.chars_eq, hpassed.noStop [] (c :: chars) rfl (by simp)]
      simp
    obtain ⟨key'', cmdline'', hscan, hkey'', hcmdline''⟩ :=
      ih hpassed.tail hkey' hadjacent' hcmdline'
    refine ⟨key'', cmdline'', ?_, ?_, hcmdline''⟩
    · rw [List.length_cons, ← Nat.add_assoc, scanItem, if_neg (by simpa using h.strEmpty),
        if_neg hstop, h.charAt_zero, done_bind, if_neg (by simp [hspace]), if_neg heq, hextend,
        done_bind, hoffset, done_bind]
      exact hscan
    · rw [List.append_assoc, List.singleton_append] at hkey''
      exact hkey''

/-- **A key without a value** ends with the line or before whitespace, which is passed. -/
theorem scanItem_bare (key : Str) (hseparated : Separated after) (hfuel : after.length < fuel)
    (h : cmdline.Holds after) :
    ∃ cmdline', scanItem (fuel + 1) key cmdline = .done (.item key strClear cmdline') ∧
      cmdline'.Holds (after.dropWhile isspace) := by
  cases after with
  | nil =>
    rw [scanItem, if_pos (by simpa using h.strEmpty)]
    exact ⟨cmdline, rfl, h⟩
  | cons c after =>
    have hspace : isspace c = true := by simpa [Separated] using hseparated
    have hstop : ¬ strStartsWith cmdline.chars ['-', '-'] = true := by
      rw [h.chars_eq]
      intro hstart
      simp only [strStartsWith, List.isPrefixOf_cons_cons, Bool.and_eq_true, beq_iff_eq] at hstart
      rw [← hstart.1] at hspace
      exact absurd hspace (by decide)
    obtain ⟨cmdline', htrim, hcmdline'⟩ := cmdlineTrim_holds hfuel h
    rw [scanItem, if_neg (by simpa using h.strEmpty), if_neg hstop, h.charAt_zero, done_bind,
      if_pos hspace, htrim, done_bind]
    exact ⟨cmdline', rfl, hcmdline'⟩

/-! ### Reading a value -/

theorem startsWithQuote_holds (h : cmdline.Holds after) :
    startsWithQuote cmdline = .done (decide (after.head? = some '"')) := by
  cases after with
  | nil =>
    rw [startsWithQuote, if_pos (by simpa using h.strEmpty)]
    rfl
  | cons c after =>
    rw [startsWithQuote, if_neg (by simpa using h.strEmpty), h.charAt_zero]
    exact congrArg Outcome.done (by simp)

theorem takeValue_holds {valueEnd : Option ℕ} (hend : valueEnd.getD cmdline.size = value.length)
    (h : cmdline.Holds (value ++ after)) :
    ∃ value' cmdline', takeValue cmdline valueEnd = .done (value', cmdline') ∧
      value'.Holds value ∧ cmdline'.Holds after := by
  obtain ⟨value', hsubstring, hvalue'⟩ := strSubstring_holds h
  obtain ⟨cmdline', hoffset, hcmdline', _⟩ := strOffsetBy_holds (n := value.length) h (by simp)
  rw [List.drop_left] at hcmdline'
  rw [takeValue, hend, hsubstring, done_bind, hoffset, done_bind]
  exact ⟨value', cmdline', rfl, hvalue', hcmdline'⟩

theorem matchWhitespace_holds {str : Str} {c : Char} {line : List Char} (h : str.Holds (c :: line)) :
    matchWhitespace str = .done (isspace c) := by
  rw [matchWhitespace, h.charAt_zero]
  rfl

/-- **A value without quotes** ends with the line or before whitespace. -/
theorem scanValue_plain (hspace : ∀ c ∈ value, isspace c = false) (hquote : value.head? ≠ some '"')
    (hseparated : Separated after) (hfuel : value.length < fuel)
    (h : cmdline.Holds (value ++ after)) :
    ∃ value' cmdline', scanValue fuel cmdline = .done (value', cmdline') ∧ value'.Holds value ∧
      cmdline'.Holds after := by
  have hhead : (value ++ after).head? ≠ some '"' := by
    cases value with
    | nil =>
      intro hafter
      rw [List.nil_append] at hafter
      rw [Separated, hafter] at hseparated
      exact absurd hseparated (by decide)
    | cons c value => exact hquote
  have hfind := strFindWithCb_holds matchWhitespace_holds hspace hseparated hfuel h
  rw [scanValue, startsWithQuote_holds h, done_bind, if_neg (by simpa using hhead), hfind, done_bind]
  refine takeValue_holds ?_ h
  split_ifs with hafter
  · rw [Option.getD_none, h.size, hafter, List.append_nil]
  · rfl

/-- **A value in quotes** ends before its closing quote, which is left. -/
theorem scanValue_quoted (hquote : '"' ∉ value)
    (h : cmdline.Holds ('"' :: (value ++ '"' :: after))) :
    ∃ value' cmdline', scanValue fuel cmdline = .done (value', cmdline') ∧ value'.Holds value ∧
      cmdline'.Holds ('"' :: after) := by
  obtain ⟨inside, hinside, hline, _⟩ := strOffsetBy_holds (n := 1) h (by simp)
  change inside.Holds (value ++ '"' :: after) at hline
  have hfind : strFindOne (value ++ '"' :: after) '"' = some value.length := by
    rw [strFindOne, List.findIdx?_append, List.findIdx?_eq_none_iff.mpr, Option.none_or,
      List.findIdx?_cons]
    · simp
    · intro c hc
      exact decide_eq_false fun h => hquote (h ▸ hc)
  rw [scanValue, startsWithQuote_holds h, done_bind, if_pos (by simp), hinside, done_bind,
    hline.chars_eq, hfind]
  exact takeValue_holds rfl hline

/-- **A key with a value**: the value is read after the `=`. -/
theorem scanItem_assigned (key : Str) {left : List Char} (h : cmdline.Holds ('=' :: after))
    (hvalue : ∀ {str : Str}, str.Holds after → ∃ value' str',
      scanValue fuel str = .done (value', str') ∧ value'.Holds value ∧ str'.Holds left) :
    ∃ value' cmdline', scanItem (fuel + 1) key cmdline = .done (.item key value' cmdline') ∧
      value'.Holds value ∧ cmdline'.Holds left := by
  have hstop : ¬ strStartsWith cmdline.chars ['-', '-'] = true := by
    rw [h.chars_eq]
    simp [strStartsWith]
  obtain ⟨inside, hinside, hline, _⟩ := strOffsetBy_holds (n := 1) h (by simp)
  obtain ⟨value', cmdline', hscan, hvalue', hcmdline'⟩ := hvalue hline
  rw [scanItem, if_neg (by simpa using h.strEmpty), if_neg hstop, h.charAt_zero, done_bind,
    if_neg (by decide), if_pos rfl, hinside, done_bind, hscan, done_bind]
  exact ⟨value', cmdline', rfl, hvalue', hcmdline'⟩

/-! ### Reading an item -/

/-- What follows an item when it was read: the closing quote of a quoted value is left. -/
def Item.left (after : List Char) : Item → List Char
  | quoted .. => '"' :: after
  | _ => after

theorem Key.passed (k : Key) (hafter : after.head? ≠ some '-') : Passed k.text after where
  plain c hc := ⟨(k.plain c hc).1, (k.plain c hc).2.1⟩
  noStop before rest heq hne := by
    rw [← Bool.not_eq_true]
    intro hstart
    rw [strStartsWith, List.isPrefixOf_iff_prefix] at hstart
    obtain ⟨beyond, hbeyond⟩ := hstart
    cases rest with
    | nil => exact hne rfl
    | cons c rest =>
      cases rest with
      | nil =>
        simp only [List.cons_append, List.nil_append, List.cons.injEq] at hbeyond
        exact hafter (by rw [← hbeyond.2]; rfl)
      | cons d rest =>
        simp only [List.cons_append, List.nil_append, List.cons.injEq] at hbeyond
        obtain ⟨rfl, rfl, _⟩ := hbeyond
        refine k.noStop ⟨before, rest, ?_⟩
        rw [heq, List.append_assoc]
        rfl

theorem separated_head (hseparated : Separated after) : after.head? ≠ some '-' := by
  intro hafter
  rw [Separated, hafter] at hseparated
  exact absurd hseparated (by decide)

/-- One round of the main loop: the key and the value that are read, and what is left of the line
after them. -/
def Reads (fuel : ℕ) (cmdline : Str) (k v left : List Char) : Prop :=
  ∃ key value inside cmdline',
    scanItem fuel ⟨cmdline.text, 0⟩ cmdline = .done (.item key value inside) ∧
    key.Holds k ∧ value.Holds v ∧ cmdlineTrim fuel inside = .done cmdline' ∧
    cmdline'.Holds (left.dropWhile isspace)

theorem adjacent_start (cmdline : Str) : Adjacent ⟨cmdline.text, 0⟩ cmdline := by
  unfold Adjacent
  cases cmdline.text with
  | none => rfl
  | some text => rfl

/-- **A key alone**, such as the closing quote that was left. -/
theorem reads_bare (hpassed : Passed chars after) (hseparated : Separated after)
    (hfuel : (chars ++ after).length + 2 ≤ fuel) (h : cmdline.Holds (chars ++ after)) :
    Reads fuel cmdline chars [] after := by
  rw [List.length_append] at hfuel
  obtain ⟨n, rfl⟩ : ∃ n, fuel = n + 1 + chars.length := ⟨fuel - chars.length - 1, by omega⟩
  obtain ⟨key, inside, hkey, hholds, hinside⟩ := scanItem_key (n + 1) hpassed
    (holds_nil cmdline.text) (adjacent_start cmdline) h
  rw [List.nil_append] at hholds
  obtain ⟨inside', hscan, hinside'⟩ := scanItem_bare key hseparated (show _ < n by omega) hinside
  have hdropped := (List.dropWhile_sublist isspace (l := after)).length_le
  obtain ⟨cmdline', htrim, hcmdline'⟩ := cmdlineTrim_holds
    (show _ < n + 1 + chars.length by omega) hinside'
  rw [List.dropWhile_idempotent] at hcmdline'
  exact ⟨key, strClear, inside', cmdline', hkey.trans hscan, hholds, strClear_holds, htrim,
    hcmdline'⟩

/-- **A key with a value.** -/
theorem reads_assigned {left text : List Char} (k : Key)
    (hfuel : (k.text ++ '=' :: text).length + 2 ≤ fuel) (hleft : left.length ≤ text.length)
    (h : cmdline.Holds (k.text ++ '=' :: text))
    (hvalue : ∀ {n : ℕ} {str : Str}, text.length < n → str.Holds text → ∃ value' str',
      scanValue n str = .done (value', str') ∧ value'.Holds value ∧ str'.Holds left) :
    Reads fuel cmdline k.text value left := by
  rw [List.length_append, List.length_cons] at hfuel
  obtain ⟨n, rfl⟩ : ∃ n, fuel = n + 1 + k.text.length := ⟨fuel - k.text.length - 1, by omega⟩
  obtain ⟨key, inside, hkey, hholds, hinside⟩ := scanItem_key (n + 1)
    (k.passed (by simp)) (holds_nil cmdline.text) (adjacent_start cmdline) h
  rw [List.nil_append] at hholds
  obtain ⟨value', inside', hscan, hvalue', hinside'⟩ := scanItem_assigned key hinside
    fun hstr => hvalue (show _ < n by omega) hstr
  obtain ⟨cmdline', htrim, hcmdline'⟩ := cmdlineTrim_holds
    (show _ < n + 1 + k.text.length by omega) hinside'
  exact ⟨key, value', inside', cmdline', hkey.trans hscan, hholds, hvalue', htrim, hcmdline'⟩

/-- **An item** is read as its key and value. -/
theorem reads_item (item : Item) (hseparated : Separated after)
    (hfuel : (item.text ++ after).length + 2 ≤ fuel) (h : cmdline.Holds (item.text ++ after)) :
    Reads fuel cmdline item.key item.value (item.left after) := by
  cases item with
  | bare k => exact reads_bare (k.passed (separated_head hseparated)) hseparated hfuel h
  | assigned k value hspace hquote =>
    simp only [Item.text, List.append_assoc, List.cons_append] at hfuel h
    refine reads_assigned k hfuel (by simp [Item.left]) h fun hn hstr => ?_
    rw [List.length_append] at hn
    exact scanValue_plain hspace hquote hseparated (show value.length < _ by omega) hstr
  | quoted k value hquote =>
    simp only [Item.text, List.append_assoc, List.cons_append, List.nil_append] at hfuel h
    exact reads_assigned k hfuel (by simp [Item.left]; omega) h fun _ hstr =>
      scanValue_quoted hquote hstr

end Scan

end UltraKernel.Cmdline
