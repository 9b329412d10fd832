import UltraKernel.Cmdline.Parsing
import UltraKernel.Lib.Transducer

/-!
# A command line read letter by letter

What a command line says, for any line: a transducer that is in a key, behind the `=` of a key or
in a value, and emits the pieces of the line, a key with its value.  The scanner of `param.c` reads
the same pieces, but it stops at a `--` wherever it is in a key, and after a value without a key.

* `parseLoop_lexes`, `cmdlineParse_lexes`: the parse of any line handles the pieces before the
  first stop and returns what the stop leaves;
* `lex_suffix`: this is a suffix of the line.
-/

namespace UltraKernel.Cmdline

open Outcome

/-! ### The transducer -/

/-- Where the reader is: in a key, of which it has read these characters, none between the items;
behind the `=` of a key; in a value. -/
inductive Mode where
  | key (k : List Char)
  | assigned (k : List Char)
  | plain (k v : List Char)
  | quoted (k v : List Char)
  deriving DecidableEq

namespace Mode

/-- The closing quote of a value begins the next key. -/
def next : Mode → Char → Mode
  | key k, c => if isspace c then key [] else if c = '=' then assigned k else key (k ++ [c])
  | assigned k, c => if c = '"' then quoted k [] else if isspace c then key [] else plain k [c]
  | plain k v, c => if isspace c then key [] else plain k (v ++ [c])
  | quoted k v, c => if c = '"' then key ['"'] else quoted k (v ++ [c])

/-- The character ends the key and the value that are being read. -/
def endsAt : Mode → Char → Bool
  | quoted _ _, c => c = '"'
  | _, c => isspace c

/-- The key and the value that were read. -/
def piece : Mode → List (List Char × List Char)
  | key k => if k = [] then [] else [(k, [])]
  | assigned k => [(k, [])]
  | plain k v | quoted k v => [(k, v)]

end Mode

def lexer : Transducer Mode Char (List Char × List Char) where
  next := Mode.next
  emits mode c := if mode.endsAt c then mode.piece else []
  final := Mode.piece

/-- The pieces of a line. -/
def pieces (line : List Char) : List (List Char × List Char) := lexer.run (.key []) line

/-! ### The stops of the scanner -/

/-- What is left behind a value: the closing quote is left, too. -/
def afterValue (line : List Char) : List Char :=
  if line.head? = some '"' then line.tail.dropWhile (· ≠ '"')
  else line.dropWhile fun c => ! isspace c

/-- The scanner stops in a key, at a `--` or at the `=` of an empty key; what it leaves. -/
def stop : Mode → List Char → Option (List Char)
  | .key k, line =>
    if strStartsWith line ['-', '-'] then some ((line.drop 2).dropWhile isspace)
    else if k = [] ∧ line.head? = some '=' then some (afterValue line.tail)
    else none
  | _, _ => none

/-- The pieces before the first stop, and what this stop leaves, or nothing at the end of the
line. -/
def lex (mode : Mode) (line : List Char) : List (List Char × List Char) × List Char :=
  ((lexer.runUntil stop mode line).1, (lexer.runUntil stop mode line).2.getD [])

section Lex

variable {mode : Mode} {k v line left rest : List Char} {c : Char}

theorem stop_nil (mode : Mode) : stop mode [] = none := by
  cases mode with
  | key k => simp [stop, strStartsWith]
  | assigned => rfl
  | plain => rfl
  | quoted => rfl

theorem lex_nil (mode : Mode) : lex mode [] = (mode.piece, []) := by
  rw [lex, Transducer.runUntil_nil (stop_nil mode)]
  rfl

theorem lex_of_stop (h : stop mode line = some rest) : lex mode line = ([], rest) := by
  rw [lex, Transducer.runUntil_of_some h]
  rfl

theorem lex_cons (h : stop mode (c :: line) = none) :
    lex mode (c :: line) =
      ((if mode.endsAt c then mode.piece else []) ++ (lex (mode.next c) line).1,
        (lex (mode.next c) line).2) := by
  rw [lex, Transducer.runUntil_cons h]
  rfl

/-- A character that ends nothing. -/
theorem lex_cons_of_inside (h : stop mode (c :: line) = none) (hinside : mode.endsAt c = false) :
    lex mode (c :: line) = lex (mode.next c) line := by
  rw [lex_cons h, hinside]
  rfl

theorem stop_dashes (k line : List Char) :
    stop (.key k) ('-' :: '-' :: line) = some (line.dropWhile isspace) := by
  rw [stop, if_pos (by simp [strStartsWith])]
  rfl

theorem stop_assigned (line : List Char) :
    stop (.key []) ('=' :: line) = some (afterValue line) := by
  rw [stop, if_neg (by simp [strStartsWith, List.isPrefixOf]), if_pos ⟨rfl, rfl⟩]
  rfl

/-- **The stops**, in a key: at a `--`, or at the `=` of an empty key. -/
theorem stop_eq_some (h : stop mode line = some rest) : ∃ k, mode = .key k ∧
    ((∃ after, line = '-' :: '-' :: after ∧ rest = after.dropWhile isspace) ∨
      (k = [] ∧ ∃ after, line = '=' :: after ∧ rest = afterValue after)) := by
  cases mode with
  | key k =>
    refine ⟨k, rfl, ?_⟩
    rw [stop] at h
    split_ifs at h with hdashes hassigned
    · obtain ⟨after, rfl⟩ := List.isPrefixOf_iff_prefix.mp hdashes
      exact .inl ⟨after, rfl, (Option.some.inj h).symm⟩
    · obtain ⟨hk, hhead⟩ := hassigned
      obtain ⟨after, rfl⟩ := List.head?_eq_some_iff.mp hhead
      exact .inr ⟨hk, after, rfl, (Option.some.inj h).symm⟩
  | assigned => cases h
  | plain => cases h
  | quoted => cases h

theorem stop_key_eq_none (hdashes : strStartsWith line ['-', '-'] = false)
    (hassigned : k = [] → line.head? ≠ some '=') : stop (.key k) line = none := by
  rw [stop, if_neg (by simp [hdashes]), if_neg fun h => hassigned h.1 h.2]

/-! ### The length of a piece -/

/-- How much was read of the piece that is being read. -/
def Mode.size : Mode → ℕ
  | key k | assigned k => k.length
  | plain k v | quoted k v => k.length + v.length

/-- The value that begins a line. -/
def valueOf (line : List Char) : List Char :=
  if line.head? = some '"' then line.tail.takeWhile (· ≠ '"')
  else line.takeWhile fun c => ! isspace c

theorem stop_of_not_dash (k : List Char) (hdash : c ≠ '-') (hassigned : c ≠ '=') :
    stop (.key k) (c :: line) = none := by
  refine stop_key_eq_none ?_ fun _ h => hassigned (Option.some.inj h)
  rw [strStartsWith, List.isPrefixOf_cons_cons, beq_false_of_ne hdash.symm, Bool.false_and]

theorem not_special_of_space (hc : isspace c = true) : c ≠ '-' ∧ c ≠ '=' ∧ c ≠ '"' := by
  refine ⟨?_, ?_, ?_⟩
  all_goals
    intro heq
    rw [heq] at hc
    exact absurd hc (by decide)

theorem stop_space (k : List Char) (hc : isspace c = true) : stop (.key k) (c :: line) = none :=
  stop_of_not_dash k (not_special_of_space hc).1 (not_special_of_space hc).2.1

/-- Between the items, whitespace is passed. -/
theorem lex_space (hc : isspace c = true) :
    lex (.key []) (c :: line) = lex (.key []) line := by
  rw [lex_cons (stop_space [] hc), Mode.next, if_pos hc]
  simp [Mode.piece]

theorem lex_trim (line : List Char) :
    lex (.key []) (line.dropWhile isspace) = lex (.key []) line := by
  induction line with
  | nil => rfl
  | cons c line ih =>
    by_cases hc : isspace c = true
    · rw [List.dropWhile_cons_of_pos hc, ih, lex_space hc]
    · rw [List.dropWhile_cons_of_neg hc]

/-- A key ends before whitespace. -/
theorem lex_key_space (hk : k ≠ []) (hc : isspace c = true) :
    lex (.key k) (c :: line) = ((k, []) :: (lex (.key []) line).1, (lex (.key []) line).2) := by
  have hends : Mode.endsAt (.key k) c = true := hc
  rw [lex_cons (stop_space k hc), hends, if_pos rfl, Mode.piece, if_neg hk, Mode.next, if_pos hc]
  rfl

theorem lex_plain (k v line : List Char) :
    lex (.plain k v) line =
      ((k, v ++ line.takeWhile fun c => ! isspace c) ::
        (lex (.key []) (line.dropWhile fun c => ! isspace c)).1,
        (lex (.key []) (line.dropWhile fun c => ! isspace c)).2) := by
  induction line generalizing v with
  | nil =>
    simp only [List.takeWhile_nil, List.dropWhile_nil, List.append_nil, lex_nil]
    rfl
  | cons c line ih =>
    have hstop : stop (.plain k v) (c :: line) = none := rfl
    by_cases hc : isspace c = true
    · have hends : Mode.endsAt (.plain k v) c = true := hc
      rw [List.takeWhile_cons_of_neg (by simp [hc]), List.dropWhile_cons_of_neg (by simp [hc]),
        lex_space hc, lex_cons hstop, hends, if_pos rfl, Mode.next, if_pos hc, List.append_nil]
      rfl
    · rw [Bool.not_eq_true] at hc
      have hinside : Mode.endsAt (.plain k v) c = false := hc
      rw [lex_cons_of_inside hstop hinside, Mode.next, if_neg (by simp [hc]), ih,
        List.takeWhile_cons_of_pos (by simp [hc]), List.dropWhile_cons_of_pos (by simp [hc]),
        List.append_assoc]
      rfl

theorem lex_quoted (k v line : List Char) :
    lex (.quoted k v) line =
      ((k, v ++ line.takeWhile (· ≠ '"')) :: (lex (.key []) (line.dropWhile (· ≠ '"'))).1,
        (lex (.key []) (line.dropWhile (· ≠ '"'))).2) := by
  induction line generalizing v with
  | nil =>
    simp only [List.takeWhile_nil, List.dropWhile_nil, List.append_nil, lex_nil]
    rfl
  | cons c line ih =>
    have hstop : stop (.quoted k v) (c :: line) = none := rfl
    by_cases hc : c = '"'
    · rw [hc] at hstop ⊢
      have hquote : stop (.key []) ('"' :: line) = none :=
        stop_of_not_dash [] (by decide) (by decide)
      have hinside : Mode.endsAt (.key []) '"' = false := by decide
      rw [List.takeWhile_cons_of_neg (by simp), List.dropWhile_cons_of_neg (by simp),
        lex_cons hstop, lex_cons_of_inside hquote hinside, List.append_nil]
      rfl
    · have hinside : Mode.endsAt (.quoted k v) c = false := decide_eq_false hc
      rw [lex_cons_of_inside hstop hinside, Mode.next, if_neg hc, ih,
        List.takeWhile_cons_of_pos (by simp [hc]), List.dropWhile_cons_of_pos (by simp [hc]),
        List.append_assoc]
      rfl

/-- **Behind an `=`** the value is read. -/
theorem lex_assigned (k line : List Char) :
    lex (.assigned k) line =
      ((k, valueOf line) :: (lex (.key []) (afterValue line)).1,
        (lex (.key []) (afterValue line)).2) := by
  cases line with
  | nil => rw [valueOf, afterValue, lex_nil]; rfl
  | cons c line =>
    have hstop : stop (.assigned k) (c :: line) = none := rfl
    by_cases hquote : c = '"'
    · rw [hquote] at hstop ⊢
      have hinside : Mode.endsAt (.assigned k) '"' = false := show isspace '"' = false by decide
      have hhead : ('"' :: line).head? = some '"' := rfl
      rw [lex_cons_of_inside hstop hinside, Mode.next, if_pos rfl, lex_quoted, valueOf, afterValue,
        if_pos hhead, if_pos hhead]
      rfl
    · have hhead : (c :: line).head? ≠ some '"' := by simpa using hquote
      rw [valueOf, afterValue, if_neg hhead, if_neg hhead]
      by_cases hc : isspace c = true
      · have hends : Mode.endsAt (.assigned k) c = true := hc
        rw [List.takeWhile_cons_of_neg (by simp [hc]), List.dropWhile_cons_of_neg (by simp [hc]),
          lex_space hc, lex_cons hstop, hends, if_pos rfl, Mode.next, if_neg hquote, if_pos hc]
        rfl
      · have hinside : Mode.endsAt (.assigned k) c = false := by
          rw [← Bool.not_eq_true]
          exact hc
        rw [lex_cons_of_inside hstop hinside, Mode.next, if_neg hquote, if_neg hc, lex_plain,
          List.takeWhile_cons_of_pos (by simp [hc]), List.dropWhile_cons_of_pos (by simp [hc])]
        rfl

end Lex

/-! ### The scanner reads what the transducer emits -/

section Scan

variable {key cmdline : Str} {k line : List Char} {fuel : ℕ}

theorem strFindOne_none {needle : Char} (h : needle ∉ line) : strFindOne line needle = none := by
  rw [strFindOne, List.findIdx?_eq_none_iff]
  intro c hc
  exact decide_eq_false fun heq => h (heq ▸ hc)

/-- The value in quotes goes on to the end of the line when they are not closed. -/
theorem scanValue_unterminated {value : List Char} (hquote : '"' ∉ value)
    (h : cmdline.Holds ('"' :: value)) :
    ∃ value' cmdline', scanValue fuel cmdline = .done (value', cmdline') ∧ value'.Holds value ∧
      cmdline'.Holds [] := by
  obtain ⟨inside, hinside, hline, _⟩ := @strOffsetBy_holds cmdline ('"' :: value) 1 h (by simp)
  have hline : inside.Holds value := hline
  rw [scanValue, startsWithQuote_holds h, done_bind, if_pos (by simp), hinside, done_bind,
    hline.chars_eq, strFindOne_none hquote]
  rw [← List.append_nil value] at hline
  refine takeValue_holds ?_ hline
  rw [Option.getD_none, hline.size, List.append_nil]

/-- **The value of any line.** -/
theorem scanValue_holds (hfuel : line.length < fuel) (h : cmdline.Holds line) :
    ∃ value cmdline', scanValue fuel cmdline = .done (value, cmdline') ∧
      value.Holds (valueOf line) ∧ cmdline'.Holds (afterValue line) := by
  rw [valueOf, afterValue]
  by_cases hquote : line.head? = some '"'
  · rw [if_pos hquote, if_pos hquote]
    obtain ⟨rest, rfl⟩ := List.head?_eq_some_iff.mp hquote
    rw [List.tail_cons]
    have hvalue : '"' ∉ rest.takeWhile (· ≠ '"') := by
      intro hmem
      simpa using List.mem_takeWhile_imp hmem
    have hsplit := rest.takeWhile_append_dropWhile (p := (· ≠ '"'))
    cases hafter : rest.dropWhile (· ≠ '"') with
    | nil =>
      rw [hafter, List.append_nil] at hsplit
      rw [hsplit] at hvalue ⊢
      exact scanValue_unterminated hvalue h
    | cons c after =>
      have hc : c = '"' := by
        have hhead := List.head?_dropWhile_not (fun c : Char => decide (c ≠ '"')) rest
        rw [hafter] at hhead
        simpa using hhead
      rw [hafter, hc] at hsplit
      rw [hc]
      rw [← hsplit] at h
      exact scanValue_quoted hvalue h
  · rw [if_neg hquote, if_neg hquote]
    have hsplit := line.takeWhile_append_dropWhile (p := fun c => ! isspace c)
    have hlength := congrArg List.length hsplit
    rw [List.length_append] at hlength
    rw [← hsplit] at h
    refine scanValue_plain ?_ ?_ ?_ (by omega) h
    · intro c hc
      simpa using List.mem_takeWhile_imp hc
    · intro hhead
      rw [← hsplit] at hquote
      rw [List.head?_append, hhead] at hquote
      exact hquote rfl
    · have hhead := List.head?_dropWhile_not (fun c => ! isspace c) line
      rw [Separated]
      cases hrest : line.dropWhile fun c => ! isspace c with
      | nil => rfl
      | cons c rest =>
        rw [hrest] at hhead
        simpa using hhead

/-- What a round of the scanner says about the line that it reads from inside a key. -/
def Lexed (k line : List Char) : Scan → Prop
  | .finished cmdline => (lex (.key k) line).1 = [] ∧ cmdline.Holds (lex (.key k) line).2
  | .item key value cmdline => ∃ k' v left, key.Holds k' ∧ value.Holds v ∧ cmdline.Holds left ∧
      k'.length + left.length ≤ k.length + line.length ∧
      lex (.key k) line =
        if k' = [] then ([], left) else ((k', v) :: (lex (.key []) left).1, (lex (.key []) left).2)

theorem lexed_end (hkey : key.Holds k) (h : cmdline.Holds []) :
    Lexed k [] (.item key strClear cmdline) := by
  refine ⟨k, [], [], hkey, strClear_holds, h, le_rfl, ?_⟩
  rw [lex_nil, lex_nil, Mode.piece, Mode.piece, if_pos rfl]
  split_ifs
  · rfl
  · rfl

theorem lexed_space {c : Char} (hk : k ≠ []) (hc : isspace c = true) (hkey : key.Holds k)
    (h : cmdline.Holds ((c :: line).dropWhile isspace)) :
    Lexed k (c :: line) (.item key strClear cmdline) := by
  have hdropped := (List.dropWhile_sublist isspace (l := c :: line)).length_le
  refine ⟨k, [], _, hkey, strClear_holds, h, by omega, ?_⟩
  rw [if_neg hk, lex_key_space hk hc, lex_trim, lex_space hc]

theorem afterValue_length (line : List Char) : (afterValue line).length ≤ line.length := by
  rw [afterValue]
  split_ifs
  · exact (List.dropWhile_sublist _).length_le.trans (by rw [List.length_tail]; omega)
  · exact (List.dropWhile_sublist _).length_le

theorem lexed_assigned {value : Str} (hkey : key.Holds k) (hvalue : value.Holds (valueOf line))
    (h : cmdline.Holds (afterValue line)) : Lexed k ('=' :: line) (.item key value cmdline) := by
  have hlength := afterValue_length line
  refine ⟨k, valueOf line, afterValue line, hkey, hvalue, h, by rw [List.length_cons]; omega, ?_⟩
  have hdashes : strStartsWith ('=' :: line) ['-', '-'] = false := rfl
  by_cases hk : k = []
  · rw [if_pos hk, hk, lex_of_stop (stop_assigned line)]
  · have hinside : Mode.endsAt (.key k) '=' = false := show isspace '=' = false by decide
    have hnext : Mode.next (.key k) '=' = .assigned k := by simp [Mode.next, isspace]
    rw [if_neg hk, lex_cons_of_inside (stop_key_eq_none hdashes fun hnil => absurd hnil hk) hinside,
      hnext, lex_assigned]

/-- A character of the key. -/
theorem lexed_extended {c : Char} {scan : Scan} (hdashes : ¬ strStartsWith (c :: line) ['-', '-'])
    (hc : isspace c ≠ true) (hassigned : c ≠ '=') (h : Lexed (k ++ [c]) line scan) :
    Lexed k (c :: line) scan := by
  have hstop : stop (.key k) (c :: line) = none :=
    stop_key_eq_none (by simpa using hdashes) fun _ heq => hassigned (Option.some.inj heq)
  have hinside : Mode.endsAt (.key k) c = false := by
    rw [← Bool.not_eq_true]
    exact hc
  have hlex : lex (.key k) (c :: line) = lex (.key (k ++ [c])) line := by
    rw [lex_cons_of_inside hstop hinside, Mode.next, if_neg hc, if_neg hassigned]
  cases scan with
  | finished cmdline =>
    rw [Lexed, hlex]
    exact h
  | item key value cmdline =>
    obtain ⟨k', v, left, hk', hv, hleft, hlength, heq⟩ := h
    refine ⟨k', v, left, hk', hv, hleft, ?_, by rw [hlex, heq]⟩
    rw [List.length_append, List.length_singleton] at hlength
    rw [List.length_cons]
    omega

/-- **The loop over a key**, on any line: induction on the line, the key grows by what is passed. -/
theorem scanItem_lexes (hfuel : line.length + 2 ≤ fuel)
    (hstart : k = [] → ∀ c, line.head? = some c → isspace c = false) (hkey : key.Holds k)
    (hadjacent : Adjacent key cmdline) (h : cmdline.Holds line) :
    ∃ scan, scanItem fuel key cmdline = .done scan ∧ Lexed k line scan := by
  induction line generalizing fuel k key cmdline with
  | nil =>
    obtain ⟨fuel, rfl⟩ : ∃ n, fuel = n + 1 := ⟨fuel - 1, by omega⟩
    rw [scanItem, if_pos (by simpa using h.strEmpty)]
    exact ⟨_, rfl, lexed_end hkey h⟩
  | cons c line ih =>
    rw [List.length_cons] at hfuel
    obtain ⟨fuel, rfl⟩ : ∃ n, fuel = n + 1 := ⟨fuel - 1, by omega⟩
    rw [scanItem, if_neg (by simpa using h.strEmpty), h.chars_eq]
    by_cases hdashes : strStartsWith (c :: line) ['-', '-'] = true
    · have hprefix := List.isPrefixOf_iff_prefix.mp hdashes
      obtain ⟨after, hafter⟩ := hprefix
      have hline : c :: line = '-' :: '-' :: after := hafter.symm
      rw [hline] at h
      obtain ⟨inside, hoffset, hinside, _⟩ := strOffsetBy_holds (n := 2) h (by simp)
      have hlength := congrArg List.length hline
      simp only [List.length_cons] at hlength
      have hshort : ('-' :: '-' :: after).drop 2 = after := rfl
      rw [hshort] at hinside
      obtain ⟨cmdline', htrim, hcmdline'⟩ :=
        cmdlineTrim_holds (show after.length < fuel by omega) hinside
      rw [if_pos hdashes, hoffset, done_bind, htrim, done_bind]
      refine ⟨_, rfl, ?_⟩
      rw [Lexed, hline, lex_of_stop (stop_dashes k after)]
      exact ⟨rfl, hcmdline'⟩
    · rw [if_neg hdashes, h.charAt_zero, done_bind]
      by_cases hc : isspace c = true
      · have hk : k ≠ [] := fun hnil => by
          have := hstart hnil c rfl
          rw [this] at hc
          cases hc
        obtain ⟨cmdline', htrim, hcmdline'⟩ :=
          cmdlineTrim_holds (show (c :: line).length < fuel by rw [List.length_cons]; omega) h
        rw [if_pos hc, htrim, done_bind]
        exact ⟨_, rfl, lexed_space hk hc hkey hcmdline'⟩
      · rw [if_neg hc]
        by_cases hassigned : c = '='
        · rw [hassigned] at h ⊢
          obtain ⟨inside, hoffset, hinside, _⟩ := @strOffsetBy_holds cmdline ('=' :: line) 1 h
            (by simp)
          have hinside : inside.Holds line := hinside
          obtain ⟨value, cmdline', hscan, hvalue, hcmdline'⟩ :=
            scanValue_holds (show line.length < fuel by omega) hinside
          rw [if_pos rfl, hoffset, done_bind, hscan, done_bind]
          exact ⟨_, rfl, lexed_assigned hkey hvalue hcmdline'⟩
        · obtain ⟨key', cmdline', hextend, hoffset, hkey', hadjacent', hcmdline'⟩ :=
            strExtendBy_holds hkey hadjacent h
          obtain ⟨scan, hscan, hlexed⟩ := ih (show _ ≤ fuel by omega)
            (fun hnil => by simp at hnil) hkey' hadjacent' hcmdline'
          rw [if_neg hassigned, hextend, done_bind, hoffset, done_bind]
          exact ⟨scan, hscan, lexed_extended hdashes hc hassigned hlexed⟩

end Scan

/-! ### The main loop -/

section Parse

variable {μ : Type} {cmdline : Str} {line : List Char} {fuel : ℕ}

theorem dropWhile_head (line : List Char) :
    ∀ c, (line.dropWhile isspace).head? = some c → isspace c = false := by
  intro c hc
  have hhead := List.head?_dropWhile_not isspace line
  rw [hc] at hhead
  simpa using hhead

/-- **The main loop**, on any line that was trimmed. -/
theorem parseLoop_lexes (params : List (Param μ)) (unknownCb : Option (UnknownParamCb μ))
    (hfuel : line.length + 3 ≤ fuel) (hstart : ∀ c, line.head? = some c → isspace c = false)
    (h : cmdline.Holds line) (effects : Effects μ) :
    ∃ result, parseLoop params unknownCb fuel cmdline effects =
        .done (result, handleAll params unknownCb (lex (.key []) line).1 effects) ∧
      result.Holds (lex (.key []) line).2 := by
  induction fuel generalizing cmdline line effects with
  | zero => omega
  | succ fuel ih =>
    obtain ⟨scan, hscan, hlexed⟩ := scanItem_lexes (show line.length + 2 ≤ fuel by omega)
      (fun _ => hstart) (holds_nil cmdline.text) (adjacent_start cmdline) h
    rw [parseLoop, hscan, done_bind]
    cases scan with
    | finished cmdline' =>
      rw [hlexed.1]
      exact ⟨cmdline', rfl, hlexed.2⟩
    | item key value inside =>
      obtain ⟨k, v, left, hkey, hvalue, hinside, hlength, hlex⟩ := hlexed
      rw [hlex]
      dsimp only
      by_cases hk : k = []
      · rw [if_pos (by simpa [hkey.strEmpty] using hk), if_pos hk]
        exact ⟨inside, rfl, hinside⟩
      · have hpos := List.length_pos_iff.mpr hk
        have hdropped := (List.dropWhile_sublist isspace (l := left)).length_le
        rw [List.length_nil] at hlength
        obtain ⟨cmdline', htrim, hcmdline'⟩ :=
          cmdlineTrim_holds (show left.length < fuel by omega) hinside
        rw [if_neg (by simpa [hkey.strEmpty] using hk), if_neg hk, htrim, done_bind,
          hkey.chars_eq, hvalue.chars_eq]
        obtain ⟨result, hrun, hresult⟩ := ih (show _ + 3 ≤ fuel by omega) (dropWhile_head left)
          hcmdline' (handleItem params unknownCb k v effects)
        rw [lex_trim] at hrun hresult
        exact ⟨result, hrun, hresult⟩

/-- **A parse of any line** handles the pieces before the first stop, and returns what this stop
leaves. -/
theorem cmdlineParse_lexes (params : List (Param μ)) (unknownCb : Option (UnknownParamCb μ))
    (hfuel : line.length + 3 ≤ fuel) (h : cmdline.Holds line) (memory : μ) :
    ∃ result, cmdlineParse fuel cmdline params unknownCb memory =
        .done (result, handleAll params unknownCb (lex (.key []) line).1 ⟨memory, []⟩) ∧
      result.Holds (lex (.key []) line).2 := by
  obtain ⟨cmdline', htrim, hcmdline'⟩ := cmdlineTrim_holds (show _ < fuel by omega) h
  have hdropped := (List.dropWhile_sublist isspace (l := line)).length_le
  rw [cmdlineParse, htrim, done_bind, ← lex_trim line]
  exact parseLoop_lexes params unknownCb (by omega) (dropWhile_head line) hcmdline' _

/-! ### What is left is a suffix -/

theorem afterValue_suffix (line : List Char) : afterValue line <:+ line := by
  rw [afterValue]
  split_ifs
  · exact (List.dropWhile_suffix _).trans (List.tail_suffix line)
  · exact List.dropWhile_suffix _

theorem stop_suffix {mode : Mode} {rest : List Char} (h : stop mode line = some rest) :
    rest <:+ line := by
  obtain ⟨k, _, ⟨after, rfl, rfl⟩ | ⟨_, after, rfl, rfl⟩⟩ := stop_eq_some h
  · exact (List.dropWhile_suffix _).trans (List.suffix_append ['-', '-'] after)
  · exact (afterValue_suffix after).trans (List.suffix_cons _ after)

/-- **What is returned is a suffix** of the line. -/
theorem lex_suffix (mode : Mode) (line : List Char) : (lex mode line).2 <:+ line := by
  rcases lexer.runUntil_cases stop mode line with
    ⟨_, hrun⟩ | ⟨before, after, rest, rfl, hfirst, hrun⟩
  · rw [lex, hrun]
    exact List.nil_suffix
  · rw [lex, hrun]
    exact (stop_suffix hfirst.applies).trans (List.suffix_append before after)

end Parse

end UltraKernel.Cmdline
