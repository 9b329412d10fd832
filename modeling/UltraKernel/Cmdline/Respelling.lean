import UltraKernel.Cmdline.Lexer

/-!
# Dashes for underscores in a command line

The names of parameters are compared with dashes and underscores taken for each other, but the
scanner has looked at the dashes before.  A line and a respelling of it, with dashes for some
underscores of its keys, are read side by side.

* `lex_respelled`: the same pieces up to dashes, and the same rest, while no stop is moved;
* `lex_respelled_differs`: another rest, or fewer pieces, otherwise;
* `respelled_parse_iff`: what this means for the parameters.
-/

namespace UltraKernel.Cmdline

open Outcome

/-- Some underscores of the keys become dashes.  What follows a `--` at the beginning of a token is
not made of keys. -/
inductive Respells : Mode → List Char → List Char → Prop
  | done {mode} : Respells mode [] []
  | terminated {after} : Respells (.key []) ('-' :: '-' :: after) ('-' :: '-' :: after)
  | letter {mode c c' line line'} (hletter : c' = c ∨ (∃ k, mode = .key k) ∧ c = '_' ∧ c' = '-')
    (hbegins : mode = .key [] → ¬ ['-', '-'] <+: c :: line)
    (hrest : Respells (mode.next c) line line') : Respells mode (c :: line) (c' :: line')

/-- Up to where the scanner stops in the line it stops nowhere in the respelling, and from there on
the respelling is the line. -/
def KeepsStop : Mode → List Char → List Char → Prop
  | mode, c :: line, c' :: line' =>
    if stop mode (c :: line) = none then
      stop mode (c' :: line') = none ∧ KeepsStop (mode.next c) line line'
    else c' :: line' = c :: line
  | _, _, _ => True

/-- Keys that are the same up to dashes and underscores. -/
def SameKey (k k' : List Char) : Prop := k.map dashToUnderscore = k'.map dashToUnderscore

/-- The reader of a line and the reader of its respelling. -/
inductive Mode.Alike : Mode → Mode → Prop
  | key {k k'} (h : SameKey k k') : Alike (.key k) (.key k')
  | assigned {k k'} (h : SameKey k k') : Alike (.assigned k) (.assigned k')
  | plain {k k' v} (h : SameKey k k') : Alike (.plain k v) (.plain k' v)
  | quoted {k k' v} (h : SameKey k k') : Alike (.quoted k v) (.quoted k' v)

/-- A piece with underscores in its key. -/
def underscored (piece : List Char × List Char) : List Char × List Char :=
  (piece.1.map dashToUnderscore, piece.2)

section Alike

variable {mode mode' : Mode} {k k' line line' : List Char} {c c' : Char}

theorem SameKey.nil_iff (h : SameKey k k') : k = [] ↔ k' = [] := by
  have hlength := congrArg List.length h
  rw [List.length_map, List.length_map] at hlength
  rw [← List.length_eq_zero_iff, ← List.length_eq_zero_iff, hlength]

theorem SameKey.append (h : SameKey k k') (hc : dashToUnderscore c = dashToUnderscore c') :
    SameKey (k ++ [c]) (k' ++ [c']) := by
  have h : k.map dashToUnderscore = k'.map dashToUnderscore := h
  rw [SameKey, List.map_append, List.map_append, h, List.map_singleton, List.map_singleton, hc]

theorem stop_alike (h : mode.Alike mode') (line : List Char) : stop mode' line = stop mode line := by
  cases h with
  | key h => simp only [stop, h.nil_iff]
  | assigned => rfl
  | plain => rfl
  | quoted => rfl

theorem endsAt_alike (h : mode.Alike mode') (c : Char) : mode'.endsAt c = mode.endsAt c := by
  cases h with
  | key => rfl
  | assigned => rfl
  | plain => rfl
  | quoted => rfl

theorem piece_alike (h : mode.Alike mode') :
    mode'.piece.map underscored = mode.piece.map underscored := by
  have hpiece : ∀ {k k' v : List Char}, SameKey k k' → underscored (k', v) = underscored (k, v) :=
    fun h => Prod.ext h.symm rfl
  cases h with
  | @key k k' h =>
    rw [Mode.piece, Mode.piece]
    by_cases hk : k = []
    · rw [if_pos hk, if_pos (h.nil_iff.mp hk)]
    · rw [if_neg hk, if_neg fun hk' => hk (h.nil_iff.mpr hk'), List.map_singleton,
        List.map_singleton, hpiece h]
  | assigned h => exact congrArg (fun piece => [piece]) (hpiece h)
  | plain h => exact congrArg (fun piece => [piece]) (hpiece h)
  | quoted h => exact congrArg (fun piece => [piece]) (hpiece h)

theorem isspace_underscore : isspace '_' = false ∧ isspace '-' = false := by decide

/-- **A letter** and its respelling lead to readers that are alike. -/
theorem next_alike (h : mode.Alike mode')
    (hletter : c' = c ∨ (∃ k, mode = .key k) ∧ c = '_' ∧ c' = '-') :
    (mode.next c).Alike (mode'.next c') := by
  cases h with
  | key h =>
    rcases hletter with rfl | ⟨_, rfl, rfl⟩
    · rw [Mode.next, Mode.next]
      split_ifs
      · exact .key rfl
      · exact .assigned h
      · exact .key (h.append rfl)
    · rw [Mode.next, Mode.next, if_neg (by decide), if_neg (by decide), if_neg (by decide),
        if_neg (by decide)]
      exact .key (h.append (by decide))
  | assigned h =>
    rcases hletter with rfl | ⟨⟨_, hmode⟩, _⟩
    · rw [Mode.next, Mode.next]
      split_ifs
      · exact .quoted h
      · exact .key rfl
      · exact .plain h
    · cases hmode
  | plain h =>
    rcases hletter with rfl | ⟨⟨_, hmode⟩, _⟩
    · rw [Mode.next, Mode.next]
      split_ifs
      · exact .key rfl
      · exact .plain h
    · cases hmode
  | quoted h =>
    rcases hletter with rfl | ⟨⟨_, hmode⟩, _⟩
    · rw [Mode.next, Mode.next]
      split_ifs
      · exact .key rfl
      · exact .quoted h
    · cases hmode

theorem endsAt_respelled (hletter : c' = c ∨ (∃ k, mode = .key k) ∧ c = '_' ∧ c' = '-') :
    mode.endsAt c' = mode.endsAt c := by
  rcases hletter with rfl | ⟨⟨k, rfl⟩, rfl, rfl⟩
  · rfl
  · exact isspace_underscore.2.trans isspace_underscore.1.symm

/-- What is emitted at a letter and at its respelling. -/
theorem emits_respelled (h : mode.Alike mode')
    (hletter : c' = c ∨ (∃ k, mode = .key k) ∧ c = '_' ∧ c' = '-') :
    (if mode'.endsAt c' then mode'.piece else []).map underscored =
      (if mode.endsAt c then mode.piece else []).map underscored := by
  rw [endsAt_alike h, endsAt_respelled hletter]
  split_ifs
  · exact piece_alike h
  · rfl

/-- **While no stop is moved**, the respelling has the same pieces up to dashes, and the same is
left of it. -/
theorem lex_respelled (h : Respells mode line line') (hkeeps : KeepsStop mode line line')
    (halike : mode.Alike mode') :
    (lex mode' line').1.map underscored = (lex mode line).1.map underscored ∧
      (lex mode' line').2 = (lex mode line).2 := by
  induction h generalizing mode' with
  | done =>
    rw [lex_nil, lex_nil]
    exact ⟨piece_alike halike, rfl⟩
  | @terminated after =>
    have hstop := stop_dashes [] after
    rw [lex_of_stop hstop, lex_of_stop ((stop_alike halike _).trans hstop)]
    exact ⟨rfl, rfl⟩
  | @letter mode c c' line line' hletter hbegins hrest ih =>
    rw [KeepsStop] at hkeeps
    cases hstop : stop mode (c :: line) with
    | none =>
      rw [if_pos hstop] at hkeeps
      obtain ⟨hpieces, hleft⟩ := ih hkeeps.2 (next_alike halike hletter)
      rw [lex_cons hstop, lex_cons ((stop_alike halike _).trans hkeeps.1), List.map_append,
        List.map_append, emits_respelled halike hletter, hpieces]
      exact ⟨rfl, hleft⟩
    | some rest =>
      rw [if_neg (by simp [hstop])] at hkeeps
      rw [hkeeps, lex_of_stop hstop, lex_of_stop ((stop_alike halike _).trans hstop)]
      exact ⟨rfl, rfl⟩

end Alike

/-! ### A stop that is moved -/

section Differs

variable {mode mode' : Mode} {k v line line' rest rest' : List Char} {c c' : Char}

theorem Respells.length_eq (h : Respells mode line line') : line'.length = line.length := by
  induction h with
  | done => rfl
  | terminated => rfl
  | letter _ _ _ ih => rw [List.length_cons, List.length_cons, ih]

theorem letter_eq (hletter : c' = c ∨ (∃ k, mode = .key k) ∧ c = '_' ∧ c' = '-')
    (hc : c ≠ '_') : c' = c := by
  rcases hletter with heq | ⟨_, hunderscore, _⟩
  · exact heq
  · exact absurd hunderscore hc

theorem letter_eq_of_space (hletter : c' = c ∨ (∃ k, mode = .key k) ∧ c = '_' ∧ c' = '-')
    (hc : isspace c = true) : c' = c :=
  letter_eq hletter fun hunderscore => by
    rw [hunderscore, isspace_underscore.1] at hc
    cases hc

theorem letter_space (hletter : c' = c ∨ (∃ k, mode = .key k) ∧ c = '_' ∧ c' = '-')
    (hc : isspace c = false) : isspace c' = false := by
  rcases hletter with rfl | ⟨_, _, rfl⟩
  · exact hc
  · exact isspace_underscore.2

/-- A line is told from its respelling behind the whitespace that it begins with. -/
theorem Respells.eq_of_trim (h : Respells mode line line')
    (heq : line'.dropWhile isspace = line.dropWhile isspace) : line' = line := by
  induction h with
  | done => rfl
  | terminated => rfl
  | @letter mode c c' line line' hletter _ _ ih =>
    by_cases hc : isspace c = true
    · rw [letter_eq_of_space hletter hc] at heq ⊢
      rw [List.dropWhile_cons_of_pos hc, List.dropWhile_cons_of_pos hc] at heq
      rw [ih heq]
    · rw [Bool.not_eq_true] at hc
      rw [dropWhile_of_head hc, dropWhile_of_head (letter_space hletter hc)] at heq
      exact heq

/-- A line is told from its respelling behind the value that it begins with. -/
theorem Respells.eq_of_value (value : List Char → Mode) {p : Char → Bool}
    (hvalue : ∀ v k, value v ≠ .key k)
    (hnext : ∀ v c, p c = true → (value v).next c = value (v ++ [c]))
    (h : Respells (value v) line line') (heq : line'.dropWhile p = line.dropWhile p) :
    line' = line := by
  induction line generalizing v line' with
  | nil => exact List.eq_nil_of_length_eq_zero h.length_eq
  | cons c line ih =>
    generalize hmode : value v = mode at h
    cases h with
    | terminated => exact absurd hmode (hvalue v [])
    | @letter _ _ c' _ line' hletter _ hrest =>
      have hc' : c' = c := by
        rcases hletter with heq | ⟨⟨k, hkey⟩, _⟩
        · exact heq
        · exact absurd (hmode.trans hkey) (hvalue v k)
      rw [hc'] at heq ⊢
      by_cases hc : p c = true
      · rw [List.dropWhile_cons_of_pos hc, List.dropWhile_cons_of_pos hc] at heq
        rw [← hmode, hnext v c hc] at hrest
        rw [ih hrest heq]
      · rw [List.dropWhile_cons_of_neg hc, List.dropWhile_cons_of_neg hc] at heq
        exact heq

theorem Respells.eq_of_afterValue (h : Respells (.assigned k) line line')
    (heq : afterValue line' = afterValue line) : line' = line := by
  cases h with
  | done => rfl
  | @letter _ c c' line line' hletter _ hrest =>
    obtain rfl : c' = c := by
      rcases hletter with heq | ⟨⟨_, hkey⟩, _⟩
      · exact heq
      · cases hkey
    rw [afterValue, afterValue, List.head?_cons, List.head?_cons] at heq
    by_cases hquote : c' = '"'
    · rw [if_pos (by rw [hquote]), if_pos (by rw [hquote])] at heq
      rw [Mode.next, if_pos hquote] at hrest
      rw [Respells.eq_of_value (.quoted k) (fun _ _ => Mode.noConfusion)
        (fun v c hc => by rw [Mode.next, if_neg (by simpa using hc)]) hrest heq]
    · rw [if_neg (by simpa using hquote), if_neg (by simpa using hquote)] at heq
      rw [Mode.next, if_neg hquote] at hrest
      by_cases hc : isspace c' = true
      · rw [List.dropWhile_cons_of_neg (by simp [hc]), List.dropWhile_cons_of_neg (by simp [hc])]
          at heq
        exact heq
      · rw [if_neg hc] at hrest
        rw [List.dropWhile_cons_of_pos (by simp [hc]), List.dropWhile_cons_of_pos (by simp [hc])]
          at heq
        rw [Respells.eq_of_value (.plain k) (fun _ _ => Mode.noConfusion)
          (fun v c hc => by rw [Mode.next, if_neg (by simpa using hc)]) hrest heq]

/-- Two dashes of a key are not respelled. -/
theorem Respells.of_dashes {after : List Char} (h : Respells (.key k) ('-' :: '-' :: after) line') :
    ∃ after', line' = '-' :: '-' :: after' ∧
      (after' = after ∨ Respells (.key (k ++ ['-'] ++ ['-'])) after after') := by
  have hnext : ∀ k, Mode.next (.key k) '-' = .key (k ++ ['-']) := fun k => by
    rw [Mode.next, if_neg (by decide), if_neg (by decide)]
  cases h with
  | terminated => exact ⟨after, rfl, .inl rfl⟩
  | letter hletter _ hrest =>
    rw [letter_eq hletter (by decide)]
    rw [hnext] at hrest
    generalize hmode : Mode.key (k ++ ['-']) = mode at hrest
    cases hrest with
    | terminated => simp at hmode
    | @letter _ _ _ _ after' hletter _ hrest =>
      rw [letter_eq hletter (by decide)]
      rw [← hmode, hnext] at hrest
      exact ⟨after', rfl, .inr hrest⟩

/-- **Behind a stop** the line is told from its respelling by what is left. -/
theorem Respells.eq_of_stop (h : Respells mode line line') (hstop : stop mode line = some rest)
    (hstop' : stop mode line' = some rest) : line' = line := by
  obtain ⟨k, rfl, ⟨after, rfl, rfl⟩ | ⟨rfl, after, rfl, rfl⟩⟩ := stop_eq_some hstop
  · obtain ⟨after', rfl, rfl | hafter⟩ := h.of_dashes
    · rfl
    · rw [stop_dashes] at hstop'
      rw [hafter.eq_of_trim (Option.some.inj hstop')]
  · cases h with
    | letter hletter _ hrest =>
      rw [letter_eq hletter (by decide)] at hstop' ⊢
      have hnext : Mode.next (.key []) '=' = .assigned [] := by
        rw [Mode.next, if_neg (by decide), if_pos rfl]
      rw [hnext] at hrest
      rw [stop_assigned] at hstop'
      rw [hrest.eq_of_afterValue (Option.some.inj hstop')]

/-- A respelling stops where the line does. -/
theorem Respells.stop_ne_none (h : Respells mode line line') (hstop : stop mode line ≠ none) :
    stop mode line' ≠ none := by
  obtain ⟨rest, hrest⟩ := Option.ne_none_iff_exists'.mp hstop
  obtain ⟨k, rfl, ⟨after, rfl, rfl⟩ | ⟨rfl, after, rfl, rfl⟩⟩ := stop_eq_some hrest
  · obtain ⟨after', rfl, _⟩ := h.of_dashes
    rw [stop_dashes]
    exact Option.some_ne_none _
  · cases h with
    | letter hletter _ _ =>
      rw [letter_eq hletter (by decide), stop_assigned]
      exact Option.some_ne_none _

/-- In a key, a piece is emitted before the line is read as far as another stop. -/
theorem lex_key_length (hk : k ≠ []) (line : List Char) :
    (lex (.key k) line).1 ≠ [] ∨ (lex (.key k) line).2.length + 2 ≤ line.length := by
  induction line generalizing k with
  | nil =>
    rw [lex_nil, Mode.piece, if_neg hk]
    exact .inl (List.cons_ne_nil _ _)
  | cons c line ih =>
    cases hstop : stop (.key k) (c :: line) with
    | some rest =>
      obtain ⟨k', hkey, ⟨after, hline, rfl⟩ | ⟨hnil, _⟩⟩ := stop_eq_some hstop
      · rw [lex_of_stop hstop, hline]
        have := (List.dropWhile_sublist isspace (l := after)).length_le
        right
        simp only [List.length_cons]
        omega
      · exact absurd ((Mode.key.inj hkey).trans hnil) hk
    | none =>
      by_cases hc : isspace c = true
      · rw [lex_key_space hk hc]
        exact .inl (List.cons_ne_nil _ _)
      · have hinside : Mode.endsAt (.key k) c = false := by
          rw [← Bool.not_eq_true]
          exact hc
        rw [lex_cons_of_inside hstop hinside, Mode.next, if_neg hc]
        by_cases hassigned : c = '='
        · rw [if_pos hassigned, lex_assigned]
          exact .inl (List.cons_ne_nil _ _)
        · rw [if_neg hassigned]
          rcases ih (show k ++ [c] ≠ [] by simp) with hne | hlength
          · exact .inl hne
          · right
            rw [List.length_cons]
            omega

theorem Respells.trim_of_head (h : Respells mode (c :: line) line') (hc : isspace c = false) :
    line'.dropWhile isspace = line' := by
  cases h with
  | terminated => exact dropWhile_of_head hc _
  | letter hletter _ _ => exact dropWhile_of_head (letter_space hletter hc) _

theorem letter_key (hletter : c' = c ∨ (∃ k, mode = .key k) ∧ c = '_' ∧ c' = '-') (hc' : c' = '-') :
    isspace c = false ∧ c ≠ '=' := by
  rcases hletter with rfl | ⟨_, rfl, _⟩
  · rw [hc']
    decide
  · decide

/-- The last character of a key. -/
theorem lex_key_last (k : List Char) (hc : isspace c = false) (hassigned : c ≠ '=')
    (hseparated : Separated line) : (lex (.key k) (c :: line)).1 ≠ [] := by
  have hstop : stop (.key k) (c :: line) = none := by
    refine stop_key_eq_none ?_ fun _ heq => hassigned (Option.some.inj heq)
    rw [← Bool.not_eq_true]
    intro hdashes
    obtain ⟨after, hafter⟩ := List.isPrefixOf_iff_prefix.mp hdashes
    obtain ⟨_, rfl⟩ := List.cons.inj hafter
    exact absurd rfl (separated_head hseparated)
  have hne : k ++ [c] ≠ [] := by simp
  rw [lex_cons_of_inside hstop hc, Mode.next, if_neg (by simp [hc]), if_neg hassigned]
  cases line with
  | nil =>
    rw [lex_nil, Mode.piece, if_neg hne]
    exact List.cons_ne_nil _ _
  | cons d line =>
    have hd : isspace d = true := by simpa [Separated] using hseparated
    rw [lex_key_space hne hd]
    exact List.cons_ne_nil _ _

/-- **A new stop** leaves more than the line does, or loses the key that it is in. -/
theorem lex_of_new_stop (h : Respells mode line line') (hnone : stop mode line = none)
    (hstop : stop mode line' = some rest) :
    rest ≠ (lex mode line).2 ∨ 0 < (lex mode line).1.length := by
  obtain ⟨k, rfl, ⟨after', rfl, rfl⟩ | ⟨rfl, after', rfl, _⟩⟩ := stop_eq_some hstop
  · cases h with
    | terminated =>
      rw [stop_dashes] at hnone
      cases hnone
    | @letter _ c _ line _ hletter _ hrest =>
      obtain ⟨hspace, hassigned⟩ := letter_key hletter rfl
      rw [Mode.next, if_neg (by simp [hspace]), if_neg hassigned] at hrest
      have hlex : lex (.key k) (c :: line) = lex (.key (k ++ [c])) line := by
        rw [lex_cons_of_inside hnone hspace, Mode.next, if_neg (by simp [hspace]),
          if_neg hassigned]
      rw [hlex]
      rcases lex_key_length (show k ++ [c] ≠ [] by simp) line with hne | hlength
      · exact .inr (List.length_pos_iff.mpr hne)
      · generalize hmode : Mode.key (k ++ [c]) = mode at hrest
        cases hrest with
        | terminated => simp at hmode
        | @letter _ d _ after _ hletter _ hrest =>
          subst hmode
          obtain ⟨hspace, hassigned⟩ := letter_key hletter rfl
          cases after with
          | nil => exact .inr (List.length_pos_iff.mpr (lex_key_last _ hspace hassigned rfl))
          | cons e after =>
            cases he : isspace e with
            | true => exact .inr (List.length_pos_iff.mpr (lex_key_last _ hspace hassigned he))
            | false =>
              left
              rw [hrest.trim_of_head he]
              intro heq
              have hafter := hrest.length_eq
              rw [← heq] at hlength
              simp only [List.length_cons] at hlength hafter
              omega
  · cases h with
    | letter hletter _ _ =>
      rcases hletter with rfl | ⟨_, _, hdash⟩
      · rw [stop_assigned] at hnone
        cases hnone
      · exact absurd hdash (by decide)

/-- **When a stop is moved**, something else is left of the respelling, or it has fewer pieces. -/
theorem lex_respelled_differs (h : Respells mode line line') (hbreaks : ¬ KeepsStop mode line line')
    (halike : mode.Alike mode') :
    (lex mode' line').2 ≠ (lex mode line).2 ∨
      (lex mode' line').1.length < (lex mode line).1.length := by
  have hsame : ∀ {mode mode' : Mode} {line' rest}, mode.Alike mode' →
      stop mode line' = some rest → lex mode' line' = ([], rest) :=
    fun halike hstop => lex_of_stop ((stop_alike halike _).trans hstop)
  induction h generalizing mode' with
  | done => exact absurd trivial hbreaks
  | @terminated after =>
    rw [KeepsStop, if_neg (by simp [stop_dashes])] at hbreaks
    exact absurd rfl hbreaks
  | @letter mode c c' line line' hletter hbegins hrest ih =>
    have hrespells := Respells.letter hletter hbegins hrest
    rw [KeepsStop] at hbreaks
    cases hstop : stop mode (c :: line) with
    | none =>
      rw [if_pos hstop] at hbreaks
      cases hstop' : stop mode (c' :: line') with
      | none =>
        have hemits := congrArg List.length (emits_respelled halike hletter)
        rw [List.length_map, List.length_map] at hemits
        rw [lex_cons hstop, lex_cons ((stop_alike halike _).trans hstop'), List.length_append,
          List.length_append, hemits]
        rcases ih (fun hkeeps => hbreaks ⟨hstop', hkeeps⟩) (next_alike halike hletter) with
          hleft | hlength
        · exact .inl hleft
        · exact .inr (Nat.add_lt_add_left hlength _)
      | some rest =>
        rw [hsame halike hstop']
        exact lex_of_new_stop hrespells hstop hstop'
    | some rest =>
      rw [if_neg (by simp [hstop])] at hbreaks
      have hne := hrespells.stop_ne_none (show stop mode (c :: line) ≠ none by simp [hstop])
      obtain ⟨rest', hstop'⟩ := Option.ne_none_iff_exists'.mp hne
      rw [hsame halike hstop', lex_of_stop hstop]
      left
      intro heq
      have heq : rest' = rest := heq
      rw [heq] at hstop'
      exact hbreaks (hrespells.eq_of_stop hstop hstop')

end Differs

/-! ### The parse of a respelling -/

section Parse

variable {μ : Type} {k k' v line line' : List Char} {ps ps' : List (List Char × List Char)}

/-- An `unknown_cb` that takes dashes and underscores for each other. -/
def IgnoresDashes : Option (UnknownParamCb μ) → Prop
  | none => True
  | some cb => ∀ k k' v memory, SameKey k k' → cb k v memory = cb k' v memory

/-- The parses of two lines do the same to the memory, and leave the same. -/
def SameParse (fuel : ℕ) (cmdline cmdline' : Str) (params : List (Param μ))
    (unknownCb : Option (UnknownParamCb μ)) (memory : μ) : Prop :=
  ∃ result effects result' effects',
    cmdlineParse fuel cmdline params unknownCb memory = .done (result, effects) ∧
    cmdlineParse fuel cmdline' params unknownCb memory = .done (result', effects') ∧
    result'.chars = result.chars ∧ effects'.memory = effects.memory

theorem paramOf_alike (params : List (Param μ)) (h : SameKey k k') :
    paramOf params k' = paramOf params k := by
  have h : k.map dashToUnderscore = k'.map dashToUnderscore := h
  rw [paramOf, paramOf, h]

theorem handleItem_alike (params : List (Param μ)) {unknownCb : Option (UnknownParamCb μ)}
    (hcb : IgnoresDashes unknownCb) (hkey : SameKey k k') {effects effects' : Effects μ}
    (hmemory : effects'.memory = effects.memory) :
    (handleItem params unknownCb k' v effects').memory =
      (handleItem params unknownCb k v effects).memory := by
  simp only [handleItem, findParam_eq, paramOf_alike params hkey]
  cases paramOf params k with
  | none =>
    cases unknownCb with
    | none => exact hmemory
    | some cb =>
      show cb k' v effects'.memory = cb k v effects.memory
      rw [hmemory, hcb k k' v _ hkey]
  | some p =>
    dsimp only
    rw [hmemory]

/-- **Pieces that are the same up to dashes** do the same to the memory. -/
theorem handleAll_alike (params : List (Param μ)) {unknownCb : Option (UnknownParamCb μ)}
    (hcb : IgnoresDashes unknownCb) (h : ps'.map underscored = ps.map underscored)
    {effects effects' : Effects μ} (hmemory : effects'.memory = effects.memory) :
    (handleAll params unknownCb ps' effects').memory =
      (handleAll params unknownCb ps effects).memory := by
  induction ps generalizing ps' effects effects' with
  | nil =>
    rw [List.map_nil, List.map_eq_nil_iff] at h
    rw [h]
    exact hmemory
  | cons p ps ih =>
    cases ps' with
    | nil => cases h
    | cons p' ps' =>
      rw [List.map_cons, List.map_cons, List.cons.injEq] at h
      obtain ⟨hpiece, hpieces⟩ := h
      have hvalue : p'.2 = p.2 := (Prod.ext_iff.mp hpiece).2
      have hkey : SameKey p.1 p'.1 := (Prod.ext_iff.mp hpiece).1.symm
      refine ih hpieces ?_
      show (handleItem params unknownCb p'.1 p'.2 effects').memory =
        (handleItem params unknownCb p.1 p.2 effects).memory
      rw [hvalue]
      exact handleItem_alike params hcb hkey hmemory

/-! ### Counting what is handled -/

/-- A parameter that counts how often it is set. -/
def countingOps : ParamOps ℕ where
  allowsEmptyValue := true
  set _ count := (eok, count + 1)

theorem handleItem_counts {params : List (Param ℕ)} (hparams : ∀ p ∈ params, p.ops = countingOps)
    (effects : Effects ℕ) :
    (handleItem params none k v effects).memory =
      effects.memory + if (paramOf params k).isSome then 1 else 0 := by
  rw [handleItem_memory]
  cases hparam : paramOf params k with
  | none => rfl
  | some p =>
    have hops := hparams p (List.mem_of_find?_eq_some hparam)
    dsimp only
    rw [hops, if_neg (by simp [countingOps])]
    rfl

theorem handleAll_counts_le {params : List (Param ℕ)} (hparams : ∀ p ∈ params, p.ops = countingOps)
    (ps : List (List Char × List Char)) (effects : Effects ℕ) :
    (handleAll params none ps effects).memory ≤ effects.memory + ps.length := by
  induction ps generalizing effects with
  | nil => exact le_rfl
  | cons p ps ih =>
    refine (ih _).trans ?_
    rw [handleItem_counts hparams, List.length_cons]
    split_ifs
    · omega
    · omega

theorem handleAll_counts {params : List (Param ℕ)} (hparams : ∀ p ∈ params, p.ops = countingOps)
    (hps : ∀ p ∈ ps, (paramOf params p.1).isSome) (effects : Effects ℕ) :
    (handleAll params none ps effects).memory = effects.memory + ps.length := by
  induction ps generalizing effects with
  | nil => rfl
  | cons p ps ih =>
    refine (ih (fun q hq => hps q (List.mem_cons_of_mem _ hq)) _).trans ?_
    rw [handleItem_counts hparams, if_pos (hps p (List.mem_cons_self ..)), List.length_cons]
    omega

/-- A table with a counting parameter for each key. -/
def countingTable (ps : List (List Char × List Char)) : List (Param ℕ) :=
  ps.map fun p => ⟨p.1, countingOps⟩

theorem countingTable_ops (ps : List (List Char × List Char)) :
    ∀ p ∈ countingTable ps, p.ops = countingOps := by
  intro p hp
  obtain ⟨_, _, rfl⟩ := List.mem_map.mp hp
  rfl

theorem countingTable_finds (ps : List (List Char × List Char)) :
    ∀ p ∈ ps, (paramOf (countingTable ps) p.1).isSome := by
  intro p hp
  rw [paramOf, List.find?_isSome]
  exact ⟨⟨p.1, countingOps⟩, List.mem_map_of_mem hp, decide_eq_true rfl⟩

/-! ### The parse -/

section Lines

variable {cmdline cmdline' : Str} {fuel : ℕ}

theorem sameParse_of_keepsStop (h : Respells (.key []) line line')
    (hkeeps : KeepsStop (.key []) line line') (hfuel : line.length + 3 ≤ fuel)
    (hline : cmdline.Holds line) (hline' : cmdline'.Holds line') (params : List (Param μ))
    {unknownCb : Option (UnknownParamCb μ)} (hcb : IgnoresDashes unknownCb) (memory : μ) :
    SameParse fuel cmdline cmdline' params unknownCb memory := by
  have hfuel' : line'.length + 3 ≤ fuel := by
    rw [h.length_eq]
    exact hfuel
  obtain ⟨result, hrun, hresult⟩ := cmdlineParse_lexes params unknownCb hfuel hline memory
  obtain ⟨result', hrun', hresult'⟩ := cmdlineParse_lexes params unknownCb hfuel' hline' memory
  obtain ⟨hpieces, hleft⟩ := lex_respelled h hkeeps (.key rfl)
  refine ⟨result, _, result', _, hrun, hrun', ?_, handleAll_alike params hcb hpieces rfl⟩
  rw [hresult.chars_eq, hresult'.chars_eq, hleft]

theorem keepsStop_of_sameParse (h : Respells (.key []) line line')
    (hfuel : line.length + 3 ≤ fuel) (hline : cmdline.Holds line) (hline' : cmdline'.Holds line')
    (hsame : ∀ {μ : Type} (params : List (Param μ)) (memory : μ),
      SameParse fuel cmdline cmdline' params none memory) : KeepsStop (.key []) line line' := by
  by_contra hbreaks
  have hfuel' : line'.length + 3 ≤ fuel := by
    rw [h.length_eq]
    exact hfuel
  -- the parameters count the pieces of the line
  let params := countingTable (lex (.key []) line).1
  have hops := countingTable_ops (lex (.key []) line).1
  obtain ⟨result, effects, result', effects', hrun, hrun', hchars, hmemory⟩ := hsame params 0
  obtain ⟨left, hlex, hleft⟩ := cmdlineParse_lexes params none hfuel hline 0
  obtain ⟨left', hlex', hleft'⟩ := cmdlineParse_lexes params none hfuel' hline' 0
  obtain ⟨rfl, rfl⟩ := Prod.mk.inj (Outcome.done.inj (hrun.symm.trans hlex))
  obtain ⟨rfl, rfl⟩ := Prod.mk.inj (Outcome.done.inj (hrun'.symm.trans hlex'))
  rw [hleft.chars_eq, hleft'.chars_eq] at hchars
  rcases lex_respelled_differs h hbreaks (.key rfl) with hdiffers | hlength
  · exact hdiffers hchars
  · have hcount := handleAll_counts hops (countingTable_finds _) ⟨0, []⟩
    have hcount' := handleAll_counts_le hops (lex (.key []) line').1 ⟨0, []⟩
    have hmemory : (handleAll params none (lex (.key []) line').1 ⟨0, []⟩).memory =
      (handleAll params none (lex (.key []) line).1 ⟨0, []⟩).memory := hmemory
    rw [hcount] at hmemory
    rw [hmemory] at hcount'
    dsimp only at hcount'
    omega

/-- **A respelling is parsed like the line**, with any parameters, exactly when it keeps the stop of
the scanner; and so it is with any `unknown_cb` that takes dashes and underscores for each other. -/
theorem respelled_parse_iff (h : Respells (.key []) line line') (hfuel : line.length + 3 ≤ fuel)
    (hline : cmdline.Holds line) (hline' : cmdline'.Holds line') :
    ((∀ {μ : Type} (params : List (Param μ)) (memory : μ),
        SameParse fuel cmdline cmdline' params none memory) ↔ KeepsStop (.key []) line line') ∧
    ((∀ {μ : Type} (params : List (Param μ)) (unknownCb : Option (UnknownParamCb μ)),
        IgnoresDashes unknownCb → ∀ memory,
          SameParse fuel cmdline cmdline' params unknownCb memory) ↔
      KeepsStop (.key []) line line') := by
  have hnone := keepsStop_of_sameParse h hfuel hline hline'
  constructor
  · constructor
    · exact hnone
    · intro hkeeps μ params memory
      have hcb : IgnoresDashes (none : Option (UnknownParamCb μ)) := trivial
      exact sameParse_of_keepsStop h hkeeps hfuel hline hline' params hcb memory
  · constructor
    · intro hsame
      exact hnone fun params memory => hsame params none trivial memory
    · intro hkeeps μ params unknownCb hcb memory
      exact sameParse_of_keepsStop h hkeeps hfuel hline hline' params hcb memory

end Lines

/-- The lines `a_b` and `a-b`, with a parameter `a_b`. -/
theorem respelled_parse_iff_oneDash :
    SameParse 6 ⟨some ['a', '_', 'b'], 3⟩ ⟨some ['a', '-', 'b'], 3⟩
      [⟨['a', '_', 'b'], boolOps ⟨id, fun value _ => value, fun _ => rfl⟩⟩] none false := by
  have hrespells : Respells (.key []) ['a', '_', 'b'] ['a', '-', 'b'] :=
    .letter (.inl rfl) (by decide) <| .letter (.inr ⟨⟨['a'], rfl⟩, rfl, rfl⟩) (by decide) <|
      .letter (.inl rfl) (by decide) .done
  have hkeeps : KeepsStop (.key []) ['a', '_', 'b'] ['a', '-', 'b'] :=
    ⟨rfl, rfl, rfl, trivial⟩
  exact (respelled_parse_iff hrespells (show 3 + 3 ≤ 6 by decide)
    (holds_of_text ['a', '_', 'b'] []) (holds_of_text ['a', '-', 'b'] [])).1.mpr hkeeps _ _

/-- **Two dashes end the line**: `a__b=1` sets the parameter `a__b`, and of `a--b=1` the rest `b=1`
is returned. -/
theorem respelled_parse_twoDashes :
    Respells (.key []) ['a', '_', '_', 'b', '=', '1'] ['a', '-', '-', 'b', '=', '1'] ∧
      ∃ result effects result' effects',
        cmdlineParse 9 ⟨some ['a', '_', '_', 'b', '=', '1'], 6⟩
          [⟨['a', '_', '_', 'b'], stringOps ⟨id, fun value _ => value, fun _ => rfl⟩⟩] none [] =
            .done (result, effects) ∧
        cmdlineParse 9 ⟨some ['a', '-', '-', 'b', '=', '1'], 6⟩
          [⟨['a', '_', '_', 'b'], stringOps ⟨id, fun value _ => value, fun _ => rfl⟩⟩] none [] =
            .done (result', effects') ∧
        result.chars = [] ∧ effects.memory = ['1'] ∧
        result'.chars = ['b', '=', '1'] ∧ effects'.memory = [] :=
  ⟨.letter (.inl rfl) (by decide) <| .letter (.inr ⟨⟨['a'], rfl⟩, rfl, rfl⟩) (by decide) <|
      .letter (.inr ⟨⟨['a', '_'], rfl⟩, rfl, rfl⟩) (by decide) <| .letter (.inl rfl) (by decide) <|
      .letter (.inl rfl) (by decide) <| .letter (.inl rfl) (by decide) .done,
    _, _, _, _, rfl, rfl, rfl, rfl, rfl, rfl⟩

end Parse

end UltraKernel.Cmdline
