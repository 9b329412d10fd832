import UltraKernel.Cmdline.Lexer
import UltraKernel.Cmdline.UnknownParams

/-!
# Where a command line ends

The arguments for init begin behind a `--` at the beginning of a token.  The scanner looks for it at
every character of a key, and it also ends the parse at a token without a key.

* `stop_cases`: a stop of the scanner is at a token that begins with `--`, or it offends;
* `lex_of_clean`, `clean_of_lex`, `cmdlineParse_terminates_iff`: the parse ends where it should
  exactly when the keys of the line are clean.
-/

namespace UltraKernel.Cmdline

open Outcome

/-- A whitespace-delimited token begins behind these characters, outside a quoted value. -/
def BeginsToken (before : List Char) : Prop :=
  lexer.stateAfter (.key []) before = .key [] ∧ before.getLast?.all isspace = true

instance : DecidablePred BeginsToken := fun before =>
  inferInstanceAs (Decidable (lexer.stateAfter (.key []) before = .key [] ∧
    before.getLast?.all isspace = true))

/-- No token begins with `--`. -/
def NoTerminator (line : List Char) : Prop :=
  ∀ before after, line = before ++ after → BeginsToken before → ¬ ['-', '-'] <+: after

/-- A key is being read. -/
def Mode.IsKey : Mode → Prop
  | key _ => True
  | _ => False

/-- A `--` in a key that does not begin a token, or the `=` of an empty key. -/
def Offends (before after : List Char) : Prop :=
  ((lexer.stateAfter (.key []) before).IsKey ∧ ¬ BeginsToken before ∧ ['-', '-'] <+: after) ∨
    (lexer.stateAfter (.key []) before = .key [] ∧ after.head? = some '=')

/-- Up to the first token that begins with `--`, no key is empty before a `=`, and no key has a `--`
in it; nor does one begin with it right behind a closing quote. -/
def CleanKeys (line : List Char) : Prop :=
  ∀ before after, line = before ++ after → Offends before after →
    ∃ earlier between, before = earlier ++ between ∧ BeginsToken earlier ∧
      ['-', '-'] <+: between ++ after

section Stops

variable {mode : Mode} {k line before after between rest : List Char}

theorem stop_of_terminator (h : ['-', '-'] <+: line) (k : List Char) : stop (.key k) line ≠ none := by
  obtain ⟨after, rfl⟩ := h
  show stop (.key k) ('-' :: '-' :: after) ≠ none
  rw [stop_dashes]
  exact Option.some_ne_none _

theorem Mode.IsKey.exists (h : mode.IsKey) : ∃ k, mode = .key k := by
  cases mode with
  | key k => exact ⟨k, rfl⟩
  | assigned => exact h.elim
  | plain => exact h.elim
  | quoted => exact h.elim

theorem stop_of_offends (h : Offends before line) :
    stop (lexer.stateAfter (.key []) before) line ≠ none := by
  rcases h with ⟨hkey, _, hdashes⟩ | ⟨hkey, hassigned⟩
  · obtain ⟨k, hk⟩ := hkey.exists
    rw [hk]
    exact stop_of_terminator hdashes k
  · obtain ⟨after, rfl⟩ := List.head?_eq_some_iff.mp hassigned
    rw [hkey, stop_assigned]
    exact Option.some_ne_none _

/-- **A stop of the scanner** is at a token that begins with `--`, or it offends. -/
theorem stop_cases (h : stop (lexer.stateAfter (.key []) before) line = some rest) :
    (BeginsToken before ∧ ∃ after, line = '-' :: '-' :: after ∧ rest = after.dropWhile isspace) ∨
      Offends before line := by
  obtain ⟨k, hk, ⟨after, rfl, rfl⟩ | ⟨rfl, after, rfl, _⟩⟩ := stop_eq_some h
  · by_cases hbegins : BeginsToken before
    · exact .inl ⟨hbegins, after, rfl, rfl⟩
    · refine .inr (.inl ⟨?_, hbegins, after, rfl⟩)
      rw [hk]
      trivial
  · exact .inr (.inr ⟨hk, rfl⟩)

/-- A token that begins with `--` does not offend. -/
theorem not_offends_of_terminator (hbegins : BeginsToken before) (h : ['-', '-'] <+: line) :
    ¬ Offends before line := by
  intro hoffends
  rcases hoffends with ⟨_, hno, _⟩ | ⟨_, hassigned⟩
  · exact hno hbegins
  · obtain ⟨after, rfl⟩ := h
    exact absurd hassigned (by simp)

/-! ### What an offending stop loses -/

theorem next_piece {c : Char} (h : mode.piece ≠ []) (hinside : mode.endsAt c = false) :
    (mode.next c).piece ≠ [] := by
  cases mode with
  | key k =>
    have hc : isspace c = false := hinside
    rw [Mode.next, if_neg (by simp [hc])]
    split_ifs
    · simp [Mode.piece]
    · simp [Mode.piece]
  | assigned k =>
    have hc : ¬ isspace c = true := by simpa using show isspace c = false from hinside
    rw [Mode.next, if_neg hc]
    split_ifs
    · simp [Mode.piece]
    · simp [Mode.piece]
  | plain k v =>
    have hc : isspace c = false := hinside
    rw [Mode.next, if_neg (by simp [hc])]
    simp [Mode.piece]
  | quoted k v =>
    have hc : c ≠ '"' := of_decide_eq_false hinside
    rw [Mode.next, if_neg hc]
    simp [Mode.piece]

/-- What is being read is emitted in the end. -/
theorem run_ne_nil (h : mode.piece ≠ []) (line : List Char) : lexer.run mode line ≠ [] := by
  induction line generalizing mode with
  | nil => exact h
  | cons c line ih =>
    rw [Transducer.run_cons]
    have hemits : lexer.emits mode c = if mode.endsAt c then mode.piece else [] := rfl
    cases hends : mode.endsAt c with
    | true =>
      rw [hemits, hends, if_pos rfl]
      exact List.append_ne_nil_of_left_ne_nil h _
    | false => exact List.append_ne_nil_of_right_ne_nil _ (ih (next_piece h hends))

theorem run_of_offends (h : Offends before line) :
    lexer.run (lexer.stateAfter (.key []) before) line ≠ [] := by
  rcases h with ⟨hkey, _, after, rfl⟩ | ⟨hkey, hassigned⟩
  · obtain ⟨k, hk⟩ := hkey.exists
    rw [hk]
    show lexer.run (.key k) ('-' :: '-' :: after) ≠ []
    rw [Transducer.run_cons]
    have hnext : lexer.next (.key k) '-' = .key (k ++ ['-']) := by
      show Mode.next (.key k) '-' = .key (k ++ ['-'])
      simp [Mode.next, isspace]
    rw [hnext]
    exact List.append_ne_nil_of_right_ne_nil _ (run_ne_nil (by simp [Mode.piece]) _)
  · obtain ⟨after, rfl⟩ := List.head?_eq_some_iff.mp hassigned
    rw [hkey, Transducer.run_cons]
    have hnext : lexer.next (.key []) '=' = .assigned [] := by
      show Mode.next (.key []) '=' = .assigned []
      simp [Mode.next, isspace]
    rw [hnext]
    exact List.append_ne_nil_of_right_ne_nil _ (run_ne_nil (by simp [Mode.piece]) after)

/-! ### What an offending stop leaves -/

theorem dropWhile_length_of_head {p : Char → Bool} {c : Char} (hc : p c = false)
    (between after : List Char) :
    (c :: after).length ≤ ((between ++ c :: after).dropWhile p).length := by
  induction between with
  | nil => rw [List.nil_append, List.dropWhile_cons_of_neg (by simp [hc])]
  | cons d between ih =>
    rw [List.cons_append, List.dropWhile_cons]
    split_ifs
    · exact ih
    · simp only [List.length_cons, List.length_append]
      omega

/-- A value ends before the next key. -/
theorem plain_length {v : List Char} (h : lexer.stateAfter (.plain k v) between = .key []) :
    after.length ≤ ((between ++ after).dropWhile fun c => ! isspace c).length := by
  induction between generalizing v with
  | nil => cases h
  | cons c between ih =>
    have hnext : lexer.stateAfter (Mode.next (.plain k v) c) between = .key [] := h
    by_cases hc : isspace c = true
    · rw [List.cons_append, List.dropWhile_cons_of_neg (by simp [hc]), List.length_cons,
        List.length_append]
      omega
    · rw [Mode.next, if_neg hc] at hnext
      rw [List.cons_append, List.dropWhile_cons_of_pos (by simp [hc])]
      exact ih hnext

theorem quoted_length {v : List Char} (h : lexer.stateAfter (.quoted k v) between = .key []) :
    after.length ≤ ((between ++ after).dropWhile (· ≠ '"')).length := by
  induction between generalizing v with
  | nil => cases h
  | cons c between ih =>
    have hnext : lexer.stateAfter (Mode.next (.quoted k v) c) between = .key [] := h
    by_cases hc : c = '"'
    · rw [List.cons_append, List.dropWhile_cons_of_neg (by simp [hc]), List.length_cons,
        List.length_append]
      omega
    · rw [Mode.next, if_neg hc] at hnext
      rw [List.cons_append, List.dropWhile_cons_of_pos (by simp [hc])]
      exact ih hnext

theorem afterValue_length_of_key (h : lexer.stateAfter (.assigned k) between = .key []) :
    after.length ≤ (afterValue (between ++ after)).length := by
  cases between with
  | nil => cases h
  | cons c between =>
    have hnext : lexer.stateAfter (Mode.next (.assigned k) c) between = .key [] := h
    rw [afterValue]
    by_cases hquote : c = '"'
    · rw [Mode.next, if_pos hquote] at hnext
      rw [if_pos (by rw [hquote]; rfl)]
      exact quoted_length hnext
    · rw [Mode.next, if_neg hquote] at hnext
      rw [if_neg (by simpa using hquote)]
      by_cases hc : isspace c = true
      · rw [List.cons_append, List.dropWhile_cons_of_neg (by simp [hc]), List.length_cons,
          List.length_append]
        omega
      · rw [if_neg hc] at hnext
        rw [List.cons_append, List.dropWhile_cons_of_pos (by simp [hc])]
        exact plain_length hnext

/-- **An offending stop leaves more** than what follows a later `--` at the beginning of a token. -/
theorem left_of_offends (h : Offends before line)
    (hstop : stop (lexer.stateAfter (.key []) before) line = some rest)
    (hline : line = between ++ '-' :: '-' :: after) (hbetween : BeginsToken (before ++ between)) :
    after.length < rest.length := by
  have hmode := hbetween.1
  rw [Transducer.stateAfter_append] at hmode
  rcases h with ⟨hkey, hno, left, hleft⟩ | ⟨hkey, hassigned⟩
  · obtain ⟨k, hk⟩ := hkey.exists
    have hleft : line = '-' :: '-' :: left := hleft.symm
    rw [hk, hleft, stop_dashes] at hstop
    rw [← Option.some.inj hstop]
    rw [hleft] at hline
    rw [hk] at hmode
    -- the two dashes are in the key, so that the later ones are behind them
    match between with
    | [] => exact absurd (List.append_nil before ▸ hbetween) hno
    | [c] =>
      obtain ⟨rfl, _⟩ := List.cons.inj hline
      have hnext : Mode.next (.key k) '-' = .key [] := hmode
      simp [Mode.next, isspace] at hnext
    | _ :: _ :: between =>
      simp only [List.cons_append, List.cons.injEq] at hline
      obtain ⟨_, _, rfl⟩ := hline
      have := dropWhile_length_of_head (show isspace '-' = false by decide) between ('-' :: after)
      simp only [List.length_cons] at this
      omega
  · obtain ⟨left, rfl⟩ := List.head?_eq_some_iff.mp hassigned
    rw [hkey, stop_assigned] at hstop
    rw [← Option.some.inj hstop]
    rw [hkey] at hmode
    cases between with
    | nil => simp at hline
    | cons c between =>
      obtain ⟨rfl, _⟩ := List.cons.inj hline
      have hleft : left = between ++ '-' :: '-' :: after := (List.cons.inj hline).2
      have hnext : lexer.stateAfter (Mode.next (.key []) '=') between = .key [] := hmode
      rw [Mode.next, if_neg (by decide), if_pos rfl] at hnext
      have hlength := @afterValue_length_of_key [] ('-' :: '-' :: after) between hnext
      rw [hleft]
      simp only [List.length_cons] at hlength
      omega

end Stops

/-! ### Lines with clean keys -/

section Clean

variable {line : List Char}

/-- The parse of a clean line ends at the first token that begins with `--`, or has read all of it. -/
theorem lex_of_clean (hclean : CleanKeys line) :
    (NoTerminator line → lex (.key []) line = (pieces line, [])) ∧
      ((lex (.key []) line).2 ≠ [] → ∃ before after, line = before ++ '-' :: '-' :: after ∧
        BeginsToken before ∧ (lex (.key []) line).2 = after.dropWhile isspace) := by
  rcases lexer.runUntil_cases stop (.key []) line with
    ⟨_, hrun⟩ | ⟨before, after, rest, hline, hfirst, hrun⟩
  · rw [lex, hrun]
    exact ⟨fun _ => rfl, fun hne => absurd rfl hne⟩
  · rcases stop_cases hfirst.applies with ⟨hbegins, left, rfl, rfl⟩ | hoffends
    · rw [lex, hrun]
      refine ⟨fun hnone => ?_, fun _ => ⟨before, left, hline, hbegins, rfl⟩⟩
      exact absurd ⟨left, rfl⟩ (hnone before _ hline hbegins)
    · -- a token that begins with `--` would have stopped the scanner before
      obtain ⟨earlier, between, hbefore, hbegins, hdashes⟩ := hclean before after hline hoffends
      have happlies : stop (lexer.stateAfter (.key []) earlier) (between ++ after) ≠ none := by
        rw [hbegins.1]
        exact stop_of_terminator hdashes []
      obtain ⟨beyond, hearlier, _⟩ := hfirst.before_of_applies
        (show before ++ after = earlier ++ (between ++ after) by rw [hbefore, List.append_assoc])
        happlies
      have hlength := congrArg List.length hbefore
      have hlength' := congrArg List.length hearlier
      rw [List.length_append] at hlength hlength'
      have hbetween : between = [] := List.eq_nil_of_length_eq_zero (by omega)
      rw [hbetween, List.append_nil] at hbefore
      rw [hbetween, List.nil_append] at hdashes
      exact absurd hoffends (not_offends_of_terminator (hbefore ▸ hbegins) hdashes)

theorem clean_of_lex (hall : NoTerminator line → lex (.key []) line = (pieces line, []))
    (hleft : (lex (.key []) line).2 ≠ [] → ∃ before after, line = before ++ '-' :: '-' :: after ∧
      BeginsToken before ∧ (lex (.key []) line).2 = after.dropWhile isspace) : CleanKeys line := by
  intro before after hline hoffends
  rcases lexer.runUntil_cases stop (.key []) line with
    ⟨hnone, _⟩ | ⟨before', after', rest, hline', hfirst, hrun⟩
  · exact absurd (hnone before after hline) (stop_of_offends hoffends)
  · obtain ⟨between, hbefore, hafter⟩ :=
      hfirst.before_of_applies (hline'.symm.trans hline) (stop_of_offends hoffends)
    rcases stop_cases hfirst.applies with ⟨hbegins, left, hdashes, _⟩ | hoffends'
    · exact ⟨before', between, hbefore, hbegins, left, hafter.symm.trans hdashes |>.symm⟩
    · exfalso
      have hlex : lex (.key []) line = (lexer.output (.key []) before', rest) := by
        rw [lex, hrun]
        rfl
      -- every token that begins with `--` is behind the stop, which leaves more
      have hbehind : ∀ earlier beyond, line = earlier ++ '-' :: '-' :: beyond →
          BeginsToken earlier → beyond.length < rest.length := by
        intro earlier beyond hearlier hbegins
        have happlies : stop (lexer.stateAfter (.key []) earlier) ('-' :: '-' :: beyond) ≠ none := by
          rw [hbegins.1]
          exact stop_of_terminator ⟨beyond, rfl⟩ []
        obtain ⟨middle, hmiddle, hrest⟩ :=
          hfirst.before_of_applies (hline'.symm.trans hearlier) happlies
        exact left_of_offends hoffends' hfirst.applies hrest (hmiddle ▸ hbegins)
      by_cases hno : NoTerminator line
      · have hpieces := congrArg Prod.fst (hlex.symm.trans (hall hno))
        have hpieces : lexer.output (.key []) before' = lexer.run (.key []) line := hpieces
        rw [hline', Transducer.run_append, List.self_eq_append_right] at hpieces
        exact run_of_offends hoffends' hpieces
      · simp only [NoTerminator, not_forall, not_not] at hno
        obtain ⟨earlier, dashes, hearlier, hbegins, beyond, rfl⟩ := hno
        have hrest := hbehind earlier beyond hearlier hbegins
        rw [hlex] at hleft
        obtain ⟨earlier', beyond', hearlier', hbegins', heq⟩ :=
          hleft (List.ne_nil_of_length_pos ((Nat.zero_le _).trans_lt hrest))
        have hrest' := hbehind earlier' beyond' hearlier' hbegins'
        have hdropped := (List.dropWhile_sublist isspace (l := beyond')).length_le
        have heq : rest = beyond'.dropWhile isspace := heq
        rw [← heq] at hdropped
        omega

/-- What a parse reports without parameters tells the pieces that were handled. -/
theorem handleAll_injective {μ : Type} {cb : UnknownParamCb μ} {effects : Effects μ}
    {ps qs : List (List Char × List Char)}
    (h : handleAll [] (some cb) ps effects = handleAll [] (some cb) qs effects) : ps = qs := by
  have hcalls := fun ps => unknownCalls_handleAll ([] : List (Param μ)) cb ps effects
  have hall : ∀ ps : List (List Char × List Char),
      (ps.filter fun piece => isUnknown ([] : List (Param μ)) piece.1) = ps :=
    fun ps => List.filter_eq_self.mpr fun _ _ => rfl
  have heq := (hcalls ps).symm.trans ((congrArg (unknownCalls ·.events) h).trans (hcalls qs))
  rw [hall, hall] at heq
  exact List.append_cancel_left heq

/-- **Where a parse ends**: exactly when the keys of the line are clean, a line in which no token
begins with `--` is consumed and handled as a whole, and what is returned is what follows a `--` at
the beginning of a token. -/
theorem cmdlineParse_terminates_iff {cmdline : Str} {fuel : ℕ} (hfuel : line.length + 3 ≤ fuel)
    (h : cmdline.Holds line) :
    (∀ {μ : Type} (params : List (Param μ)) (unknownCb : Option (UnknownParamCb μ)) (memory : μ),
      ∃ result effects,
        cmdlineParse fuel cmdline params unknownCb memory = .done (result, effects) ∧
        (NoTerminator line → result.chars = [] ∧
          effects = handleAll params unknownCb (pieces line) ⟨memory, []⟩) ∧
        (result.chars ≠ [] → ∃ before after, line = before ++ '-' :: '-' :: after ∧
          BeginsToken before ∧ result.chars = after.dropWhile isspace)) ↔
      CleanKeys line := by
  constructor
  · intro hparse
    obtain ⟨result, effects, hrun, hall, hleft⟩ :=
      hparse [] (some fun _ _ memory => memory) ()
    obtain ⟨result', hrun', hresult'⟩ :=
      cmdlineParse_lexes [] (some fun _ _ memory => memory) hfuel h ()
    obtain ⟨rfl, rfl⟩ := Prod.mk.inj (Outcome.done.inj (hrun.symm.trans hrun'))
    rw [hresult'.chars_eq] at hall hleft
    exact clean_of_lex (fun hno => Prod.ext (handleAll_injective (hall hno).2) (hall hno).1) hleft
  · intro hclean μ params unknownCb memory
    obtain ⟨result, hrun, hresult⟩ := cmdlineParse_lexes params unknownCb hfuel h memory
    obtain ⟨hall, hleft⟩ := lex_of_clean hclean
    refine ⟨result, _, hrun, ?_, ?_⟩
    · intro hno
      rw [hresult.chars_eq, hall hno]
      exact ⟨rfl, rfl⟩
    · rw [hresult.chars_eq]
      exact hleft

end Clean

instance : DecidablePred Mode.IsKey := fun mode =>
  match mode with
  | .key _ => inferInstanceAs (Decidable True)
  | .assigned _ | .plain _ _ | .quoted _ _ => inferInstanceAs (Decidable False)

instance (before after : List Char) : Decidable (Offends before after) :=
  inferInstanceAs (Decidable (((lexer.stateAfter (.key []) before).IsKey ∧ ¬ BeginsToken before ∧
    ['-', '-'] <+: after) ∨
      (lexer.stateAfter (.key []) before = .key [] ∧ after.head? = some '=')))

theorem forall_splits {line : List Char} {P : List Char → List Char → Prop}
    (h : ∀ n ∈ List.range (line.length + 1), P (line.take n) (line.drop n)) :
    ∀ before after, line = before ++ after → P before after := by
  intro before after hline
  have hsplit := h before.length (by rw [List.mem_range, hline, List.length_append]; omega)
  rw [hline, List.take_left, List.drop_left] at hsplit
  exact hsplit

/-- The line `a --b`. -/
theorem cmdlineParse_terminates_iff_oneKey :
    ∃ result effects, cmdlineParse 8 ⟨some ['a', ' ', '-', '-', 'b'], 5⟩ [] none () =
        .done (result, effects) ∧
      (result.chars ≠ [] → ∃ before after, ['a', ' ', '-', '-', 'b'] = before ++ '-' :: '-' :: after ∧
        BeginsToken before ∧ result.chars = after.dropWhile isspace) := by
  have hclean : CleanKeys ['a', ' ', '-', '-', 'b'] := by
    intro before after hline hoffends
    exact absurd hoffends (forall_splits
      (P := fun before after => ¬ Offends before after) (by decide) before after hline)
  obtain ⟨result, effects, hrun, _, hleft⟩ := (cmdlineParse_terminates_iff (show 5 + 3 ≤ 8 by decide)
    (holds_of_text ['a', ' ', '-', '-', 'b'] [])).mpr hclean [] none ()
  exact ⟨result, effects, hrun, hleft⟩

/-- **A `--` inside a key**: of the line `a--b` nothing is handled, and `b` is returned. -/
theorem cmdlineParse_ends_inside_key :
    NoTerminator ['a', '-', '-', 'b'] ∧
      ∃ result effects, cmdlineParse 7 ⟨some ['a', '-', '-', 'b'], 4⟩ []
          (some fun _ _ memory => memory) () = .done (result, effects) ∧
        result.chars = ['b'] ∧ effects.events = [] :=
  ⟨forall_splits (by decide), _, _, rfl, rfl, rfl⟩

end UltraKernel.Cmdline
