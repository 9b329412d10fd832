import UltraKernel.Symbols.Generator
import UltraKernel.Lib.PairGrammar
import Mathlib.Algebra.BigOperators.Group.List.Basic
import Mathlib.Tactic.Ring

/-!
# Interning tokens keeps the names

Each step of `__optimize` gives an unused token to a pair that occurs, and replaces the pair.
`Spelled` is the invariant: every symbol still spells its name, `multibyte_tokens` counts the
adjacent pairs of all symbols exactly, and every token in the table spells a part of a name.

* `Spelled.substitute`: one substitution keeps the invariant, one level deeper;
* `Visited.spelled`: every table on the way to the finished one satisfies it;
* `make_interned`: for valid names, the tokens of the finished table are short and hold no NUL.
-/

namespace UltraKernel.Symbols

open PairGrammar

/-! ### Counting pairs -/

/-- The indices of the adjacent pairs of a symbol. -/
def adjacent : List ℕ → List ℕ
  | x :: y :: rest => pairIndex x y :: adjacent (y :: rest)
  | _ => []

theorem adjacent_eq_map (tokens : List ℕ) :
    (List.range (tokens.length - 1)).map (fun i =>
      pairIndex (tokens.getD i 0) (tokens.getD (i + 1) 0)) = adjacent tokens := by
  induction tokens with
  | nil => rfl
  | cons x tokens ih =>
    cases tokens with
    | nil => rfl
    | cons y rest =>
      have hlen : (x :: y :: rest).length - 1 = ((y :: rest).length - 1) + 1 := by simp
      rw [hlen, List.range_succ_eq_map, List.map_cons, List.map_map]
      exact congrArg (pairIndex x y :: ·) ih

theorem foldl_bump (indices : List ℕ) (addend : ℤ) (counts : Counts) (c : ℕ) :
    indices.foldl (fun counts index => Function.update counts index (counts index + addend))
      counts c = counts c + addend * indices.count c := by
  induction indices generalizing counts with
  | nil => simp
  | cons index indices ih =>
    rw [List.foldl_cons, ih, List.count_cons]
    by_cases hc : index = c
    · subst hc
      simp only [Function.update_self, beq_self_eq_true, if_true]
      push_cast
      ring
    · rw [Function.update_of_ne (Ne.symm hc)]
      simp [hc]

/-- `__for_each_token` counts the adjacent pairs. -/
theorem forEachToken_apply (tokens : List ℕ) (addend : ℤ) (counts : Counts) (c : ℕ) :
    forEachToken tokens addend counts c = counts c + addend * (adjacent tokens).count c := by
  rw [← adjacent_eq_map, ← foldl_bump, List.foldl_map]
  rfl

theorem mem_adjacent {tokens : List ℕ} {c : ℕ} (h : c ∈ adjacent tokens) :
    ∃ l x y r, tokens = l ++ x :: y :: r ∧ c = pairIndex x y := by
  induction tokens with
  | nil => cases h
  | cons x tokens ih =>
    cases tokens with
    | nil => cases h
    | cons y rest =>
      rcases List.mem_cons.mp h with rfl | h
      · exact ⟨[], x, y, rest, rfl, rfl⟩
      · obtain ⟨l, x', y', r, heq, hc⟩ := ih h
        exact ⟨x :: l, x', y', r, by rw [heq]; rfl, hc⟩

theorem and_byte (n : ℕ) : n &&& 0xFF = n % 256 := Nat.and_two_pow_sub_one_eq_mod n 8

/-- A pair is read back from its index. -/
theorem pairIndex_parts {x y : ℕ} (hx : x < 256) (hy : y < 256) :
    (pairIndex x y >>> 0) &&& 0xFF = x ∧ (pairIndex x y >>> 8) &&& 0xFF = y := by
  rw [and_byte, and_byte, pairIndex, Nat.shiftLeft_eq, Nat.shiftRight_eq_div_pow,
    Nat.shiftRight_eq_div_pow]
  omega

/-! ### The most used pair -/

/-- **The most used pair** has its own count, and no index has a higher one. -/
theorem mostUsed_spec (counts : Counts) (hpos : 0 ≤ counts 0) :
    (mostUsedMultibyteToken counts).2 = counts (mostUsedMultibyteToken counts).1 ∧
      ∀ i < 0x10000, counts i ≤ (mostUsedMultibyteToken counts).2 := by
  -- over a prefix of the indices, once the first one was seen
  have hlead : ∀ n, 0 < n →
      let best := (List.range n).foldl
        (fun best i => if counts i ≤ best.2 then best else (i, counts i)) ((0 : ℕ), (-1 : ℤ))
      best.2 = counts best.1 ∧ ∀ i < n, counts i ≤ best.2 := by
    intro n hn
    induction n with
    | zero => omega
    | succ n ih =>
      rw [List.range_succ, List.foldl_append, List.foldl_cons, List.foldl_nil]
      rcases Nat.eq_zero_or_pos n with rfl | hn'
      · have hfirst : ¬ counts 0 ≤ -1 := by omega
        rw [List.range_zero, List.foldl_nil, if_neg hfirst]
        exact ⟨rfl, fun i hi => by rw [show i = 0 by omega]⟩
      · obtain ⟨hcount, hmax⟩ := ih hn'
        dsimp only at hcount hmax ⊢
        split_ifs with hle
        · refine ⟨hcount, fun i hi => ?_⟩
          rcases Nat.lt_succ_iff_lt_or_eq.mp hi with hi | rfl
          · exact hmax i hi
          · exact hle
        · refine ⟨rfl, fun i hi => ?_⟩
          rcases Nat.lt_succ_iff_lt_or_eq.mp hi with hi | rfl
          · exact (hmax i hi).trans (not_le.mp hle).le
          · exact le_rfl
  exact hlead 0x10000 (by decide)

/-! ### Replacing a pair in one symbol -/

theorem replacePairs_cons_of_ne {a b c : ℕ} (hc : c ≠ a) (rest : List ℕ) :
    replacePairs a b c (c :: rest) = c :: replacePairs a b c rest := by
  cases rest with
  | nil => rfl
  | cons y rest => rw [replacePairs, if_neg (by simp [hc])]

/-- The loop over a symbol, from a position on: what is left of it stays. -/
theorem compressLoop_eq {a b idx : ℕ} (hidx : idx ≠ a) {n : ℕ} {l rest : List ℕ}
    (hlen : rest.length = n + 1) (did : Bool) (counts : Counts) :
    ∃ did', compressLoop a b idx n l.length (l ++ rest) did counts =
        (l ++ replacePairs a b idx rest, did',
          if did' && !did then removeSymbol (l ++ rest) counts else counts) ∧
      (did = true → did' = true) ∧ (did' = false → replacePairs a b idx rest = rest) := by
  induction n generalizing l rest did counts with
  | zero =>
    obtain ⟨x, rfl⟩ := List.length_eq_one_iff.mp hlen
    refine ⟨did, ?_, id, fun _ => rfl⟩
    cases did <;> rfl
  | succ n ih =>
    obtain ⟨x, y, rest, rfl⟩ : ∃ x y rest', rest = x :: y :: rest' := by
      match rest, hlen with
      | x :: y :: rest', _ => exact ⟨x, y, rest', rfl⟩
    have hx : (l ++ x :: y :: rest).getD l.length 0 = x := by simp
    have hy : (l ++ x :: y :: rest).getD (l.length + 1) 0 = y := by simp
    rw [compressLoop, hx, hy]
    by_cases hmatch : x = a ∧ y = b
    · obtain ⟨rfl, rfl⟩ := hmatch
      rw [if_neg (by simp)]
      have htokens : (l ++ x :: y :: rest).take l.length ++
          idx :: (l ++ x :: y :: rest).drop (l.length + 2) = l ++ idx :: rest := by
        rw [List.take_left, List.drop_append, List.drop_of_length_le (by omega),
          show l.length + 2 - l.length = 2 by omega]
        rfl
      obtain ⟨did', hrun, hdid, _⟩ := @ih l (idx :: rest)
        (by simpa using hlen) true (if did then counts else removeSymbol (l ++ x :: y :: rest) counts)
      obtain rfl := hdid rfl
      refine ⟨true, ?_, fun _ => rfl, fun h => by cases h⟩
      have hreplace : replacePairs x y idx (x :: y :: rest) = idx :: replacePairs x y idx rest := by
        simp [replacePairs]
      dsimp only
      rw [htokens, hrun, replacePairs_cons_of_ne hidx, hreplace]
      cases did <;> rfl
    · rw [if_pos (by tauto)]
      obtain ⟨did', hrun, hdid, hsame⟩ := @ih (l ++ [x]) (y :: rest)
        (by simpa using hlen) did counts
      refine ⟨did', ?_, hdid, fun h => ?_⟩
      · rw [List.length_append, List.length_singleton, List.append_assoc] at hrun
        rw [replacePairs, if_neg hmatch]
        simpa using hrun
      · rw [replacePairs, if_neg hmatch, hsame h]

/-- **Compressing a symbol** replaces the pair, and keeps the counts exact. -/
theorem compressSymbol_eq {a b idx : ℕ} (hidx : idx ≠ a) (tokens : List ℕ) (counts : Counts) :
    (compressSymbol a b idx tokens counts).1 = replacePairs a b idx tokens ∧
      ∀ c, (compressSymbol a b idx tokens counts).2 c = counts c - (adjacent tokens).count c +
        (adjacent (replacePairs a b idx tokens)).count c := by
  cases tokens with
  | nil => exact ⟨rfl, fun c => by simp [compressSymbol, compressLoop, replacePairs, adjacent]⟩
  | cons x rest =>
    obtain ⟨did', hrun, _, hsame⟩ := compressLoop_eq (b := b) hidx (l := [])
      (show (x :: rest).length = (x :: rest).length - 1 + 1 by simp) false counts
    simp only [List.nil_append, List.length_nil, Bool.not_false, Bool.and_true] at hrun
    unfold compressSymbol
    rw [hrun]
    cases did' with
    | false => exact ⟨rfl, fun c => by rw [hsame rfl]; simp⟩
    | true =>
      refine ⟨rfl, fun c => ?_⟩
      simp only [if_true, addSymbol, removeSymbol, forEachToken_apply]
      ring

theorem compressSymbols_eq {a b idx : ℕ} (hidx : idx ≠ a) (symbols : List (List ℕ))
    (counts : Counts) :
    (compressSymbols a b idx symbols counts).1 = symbols.map (replacePairs a b idx) ∧
      ∀ c, (compressSymbols a b idx symbols counts).2 c =
        counts c - (symbols.flatMap adjacent).count c +
          ((symbols.map (replacePairs a b idx)).flatMap adjacent).count c := by
  induction symbols generalizing counts with
  | nil => exact ⟨rfl, fun c => by simp [compressSymbols]⟩
  | cons tokens symbols ih =>
    obtain ⟨hfirst, hcount⟩ := compressSymbol_eq (b := b) hidx tokens counts
    obtain ⟨hrest, hcounts⟩ := ih (compressSymbol a b idx tokens counts).2
    simp only [compressSymbols]
    refine ⟨by rw [hfirst, hrest, List.map_cons], fun c => ?_⟩
    rw [hcounts, hcount, List.map_cons, List.flatMap_cons, List.flatMap_cons, List.count_append,
      List.count_append]
    push_cast
    ring

/-! ### The invariant -/

/-- Character codes of a name. -/
structure ValidName (name : List ℕ) : Prop where
  nonempty : name ≠ []
  length : name.length ≤ 127
  ascii : ∀ c ∈ name, 1 ≤ c ∧ c ≤ 127

/-- Short enough for the offsets, and without a NUL. -/
def GoodWord (w : List ℕ) : Prop := w.length ≤ 127 ∧ 0 ∉ w

theorem ValidName.goodWord {name w : List ℕ} (h : ValidName name) (hw : w <:+: name) :
    GoodWord w :=
  ⟨hw.length_le.trans h.length, fun hzero => absurd (h.ascii 0 (hw.subset hzero)).1 (by decide)⟩

/-- **The invariant of interning**, with the depth of the compound tokens. -/
structure Spelled (names : List (List ℕ)) (h : ℕ) (table : TokenTable) : Prop where
  spells : List.Forall₂ (SpellsAll table.bestTokens h) table.symbols names
  counts : ∀ c, table.multibyteTokens c = ((table.symbols.flatMap adjacent).count c : ℕ)
  words : ∀ token, table.bestTokens token ≠ [] →
    token < 256 ∧ ∃ w, Spells table.bestTokens h token w ∧ ∃ name ∈ names, w <:+: name

/-- The invariant of valid names. -/
structure Interned (names : List (List ℕ)) (h : ℕ) (table : TokenTable) : Prop where
  spells : List.Forall₂ (SpellsAll table.bestTokens h) table.symbols names
  counts : ∀ c, table.multibyteTokens c = ((table.symbols.flatMap adjacent).count c : ℕ)
  words : ∀ token, table.bestTokens token ≠ [] →
    token < 256 ∧ ∃ w, Spells table.bestTokens h token w ∧ GoodWord w

section Interned

variable {names : List (List ℕ)} {h k : ℕ} {table : TokenTable}

theorem Spelled.mono (ht : Spelled names h table) (hk : h ≤ k) : Spelled names k table where
  spells := ht.spells.imp fun _ _ hs => hs.mono hk
  counts := ht.counts
  words token htoken := by
    obtain ⟨hlt, w, hw, hname⟩ := ht.words token htoken
    exact ⟨hlt, w, hw.mono hk, hname⟩

theorem Spelled.interned (ht : Spelled names h table) (hnames : ∀ name ∈ names, ValidName name) :
    Interned names h table where
  spells := ht.spells
  counts := ht.counts
  words token htoken := by
    obtain ⟨hlt, w, hw, name, hname, hinfix⟩ := ht.words token htoken
    exact ⟨hlt, w, hw, (hnames name hname).goodWord hinfix⟩

theorem recordForBest_apply (tokens : List ℕ) (best : ℕ → List ℕ) (token : ℕ) :
    recordForBest tokens best token = if token ∈ tokens then [token] else best token := by
  unfold recordForBest
  induction tokens generalizing best with
  | nil => simp
  | cons t tokens ih =>
    rw [List.foldl_cons, ih]
    by_cases heq : token = t
    · subst heq
      simp
    · simp [heq]

theorem start_best (names : List (List ℕ)) (token : ℕ) :
    (TokenTable.start names).bestTokens token = if token ∈ names.flatten then [token] else [] := by
  have hfold : ∀ best : ℕ → List ℕ,
      names.foldl (fun best tokens => recordForBest tokens best) best token =
        if token ∈ names.flatten then [token] else best token := by
    induction names with
    | nil => simp
    | cons name names ih =>
      intro best
      rw [List.foldl_cons, ih, recordForBest_apply, List.flatten_cons]
      by_cases h₁ : token ∈ names.flatten <;> by_cases h₂ : token ∈ name <;> simp [h₁, h₂]
  exact hfold _

theorem start_counts (names : List (List ℕ)) (c : ℕ) :
    (TokenTable.start names).multibyteTokens c = ((names.flatMap adjacent).count c : ℕ) := by
  have hfold : ∀ counts : Counts,
      names.foldl (fun counts tokens => addSymbol tokens counts) counts c =
        counts c + ((names.flatMap adjacent).count c : ℕ) := by
    induction names with
    | nil => simp
    | cons name names ih =>
      intro counts
      rw [List.foldl_cons, ih, addSymbol, forEachToken_apply, List.flatMap_cons, List.count_append]
      push_cast
      ring
  exact (hfold _).trans (zero_add _)

/-- The table before the substitutions. -/
theorem start_spelled (hnames : ∀ name ∈ names, ∀ c ∈ name, c < 256) :
    Spelled names 0 (TokenTable.start names) where
  spells := by
    change List.Forall₂ (SpellsAll (TokenTable.start names).bestTokens 0) names names
    refine List.forall₂_same.mpr fun name hname => SpellsAll.terminals fun token htoken => ?_
    rw [start_best, if_pos (List.mem_flatten.mpr ⟨name, hname, htoken⟩)]
  counts := start_counts names
  words token htoken := by
    have hbest := start_best names token
    split_ifs at hbest with hmem
    · obtain ⟨name, hname, hin⟩ := List.mem_flatten.mp hmem
      refine ⟨hnames name hname token hin, [token], .terminal hbest, name, hname, ?_⟩
      obtain ⟨l, r, rfl⟩ := List.append_of_mem hin
      exact ⟨l, r, by simp⟩
    · exact absurd hbest htoken

theorem exists_name_of_symbol {best : ℕ → List ℕ} {symbols : List (List ℕ)}
    (hs : List.Forall₂ (SpellsAll best h) symbols names) {tokens : List ℕ}
    (htokens : tokens ∈ symbols) : ∃ name ∈ names, SpellsAll best h tokens name := by
  obtain ⟨i, hi, rfl⟩ := List.mem_iff_getElem.mp htokens
  have hlen := hs.length_eq
  exact ⟨names[i], List.getElem_mem _, hs.get hi (by omega)⟩

/-- A token used by a symbol has a rule, and is a byte. -/
theorem Spelled.token_used (ht : Spelled names h table) {tokens : List ℕ}
    (htokens : tokens ∈ table.symbols) {token : ℕ} (htoken : token ∈ tokens) :
    table.bestTokens token ≠ [] ∧ token < 256 := by
  obtain ⟨name, _, hspells⟩ := exists_name_of_symbol ht.spells htokens
  obtain ⟨w, hw⟩ := hspells.spells_of_mem htoken
  exact ⟨hw.rule_ne_nil, (ht.words token hw.rule_ne_nil).1⟩

/-- The pair that is substituted occurs in a symbol. -/
theorem Spelled.exists_pair (ht : Spelled names h table)
    (hused : (mostUsedMultibyteToken table.multibyteTokens).2 ≠ 0) :
    ∃ tokens ∈ table.symbols, ∃ l x y r, tokens = l ++ x :: y :: r ∧ x < 256 ∧ y < 256 ∧
      (mostUsedMultibyteToken table.multibyteTokens).1 = pairIndex x y := by
  obtain ⟨hcount, _⟩ := mostUsed_spec table.multibyteTokens (by rw [ht.counts]; omega)
  rw [ht.counts] at hcount
  have hmem : (mostUsedMultibyteToken table.multibyteTokens).1 ∈ table.symbols.flatMap adjacent := by
    rw [← List.count_pos_iff]
    omega
  obtain ⟨tokens, htokens, hadjacent⟩ := List.mem_flatMap.mp hmem
  obtain ⟨l, x, y, r, rfl, hindex⟩ := mem_adjacent hadjacent
  exact ⟨_, htokens, l, x, y, r, rfl, (ht.token_used htokens (by simp)).2,
    (ht.token_used htokens (by simp)).2, hindex⟩

/-- One substitution: the token stands for the pair that is used most. -/
def TokenTable.substitute (table : TokenTable) (i : ℕ) : TokenTable :=
  let mostUsed := mostUsedMultibyteToken table.multibyteTokens
  TokenTable.compressWithCompoundToken
    { table with
      bestTokens := Function.update table.bestTokens i
        [(mostUsed.1 >>> 0) &&& 0xFF, (mostUsed.1 >>> 8) &&& 0xFF] } i

/-- **What a substitution does**: the pair is replaced, and counted anew. -/
theorem Spelled.substitute_eq (ht : Spelled names h table) {i : ℕ}
    (hfree : table.bestTokens i = [])
    (hused : (mostUsedMultibyteToken table.multibyteTokens).2 ≠ 0) :
    ∃ x y, (∃ tokens ∈ table.symbols, ∃ l r, tokens = l ++ x :: y :: r) ∧
      (mostUsedMultibyteToken table.multibyteTokens).1 = pairIndex x y ∧ x < 256 ∧ y < 256 ∧
      (table.substitute i).bestTokens = Function.update table.bestTokens i [x, y] ∧
      (table.substitute i).symbols = table.symbols.map (replacePairs x y i) ∧
      ∀ c, (table.substitute i).multibyteTokens c =
        (((table.substitute i).symbols.flatMap adjacent).count c : ℕ) := by
  obtain ⟨_, htokens, l, x, y, r, rfl, hx, hy, hindex⟩ := ht.exists_pair hused
  obtain ⟨hlow, hhigh⟩ := pairIndex_parts hx hy
  have hne : i ≠ x := by
    rintro rfl
    exact (ht.token_used htokens (by simp)).1 hfree
  have hrule : Function.update table.bestTokens i [x, y] i = [x, y] := Function.update_self ..
  obtain ⟨hsymbols, hcounts⟩ := compressSymbols_eq (b := y) hne table.symbols table.multibyteTokens
  refine ⟨x, y, ⟨_, htokens, l, r, rfl⟩, hindex, hx, hy, ?_⟩
  rw [TokenTable.substitute, hindex, hlow, hhigh]
  simp only [TokenTable.compressWithCompoundToken, hrule, List.getD_cons_zero, List.getD_cons_succ]
  refine ⟨trivial, hsymbols, fun c => ?_⟩
  rw [hcounts, ht.counts, hsymbols]
  omega

/-- **One substitution** keeps the invariant, one level deeper. -/
theorem Spelled.substitute (ht : Spelled names h table) {i : ℕ} (hi : i < 256)
    (hfree : table.bestTokens i = [])
    (hused : (mostUsedMultibyteToken table.multibyteTokens).2 ≠ 0) :
    Spelled names (h + 1) (table.substitute i) := by
  obtain ⟨x, y, ⟨_, htokens, l, r, rfl⟩, -, -, -, hbest, hsymbols, hcounts⟩ :=
    ht.substitute_eq hfree hused
  obtain ⟨name, hname, hspells⟩ := exists_name_of_symbol ht.spells htokens
  obtain ⟨u, v, hu, hv, hinfix⟩ := hspells.adjacent
  have hrule : Function.update table.bestTokens i [x, y] i = [x, y] := Function.update_self ..
  refine ⟨?_, hcounts, fun token htoken => ?_⟩
  · rw [hbest, hsymbols, List.forall₂_map_left_iff]
    exact ht.spells.imp fun _ _ hs => (hs.update hfree [x, y]).replacePairs hrule
  · rw [hbest] at htoken ⊢
    by_cases htoken' : token = i
    · subst htoken'
      exact ⟨hi, u ++ v, .compound hrule (hu.update hfree _) (hv.update hfree _), name, hname, hinfix⟩
    · rw [Function.update_of_ne htoken'] at htoken
      obtain ⟨hlt, w, hw, hword⟩ := ht.words token htoken
      exact ⟨hlt, w, (hw.update hfree _).mono (Nat.le_succ h), hword⟩

/-! ### Runs -/

/-- **The tables that `__optimize` goes through**, with the number of tokens that are still to be
looked at. -/
inductive Visited (names : List (List ℕ)) : ℕ → TokenTable → Prop
  | start : Visited names 0x100 (TokenTable.start names)
  | skip {i : ℕ} {table : TokenTable} (h : Visited names (i + 1) table)
      (hused : table.bestTokens i ≠ []) : Visited names i table
  | substitute {i : ℕ} {table : TokenTable} (h : Visited names (i + 1) table)
      (hfree : table.bestTokens i = [])
      (hmost : (mostUsedMultibyteToken table.multibyteTokens).2 ≠ 0) :
      Visited names i (table.substitute i)

theorem optimizeLoop_succ (i : ℕ) (table : TokenTable) :
    optimizeLoop (i + 1) table =
      if table.bestTokens i ≠ [] then optimizeLoop i table
      else if (mostUsedMultibyteToken table.multibyteTokens).2 = 0 then table
      else optimizeLoop i (table.substitute i) := rfl

/-- The loop goes on from a table that it went through. -/
theorem Visited.optimizeLoop {i : ℕ} (h : Visited names i table) :
    optimizeLoop i table = TokenTable.make names := by
  induction h with
  | start => rfl
  | skip h hused ih => rw [← ih, optimizeLoop_succ, if_pos hused]
  | substitute h hfree hmost ih =>
    rw [← ih, optimizeLoop_succ, if_neg (not_not.mpr hfree), if_neg hmost]

/-- The loop ends with a table that it went through. -/
theorem Visited.exists_last {i : ℕ} (h : Visited names i table) :
    ∃ j, Visited names j (TokenTable.make names) := by
  rw [← h.optimizeLoop]
  induction i generalizing table with
  | zero => exact ⟨0, h⟩
  | succ i ih =>
    rw [optimizeLoop_succ]
    split_ifs with hfree hused
    · exact ih (.skip h hfree)
    · exact ⟨i + 1, h⟩
    · exact ih (.substitute h (not_not.mp hfree) hused)

theorem Visited.spelled (hnames : ∀ name ∈ names, ∀ c ∈ name, c < 256) {i : ℕ}
    (h : Visited names i table) : i ≤ 256 ∧ Spelled names (256 - i) table := by
  induction h with
  | start => exact ⟨le_rfl, start_spelled hnames⟩
  | skip h hused ih => exact ⟨by omega, ih.2.mono (by omega)⟩
  | substitute h hfree hmost ih =>
    exact ⟨by omega, (ih.2.substitute (by omega) hfree hmost).mono (by omega)⟩

/-- **The finished table**: every symbol spells its name, through at most 256 levels. -/
theorem make_interned (hnames : ∀ name ∈ names, ValidName name) :
    Interned names 256 (TokenTable.make names) := by
  have hbytes : ∀ name ∈ names, ∀ c ∈ name, c < 256 := by
    intro name hname c hc
    have hascii := (hnames name hname).ascii c hc
    omega
  obtain ⟨j, hlast⟩ := (@Visited.start names).exists_last
  exact ((hlast.spelled hbytes).2.mono (Nat.sub_le ..)).interned hnames

end Interned

end UltraKernel.Symbols
