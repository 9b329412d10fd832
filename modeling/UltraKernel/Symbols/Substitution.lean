import UltraKernel.Symbols.RoundTrip
import Mathlib.Data.List.GetD

/-!
# Each substitution replaces a most frequent pair

`__optimize` reads the frequencies of the pairs from `multibyte_tokens`, which it keeps up to date
by taking a symbol out of the counts before its first replacement and putting it back after the
last one.  Here the counts are compared with the positions at which a pair really occurs, in every
table that the loop goes through.

* `Spelled.counts_eq`: the counts are the numbers of positions;
* `Spelled.substitute_mostFrequent`: no pair occurs more often than the one that is replaced;
* `Visited.rule_cases`: a compound token was unused, and was made of two tokens in use;
* `Spelled.unwinds`: every list of tokens has a text, at most 257 calls deep;
* `optimize_faithful`: all of it, for every table on the way to the finished one.
-/

namespace UltraKernel.Symbols

open Outcome PairGrammar

/-! ### Frequencies -/

/-- The number of adjacent positions `(a, b)` of the symbols. -/
def adjacentCount (a b : ℕ) (symbols : List (List ℕ)) : ℕ :=
  (symbols.map fun tokens => (List.range (tokens.length - 1)).countP fun i =>
    tokens.getD i 0 = a ∧ tokens.getD (i + 1) 0 = b).sum

theorem pairIndex_eq_iff {a b x y : ℕ} (ha : a < 256) (hb : b < 256) (hx : x < 256)
    (hy : y < 256) : pairIndex x y = pairIndex a b ↔ x = a ∧ y = b := by
  constructor
  · intro heq
    obtain ⟨hlow, hhigh⟩ := pairIndex_parts hx hy
    obtain ⟨hlow', hhigh'⟩ := pairIndex_parts ha hb
    rw [heq] at hlow hhigh
    exact ⟨hlow.symm.trans hlow', hhigh.symm.trans hhigh'⟩
  · rintro ⟨rfl, rfl⟩
    rfl

theorem getD_byte {tokens : List ℕ} (hbytes : ∀ token ∈ tokens, token < 256) (i : ℕ) :
    tokens.getD i 0 < 256 := by
  rw [List.getD_eq_getElem?_getD]
  cases hget : tokens[i]? with
  | none => exact Nat.zero_lt_succ 255
  | some token => exact hbytes token (List.mem_of_getElem? hget)

/-- The index of a pair of bytes occurs where the pair does. -/
theorem count_adjacent {a b : ℕ} (ha : a < 256) (hb : b < 256) {tokens : List ℕ}
    (hbytes : ∀ token ∈ tokens, token < 256) :
    (adjacent tokens).count (pairIndex a b) =
      (List.range (tokens.length - 1)).countP fun i =>
        tokens.getD i 0 = a ∧ tokens.getD (i + 1) 0 = b := by
  rw [← adjacent_eq_map, List.count_eq_countP, List.countP_map]
  refine List.countP_congr fun i _ => ?_
  have hpair := pairIndex_eq_iff ha hb (getD_byte hbytes i) (getD_byte hbytes (i + 1))
  simp only [Function.comp_apply, beq_iff_eq, decide_eq_true_eq]
  exact hpair

theorem count_flatMap_adjacent {a b : ℕ} (ha : a < 256) (hb : b < 256)
    {symbols : List (List ℕ)} (hbytes : ∀ tokens ∈ symbols, ∀ token ∈ tokens, token < 256) :
    (symbols.flatMap adjacent).count (pairIndex a b) = adjacentCount a b symbols := by
  induction symbols with
  | nil => rfl
  | cons tokens symbols ih =>
    rw [List.flatMap_cons, List.count_append, ih fun ts hts => hbytes ts (List.mem_cons_of_mem _ hts),
      count_adjacent ha hb (hbytes tokens (List.mem_cons_self ..)), adjacentCount, adjacentCount,
      List.map_cons, List.sum_cons]

/-- A pair that is counted occurs. -/
theorem mem_of_adjacentCount_pos {a b : ℕ} {symbols : List (List ℕ)}
    (hpos : 0 < adjacentCount a b symbols) : ∃ tokens ∈ symbols, a ∈ tokens ∧ b ∈ tokens := by
  have hne : ∃ count ∈ symbols.map fun tokens => (List.range (tokens.length - 1)).countP fun i =>
      tokens.getD i 0 = a ∧ tokens.getD (i + 1) 0 = b, count ≠ 0 := by
    by_contra hzero
    push Not at hzero
    exact absurd (List.sum_eq_zero hzero) hpos.ne'
  obtain ⟨count, hcount, hne⟩ := hne
  obtain ⟨tokens, htokens, rfl⟩ := List.mem_map.mp hcount
  obtain ⟨i, hi, hpair⟩ := List.countP_pos_iff.mp (Nat.pos_of_ne_zero hne)
  obtain ⟨hfirst, hsecond⟩ := of_decide_eq_true hpair
  have hlt := List.mem_range.mp hi
  rw [List.getD_eq_getElem _ _ (by omega)] at hfirst hsecond
  exact ⟨tokens, htokens, hfirst ▸ List.getElem_mem _, hsecond ▸ List.getElem_mem _⟩

section Spelled

variable {names : List (List ℕ)} {h i : ℕ} {table : TokenTable}

/-- **The counts are exact**: `multibyte_tokens` holds the number of positions of every pair. -/
theorem Spelled.counts_eq (ht : Spelled names h table) {a b : ℕ} (ha : a < 256) (hb : b < 256) :
    table.multibyteTokens (pairIndex a b) = adjacentCount a b table.symbols := by
  rw [ht.counts, count_flatMap_adjacent ha hb]
  exact fun tokens htokens token htoken => (ht.token_used htokens htoken).2

/-- **The pair that is replaced** occurs, and no pair occurs more often. -/
theorem Spelled.substitute_mostFrequent (ht : Spelled names h table)
    (hfree : table.bestTokens i = [])
    (hmost : (mostUsedMultibyteToken table.multibyteTokens).2 ≠ 0) :
    ∃ a b, (table.substitute i).bestTokens i = [a, b] ∧
      (table.substitute i).symbols = table.symbols.map (replacePairs a b i) ∧
      0 < adjacentCount a b table.symbols ∧
      ∀ a' b', adjacentCount a' b' table.symbols ≤ adjacentCount a b table.symbols := by
  obtain ⟨a, b, -, hindex, ha, hb, hbest, hsymbols, -⟩ := ht.substitute_eq hfree hmost
  obtain ⟨hown, hmax⟩ := mostUsed_spec table.multibyteTokens (by rw [ht.counts]; omega)
  rw [hindex, ht.counts_eq ha hb] at hown
  rw [hown] at hmost hmax
  refine ⟨a, b, by rw [hbest, Function.update_self], hsymbols, by omega, ?_⟩
  intro a' b'
  rcases Nat.eq_zero_or_pos (adjacentCount a' b' table.symbols) with hzero | hpos
  · rw [hzero]
    exact Nat.zero_le _
  · -- only bytes occur, and every pair of bytes was looked at
    obtain ⟨tokens, htokens, hin, hin'⟩ := mem_of_adjacentCount_pos hpos
    have ha' := (ht.token_used htokens hin).2
    have hb' := (ht.token_used htokens hin').2
    have hlt : pairIndex a' b' < 0x10000 := by
      rw [pairIndex, Nat.shiftLeft_eq]
      omega
    have hle := hmax _ hlt
    rw [ht.counts_eq ha' hb'] at hle
    exact Int.ofNat_le.mp hle

/-! ### Texts -/

/-- A list of tokens has a text when each of its tokens has one. -/
theorem concatTexts_done {text : ℕ → Outcome GeneratorBug (List ℕ)} {tokens : List ℕ}
    (htexts : ∀ token ∈ tokens, ∃ out, text token = .done out) :
    ∃ out, concatTexts text tokens = .done out := by
  induction tokens with
  | nil => exact ⟨[], rfl⟩
  | cons token tokens ih =>
    obtain ⟨first, hfirst⟩ := htexts token (List.mem_cons_self ..)
    obtain ⟨rest, hrest⟩ := ih fun t ht => htexts t (List.mem_cons_of_mem _ ht)
    exact ⟨first ++ rest, by rw [concatTexts, hfirst, done_bind, hrest, done_bind, pure_eq]⟩

/-- **Every list of tokens has a text**, where a token that is not in use has an empty one. -/
theorem Spelled.unwinds (ht : Spelled names 256 table) (tokens : List ℕ) :
    ∃ text, unwindCompound table.bestTokens 257 tokens = .done text := by
  rw [unwindCompound]
  refine concatTexts_done fun token _ => ?_
  by_cases hunused : table.bestTokens token = []
  · rw [hunused]
    exact ⟨[], rfl⟩
  · obtain ⟨_, w, hw, -⟩ := ht.words token hunused
    cases hw with
    | terminal hrule => exact ⟨[token], by rw [hrule]; rfl⟩
    | compound hrule hfirst hsecond =>
      rw [hrule, if_neg (show ¬ List.length [_, _] = 1 by simp)]
      exact ⟨_, unwindCompound_spells (hfirst.pair hsecond) (by omega)⟩

/-! ### Compound tokens -/

/-- The pair is not replaced by one of its own tokens: both are in use, in some symbol. -/
theorem Spelled.substitute_parts (ht : Spelled names h table) (hfree : table.bestTokens i = [])
    (hmost : (mostUsedMultibyteToken table.multibyteTokens).2 ≠ 0) :
    ∃ a b, (table.substitute i).bestTokens = Function.update table.bestTokens i [a, b] ∧
      table.bestTokens a ≠ [] ∧ table.bestTokens b ≠ [] := by
  obtain ⟨a, b, ⟨_, htokens, l, r, rfl⟩, -, -, -, hbest, -, -⟩ := ht.substitute_eq hfree hmost
  exact ⟨a, b, hbest, (ht.token_used htokens (by simp)).1, (ht.token_used htokens (by simp)).1⟩

end Spelled

/-- The loop came to the unused token `c` and made it the token for `a` and `b`, both in use. -/
def MadeOf (names : List (List ℕ)) (c a b : ℕ) : Prop :=
  ∃ earlier, Visited names (c + 1) earlier ∧ earlier.bestTokens c = [] ∧
    earlier.bestTokens a ≠ [] ∧ earlier.bestTokens b ≠ [] ∧
    Visited names c (earlier.substitute c) ∧ (earlier.substitute c).bestTokens c = [a, b]

section Visited

variable {names : List (List ℕ)} {i : ℕ} {table : TokenTable}

/-- **A token** is unused, a character, or a compound token that the loop has made. -/
theorem Visited.rule_cases (hnames : ∀ name ∈ names, ∀ c ∈ name, c < 256)
    (h : Visited names i table) (token : ℕ) :
    table.bestTokens token = [] ∨ table.bestTokens token = [token] ∨
      ∃ a b, table.bestTokens token = [a, b] ∧ i ≤ token ∧ MadeOf names token a b := by
  induction h with
  | start =>
    rw [start_best]
    split_ifs
    · exact .inr (.inl rfl)
    · exact .inl rfl
  | skip h hused ih =>
    rcases ih with hnone | hself | ⟨a, b, hrule, hle, hmade⟩
    · exact .inl hnone
    · exact .inr (.inl hself)
    · exact .inr (.inr ⟨a, b, hrule, (Nat.le_succ _).trans hle, hmade⟩)
  | @substitute j table h hfree hmost ih =>
    obtain ⟨a, b, hbest, ha, hb⟩ := (h.spelled hnames).2.substitute_parts hfree hmost
    by_cases htoken : token = j
    · subst htoken
      have hrule : (table.substitute token).bestTokens token = [a, b] := by
        rw [hbest, Function.update_self]
      exact .inr (.inr ⟨a, b, hrule, le_rfl, table, h, hfree, ha, hb, .substitute h hfree hmost,
        hrule⟩)
    · rw [hbest, Function.update_of_ne htoken]
      rcases ih with hnone | hself | ⟨a, b, hrule, hle, hmade⟩
      · exact .inl hnone
      · exact .inr (.inl hself)
      · exact .inr (.inr ⟨a, b, hrule, (Nat.le_succ _).trans hle, hmade⟩)

/-! ### Every table of the loop -/

/-- A table that counts its pairs, keeps the texts of its symbols, and is made of tokens in use. -/
structure Faithful (names : List (List ℕ)) (i : ℕ) (table : TokenTable) : Prop where
  counts : ∀ a < 0x100, ∀ b < 0x100,
    table.multibyteTokens ((b <<< 8) + a) = adjacentCount a b table.symbols
  mostFrequent : ∀ j, i = j + 1 → table.bestTokens j = [] →
    (mostUsedMultibyteToken table.multibyteTokens).2 ≠ 0 →
    ∃ a b, (table.substitute j).bestTokens j = [a, b] ∧
      (table.substitute j).symbols = table.symbols.map (replacePairs a b j) ∧
      0 < adjacentCount a b table.symbols ∧
      ∀ a' b', adjacentCount a' b' table.symbols ≤ adjacentCount a b table.symbols
  rules : ∀ token, table.bestTokens token = [] ∨ table.bestTokens token = [token] ∨
    ∃ a b, table.bestTokens token = [a, b] ∧ i ≤ token ∧ MadeOf names token a b
  unwinds : ∀ tokens, (∀ token ∈ tokens, token < 0x100) →
    ∃ text, unwindCompound table.bestTokens 257 tokens = .done text
  texts : List.Forall₂ (fun tokens name => unwindCompound table.bestTokens 257 tokens = .done name)
    table.symbols names
  continues : optimizeLoop i table = TokenTable.make names

/-- **Every table that `__optimize` goes through** counts its pairs exactly, is changed only by
replacing a most frequent pair, has compound tokens whose parts were in use before them, unwinds
every list of tokens, and keeps the text of every symbol; the finished table is one of them. -/
theorem optimize_faithful (hnames : ∀ name ∈ names, ∀ c ∈ name, c < 0x80)
    (h : Visited names i table) :
    Faithful names i table ∧ ∃ j, Visited names j (TokenTable.make names) := by
  refine ⟨?_, h.exists_last⟩
  have hbytes : ∀ name ∈ names, ∀ c ∈ name, c < 256 :=
    fun name hname c hc => (hnames name hname c hc).trans (by decide)
  have ht : Spelled names 256 table := (h.spelled hbytes).2.mono (Nat.sub_le ..)
  refine ⟨?counts, ?mostFrequent, h.rule_cases hbytes, fun tokens _ => ht.unwinds tokens, ?texts,
    h.optimizeLoop⟩
  case counts =>
    intro a ha b hb
    exact ht.counts_eq ha hb
  case mostFrequent =>
    intro j _ hfree hmost
    exact ht.substitute_mostFrequent hfree hmost
  case texts =>
    exact ht.spells.imp fun _ _ hw => unwindCompound_spells hw (by decide)

/-- One name with an overlapping repeat, after the first substitution. -/
theorem optimize_faithful_repeat :
    Faithful [[97, 97, 97]] 255 ((TokenTable.start [[97, 97, 97]]).substitute 255) ∧
      ∃ j, Visited [[97, 97, 97]] j (TokenTable.make [[97, 97, 97]]) := by
  have hmost : (mostUsedMultibyteToken (TokenTable.start [[97, 97, 97]]).multibyteTokens).2 ≠ 0 := by
    have hmax := (mostUsed_spec (TokenTable.start [[97, 97, 97]]).multibyteTokens (by decide)).2
      (pairIndex 97 97) (by decide)
    have hcount : (TokenTable.start [[97, 97, 97]]).multibyteTokens (pairIndex 97 97) = 2 := by
      decide
    omega
  exact optimize_faithful (by decide) (.substitute .start (by decide) hmost)

end Visited

end UltraKernel.Symbols
