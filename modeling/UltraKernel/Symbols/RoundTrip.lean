import UltraKernel.Symbols.Compression
import UltraKernel.Symbols.Kernel

/-!
# The kernel reads back the emitted names

The emitted arrays are chunks laid out one after the other: a length and the tokens for each name,
the text and a NUL for each token.  The markers hold the offsets of chunks, and the kernel finds a
chunk at its offset.

* `emitNames_eq`, `emitTokens_eq`: what the generator emits;
* `uncompressLoop_spells`: the kernel writes the word that the tokens spell;
* `emitted_names_read_back`: every name is read back exactly, within `MAX_SYMBOL_LENGTH` bytes.
-/

namespace UltraKernel.Symbols

open Outcome PairGrammar

/-! ### Chunks -/

/-- The offset of chunk `i`. -/
def chunkOffset (chunks : List (List ℕ)) (i : ℕ) : ℕ := (chunks.take i).flatten.length

theorem chunkOffset_succ {chunks : List (List ℕ)} {i : ℕ} (hi : i < chunks.length) :
    chunkOffset chunks (i + 1) = chunkOffset chunks i + chunks[i].length := by
  unfold chunkOffset
  rw [List.take_succ_eq_append_getElem hi, List.flatten_append, List.length_append]
  simp

/-- **A chunk is found at its offset.** -/
theorem drop_chunkOffset (chunks : List (List ℕ)) (i : ℕ) :
    chunks.flatten.drop (chunkOffset chunks i) = (chunks.drop i).flatten := by
  have hsplit : chunks.flatten = (chunks.take i).flatten ++ (chunks.drop i).flatten := by
    rw [← List.flatten_append, List.take_append_drop]
  rw [hsplit]
  exact List.drop_left

theorem drop_chunkOffset_of_lt {chunks : List (List ℕ)} {i : ℕ} (hi : i < chunks.length) :
    chunks.flatten.drop (chunkOffset chunks i) = chunks[i] ++ (chunks.drop (i + 1)).flatten := by
  rw [drop_chunkOffset, List.drop_eq_getElem_cons hi, List.flatten_cons]

theorem chunkOffset_le {chunks : List (List ℕ)} {bound : ℕ}
    (hchunks : ∀ chunk ∈ chunks, chunk.length ≤ bound) (i : ℕ) :
    chunkOffset chunks i ≤ chunks.length * bound := by
  have hsum : ∀ cs : List (List ℕ), (∀ chunk ∈ cs, chunk.length ≤ bound) →
      cs.flatten.length ≤ cs.length * bound := by
    intro cs hcs
    induction cs with
    | nil => simp
    | cons chunk cs ih =>
      have hhead := hcs chunk (List.mem_cons_self ..)
      have htail := ih fun c hc => hcs c (List.mem_cons_of_mem _ hc)
      rw [List.flatten_cons, List.length_append, List.length_cons, Nat.succ_mul]
      omega
  refine (hsum _ fun chunk hchunk => hchunks chunk (List.mem_of_mem_take hchunk)).trans ?_
  exact Nat.mul_le_mul_right _ (List.length_take_le' ..)

/-! ### The texts of the tokens -/

section Texts

variable {best : ℕ → List ℕ} {fuel h : ℕ}

/-- **Unwinding a list of tokens** gives the word they spell. -/
theorem unwindCompound_spells {tokens w : List ℕ} (hw : SpellsAll best h tokens w)
    (hfuel : h < fuel) : unwindCompound best fuel tokens = .done w := by
  induction fuel generalizing h tokens w with
  | zero => omega
  | succ fuel ih =>
    rw [unwindCompound]
    induction hw with
    | nil => rfl
    | cons htoken _ ihs =>
      have hfirst : ∀ {t u}, Spells best h t u →
          (if (best t).length = 1 then Outcome.done [t] else unwindCompound best fuel (best t)) =
            (Outcome.done u : Outcome GeneratorBug (List ℕ)) := by
        intro t u ht
        cases ht with
        | terminal ht => rw [if_pos (by rw [ht]; rfl)]
        | compound ht ha hb =>
          rw [if_neg (by rw [ht]; simp), ht]
          exact ih (ha.pair hb) (by omega)
      rw [concatTexts, hfirst htoken, done_bind, ihs, done_bind, pure_eq]

/-- The text of a token that spells a word. -/
theorem unwindCompound_token {token : ℕ} {w : List ℕ} (hw : Spells best h token w)
    (hfuel : h < fuel) : unwindCompound best fuel (best token) = .done w := by
  cases hw with
  | terminal htoken =>
    rw [htoken]
    exact unwindCompound_spells (SpellsAll.cons (Spells.terminal htoken) SpellsAll.nil) hfuel
  | compound htoken ha hb =>
    rw [htoken]
    exact unwindCompound_spells (ha.pair hb) (by omega)

/-- The texts of all tokens, of the unused ones too. -/
structure Texts (best : ℕ → List ℕ) (fuel h : ℕ) (texts : ℕ → List ℕ) : Prop where
  unwound : ∀ token, unwindCompound best fuel (best token) = .done (texts token)
  good : ∀ token, GoodWord (texts token)
  spells : ∀ token w, Spells best h token w → texts token = w

theorem exists_texts {names : List (List ℕ)} {table : TokenTable} (ht : Interned names h table)
    (hfuel : h < fuel) : ∃ texts, Texts table.bestTokens fuel h texts := by
  have hall : ∀ token, ∃ w, unwindCompound table.bestTokens fuel (table.bestTokens token) =
      .done w ∧ GoodWord w := by
    intro token
    by_cases hunused : table.bestTokens token = []
    · refine ⟨[], ?_, by simp [GoodWord]⟩
      rw [hunused]
      exact unwindCompound_spells SpellsAll.nil hfuel
    · obtain ⟨_, w, hw, hgood⟩ := ht.words token hunused
      exact ⟨w, unwindCompound_token hw hfuel, hgood⟩
  choose texts hunwound hgood using hall
  refine ⟨texts, hunwound, hgood, fun token w hw => ?_⟩
  have heq := (hunwound token).symm.trans (unwindCompound_token hw hfuel)
  exact Outcome.done.inj heq

end Texts

/-! ### Emitting -/

/-- The names and tokens, after the first `n` chunks; every `2 ^ 8`-th name has a marker. -/
def emittedNames (chunks : List (List ℕ)) (n : ℕ) : Emission where
  byteOffset := chunkOffset chunks n
  offsetMarkers := (List.range ((n + 255) / 256)).map fun j => chunkOffset chunks (256 * j)
  data := (chunks.take n).flatten

def nameChunk (tokens : List ℕ) : List ℕ := tokens.length :: tokens

/-- A symbol whose length takes one byte. -/
structure ShortSymbol (tokens : List ℕ) : Prop where
  nonempty : tokens ≠ []
  length : tokens.length ≤ 127

theorem emitName_eq {symbols : List (List ℕ)} {n : ℕ} (hn : n < symbols.length)
    (hshort : ShortSymbol symbols[n]) :
    emitName n symbols[n] (emittedNames (symbols.map nameChunk) n) =
      .done (emittedNames (symbols.map nameChunk) (n + 1)) := by
  have hn' : n < (symbols.map nameChunk).length := by simpa using hn
  have hone : symbols[n].length ≤ leb128Max 1 := hshort.length
  have htwo : symbols[n].length ≤ leb128Max 2 := hone.trans (by decide)
  have hchunk : (symbols.map nameChunk)[n] = nameChunk symbols[n] := by simp
  have hmarkers : (if n &&& 0xFF = 0 then
        (emittedNames (symbols.map nameChunk) n).offsetMarkers ++
          [(emittedNames (symbols.map nameChunk) n).byteOffset]
      else (emittedNames (symbols.map nameChunk) n).offsetMarkers) =
      (emittedNames (symbols.map nameChunk) (n + 1)).offsetMarkers := by
    simp only [emittedNames]
    rw [and_byte]
    split_ifs with hmod
    · rw [show (n + 1 + 255) / 256 = (n + 255) / 256 + 1 by omega, List.range_succ,
        List.map_append, List.map_singleton, show 256 * ((n + 255) / 256) = n by omega]
    · rw [show (n + 1 + 255) / 256 = (n + 255) / 256 by omega]
  unfold emitName
  dsimp only
  rw [hmarkers, if_neg (not_not.mpr ⟨hshort.nonempty, htwo⟩), if_pos hone]
  refine congrArg Outcome.done ?_
  unfold emittedNames
  simp only [Emission.mk.injEq, true_and]
  refine ⟨?_, ?_⟩
  · rw [chunkOffset_succ hn', hchunk, nameChunk, List.length_cons]
  · rw [List.take_succ_eq_append_getElem hn', hchunk]
    simp [nameChunk]

/-- **The emitted names**: their chunks, one after the other. -/
theorem emitNames_eq {symbols : List (List ℕ)}
    (hshort : ∀ tokens ∈ symbols, ShortSymbol tokens) :
    emitNames 0 symbols .empty =
      .done (emittedNames (symbols.map nameChunk) symbols.length) := by
  have hfrom : ∀ k n, n + k = symbols.length →
      emitNames n (symbols.drop n) (emittedNames (symbols.map nameChunk) n) =
        .done (emittedNames (symbols.map nameChunk) symbols.length) := by
    intro k
    induction k with
    | zero =>
      intro n hn
      obtain rfl : n = symbols.length := hn
      rw [List.drop_length]
      rfl
    | succ k ih =>
      intro n hn
      have hlt : n < symbols.length := by omega
      rw [List.drop_eq_getElem_cons hlt, emitNames,
        emitName_eq hlt (hshort _ (List.getElem_mem hlt)), done_bind]
      exact ih (n + 1) (by omega)
  exact hfrom symbols.length 0 (Nat.zero_add _)

/-- The tokens, after the first `n` chunks; every token has a marker. -/
def emittedTokens (chunks : List (List ℕ)) (n : ℕ) : Emission where
  byteOffset := chunkOffset chunks n
  offsetMarkers := (List.range n).map (chunkOffset chunks)
  data := (chunks.take n).flatten

def tokenChunk (texts : ℕ → List ℕ) (token : ℕ) : List ℕ := texts token ++ [0]

theorem emittedNames_data {chunks : List (List ℕ)} {n : ℕ} (hn : chunks.length ≤ n) :
    (emittedNames chunks n).data = chunks.flatten := by
  rw [emittedNames, List.take_of_length_le hn]

theorem emittedTokens_data {chunks : List (List ℕ)} {n : ℕ} (hn : chunks.length ≤ n) :
    (emittedTokens chunks n).data = chunks.flatten := by
  rw [emittedTokens, List.take_of_length_le hn]

theorem mem_emittedTokens {chunks : List (List ℕ)} {n offset : ℕ}
    (h : offset ∈ (emittedTokens chunks n).offsetMarkers) : ∃ i, chunkOffset chunks i = offset := by
  obtain ⟨i, _, hi⟩ := List.mem_map.mp h
  exact ⟨i, hi⟩

/-- **The emitted tokens**: their texts, each with a NUL. -/
theorem emitTokens_eq {best : ℕ → List ℕ} {fuel h : ℕ} {texts : ℕ → List ℕ}
    (htexts : Texts best fuel h texts) (tokens : List ℕ) :
    emitTokens best fuel tokens .empty =
      .done (emittedTokens (tokens.map (tokenChunk texts)) tokens.length) := by
  have hfrom : ∀ k n, n + k = tokens.length →
      emitTokens best fuel (tokens.drop n) (emittedTokens (tokens.map (tokenChunk texts)) n) =
        .done (emittedTokens (tokens.map (tokenChunk texts)) tokens.length) := by
    intro k
    induction k with
    | zero =>
      intro n hn
      obtain rfl : n = tokens.length := hn
      rw [List.drop_length]
      rfl
    | succ k ih =>
      intro n hn
      have hlt : n < tokens.length := by omega
      have hlt' : n < (tokens.map (tokenChunk texts)).length := by simpa using hlt
      rw [List.drop_eq_getElem_cons hlt, emitTokens, emitToken, htexts.unwound, done_bind]
      have hnext : (⟨(emittedTokens (tokens.map (tokenChunk texts)) n).byteOffset +
            ((texts tokens[n]).length + 1),
          (emittedTokens (tokens.map (tokenChunk texts)) n).offsetMarkers ++
            [(emittedTokens (tokens.map (tokenChunk texts)) n).byteOffset],
          (emittedTokens (tokens.map (tokenChunk texts)) n).data ++ (texts tokens[n] ++ [0])⟩ :
            Emission) = emittedTokens (tokens.map (tokenChunk texts)) (n + 1) := by
        unfold emittedTokens
        simp only [Emission.mk.injEq]
        refine ⟨?_, ?_, ?_⟩
        · rw [chunkOffset_succ hlt']
          simp [tokenChunk]
        · rw [List.range_succ, List.map_append, List.map_singleton]
        · rw [List.take_succ_eq_append_getElem hlt']
          simp [tokenChunk]
      rw [pure_eq, done_bind, hnext]
      exact ih (n + 1) (by omega)
  exact hfrom tokens.length 0 (Nat.zero_add _)

/-! ### Reading -/

theorem readAt_of_drop {array : List ℕ} {i x : ℕ} {rest : List ℕ} (h : array.drop i = x :: rest) :
    readAt array i = .done x := by
  have hget : array[i]? = some x := by
    rw [← List.head?_drop, h, List.head?_cons]
  rw [readAt, hget]

/-- A text without a NUL is copied up to its NUL. -/
theorem copyToken_text {text out rest : List ℕ} (hnul : 0 ∉ text)
    (hroom : out.length + text.length ≤ 127) :
    copyToken (text ++ 0 :: rest) out = .done (out ++ text) := by
  induction text generalizing out with
  | nil => simp [copyToken]
  | cons c text ih =>
    obtain ⟨hc, hnul⟩ := List.ne_and_not_mem_of_not_mem_cons hnul
    rw [List.length_cons] at hroom
    have hput : putChar out c = .done (out ++ [c]) := if_pos (by rw [maxSymbolLength]; omega)
    rw [List.cons_append, copyToken, if_neg (Ne.symm hc), hput, done_bind,
      ih hnul (by rw [List.length_append, List.length_singleton]; omega), List.append_assoc,
      List.singleton_append]

/-- The arrays hold the chunks of these symbols and texts. -/
structure Laid (tables : NameTables) (symbols : List (List ℕ)) (texts : ℕ → List ℕ) : Prop where
  symbolCount : tables.symbolCount = symbols.length
  names : tables.compressedNames = (symbols.map nameChunk).flatten
  nameOffsets : tables.nameOffsets = (List.range ((symbols.length + 255) / 256)).map
    fun j => chunkOffset (symbols.map nameChunk) (256 * j)
  tokens : tables.tokenTable = ((List.range 0x100).map (tokenChunk texts)).flatten
  tokenOffsets : tables.tokenOffsets = (List.range 0x100).map
    (chunkOffset ((List.range 0x100).map (tokenChunk texts)))

section Laid

variable {tables : NameTables} {symbols : List (List ℕ)} {texts : ℕ → List ℕ}
variable {best : ℕ → List ℕ} {fuel h : ℕ}

/-- The text of a token is found through its offset. -/
theorem Laid.token (hl : Laid tables symbols texts) {token : ℕ} (htoken : token < 256) :
    ∃ offset rest, readAt tables.tokenOffsets token = .done offset ∧
      tables.tokenTable.drop offset = texts token ++ 0 :: rest := by
  have hlt : token < ((List.range 0x100).map (tokenChunk texts)).length := by simpa using htoken
  have hdrop := drop_chunkOffset_of_lt hlt
  refine ⟨chunkOffset ((List.range 0x100).map (tokenChunk texts)) token,
    (((List.range 0x100).map (tokenChunk texts)).drop (token + 1)).flatten, ?_, ?_⟩
  · rw [readAt, hl.tokenOffsets, List.getElem?_map, List.getElem?_range htoken]
    rfl
  · rw [hl.tokens, hdrop]
    simp [tokenChunk]

/-- **The decoding loop** appends the word the tokens spell. -/
theorem Laid.uncompressLoop_spells (hl : Laid tables symbols texts) (ht : Texts best fuel h texts)
    (hbytes : ∀ token, best token ≠ [] → token < 256) {tokens w : List ℕ}
    (hw : SpellsAll best h tokens w) {cursor : ℕ} {rest out : List ℕ}
    (hcursor : tables.compressedNames.drop cursor = tokens ++ rest)
    (hroom : out.length + w.length ≤ 127) :
    uncompressLoop tables tokens.length cursor out = .done (out ++ w) := by
  induction hw generalizing cursor out with
  | nil => simp [uncompressLoop]
  | @cons t ts u w htoken _ ih =>
    rw [List.length_append] at hroom
    obtain ⟨offset, rest', hoffset, htable⟩ := hl.token (hbytes t htoken.rule_ne_nil)
    have htext : texts t = u := ht.spells t u htoken
    have hgood := ht.good t
    rw [htext] at hgood htable
    have hnext : tables.compressedNames.drop (cursor + 1) = ts ++ rest := by
      rw [← List.drop_drop, hcursor]
      rfl
    rw [List.length_cons, uncompressLoop, readAt_of_drop hcursor, done_bind, hoffset, done_bind,
      htable, copyToken_text hgood.2 (by omega), done_bind,
      ih hnext (by rw [List.length_append]; omega), List.append_assoc]

theorem Laid.drop_name (hl : Laid tables symbols texts) {i : ℕ} (hi : i < symbols.length) :
    ∃ rest, tables.compressedNames.drop (chunkOffset (symbols.map nameChunk) i) =
      symbols[i].length :: (symbols[i] ++ rest) := by
  have hlt : i < (symbols.map nameChunk).length := by simpa using hi
  refine ⟨((symbols.map nameChunk).drop (i + 1)).flatten, ?_⟩
  rw [hl.names, drop_chunkOffset_of_lt hlt]
  simp [nameChunk]

/-- The length of a name takes one byte. -/
theorem Laid.length_eq (hl : Laid tables symbols texts) {i : ℕ} (hi : i < symbols.length)
    (hshort : ShortSymbol symbols[i]) :
    getCompressedSymbolLength tables (chunkOffset (symbols.map nameChunk) i) =
      .done (symbols[i].length, chunkOffset (symbols.map nameChunk) i + 1) := by
  obtain ⟨rest, hdrop⟩ := hl.drop_name hi
  have hbit : symbols[i].length &&& leb128HasNextByte = 0 := by
    have hshorter : ∀ n ≤ 127, n &&& leb128HasNextByte = 0 := by decide
    exact hshorter _ hshort.length
  rw [getCompressedSymbolLength, readAt_of_drop hdrop, done_bind, if_neg (not_not.mpr hbit),
    pure_eq]

theorem Laid.skipNames_eq (hl : Laid tables symbols texts)
    (hshort : ∀ tokens ∈ symbols, ShortSymbol tokens) {n i : ℕ} (hi : i + n ≤ symbols.length) :
    skipNames tables n (chunkOffset (symbols.map nameChunk) i) =
      .done (chunkOffset (symbols.map nameChunk) (i + n)) := by
  induction n generalizing i with
  | zero => rfl
  | succ n ih =>
    have hlt : i < symbols.length := by omega
    have hlt' : i < (symbols.map nameChunk).length := by simpa using hlt
    have hnext : chunkOffset (symbols.map nameChunk) i + 1 + symbols[i].length =
        chunkOffset (symbols.map nameChunk) (i + 1) := by
      rw [chunkOffset_succ hlt', List.getElem_map, nameChunk, List.length_cons]
      omega
    rw [skipNames, hl.length_eq hlt (hshort _ (List.getElem_mem hlt)), done_bind]
    dsimp only
    rw [hnext, ih (by omega), show i + 1 + n = i + (n + 1) by omega]

/-- **The cursor** of a name is the offset of its chunk. -/
theorem Laid.cursor_eq (hl : Laid tables symbols texts)
    (hshort : ∀ tokens ∈ symbols, ShortSymbol tokens) {i : ℕ} (hi : i < symbols.length) :
    getCompressedSymbolNameCursor tables i =
      .done (chunkOffset (symbols.map nameChunk) i) := by
  have hshift : i >>> 8 = i / 256 := Nat.shiftRight_eq_div_pow i 8
  have hmarker : readAt tables.nameOffsets (i / 256) =
      .done (chunkOffset (symbols.map nameChunk) (256 * (i / 256))) := by
    have hlt : i / 256 < (symbols.length + 255) / 256 := by omega
    rw [readAt, hl.nameOffsets, List.getElem?_map, List.getElem?_range hlt]
    rfl
  rw [getCompressedSymbolNameCursor, hshift, hmarker, done_bind, and_byte,
    hl.skipNames_eq hshort (by omega), Nat.div_add_mod]

/-- **A symbol is read back** as the word it spells, and a NUL. -/
theorem Laid.uncompressSymbol_eq (hl : Laid tables symbols texts) (ht : Texts best fuel h texts)
    (hbytes : ∀ token, best token ≠ [] → token < 256) {i : ℕ} (hi : i < symbols.length)
    (hshort : ShortSymbol symbols[i]) {w : List ℕ} (hw : SpellsAll best h symbols[i] w)
    (hlen : w.length ≤ 127) :
    uncompressSymbol tables (chunkOffset (symbols.map nameChunk) i) = .done (w ++ [0]) := by
  obtain ⟨rest, hdrop⟩ := hl.drop_name hi
  have hcursor : tables.compressedNames.drop (chunkOffset (symbols.map nameChunk) i + 1) =
      symbols[i] ++ rest := by
    rw [← List.drop_drop, hdrop]
    rfl
  rw [uncompressSymbol, hl.length_eq hi hshort, done_bind]
  dsimp only
  rw [hl.uncompressLoop_spells ht hbytes hw hcursor (by simpa using hlen), done_bind,
    List.nil_append, putChar, if_pos (by rw [maxSymbolLength]; omega)]

end Laid

/-! ### The round trip -/

theorem Interned.shortSymbol {names : List (List ℕ)} {h : ℕ} {table : TokenTable}
    (ht : Interned names h table) (hnames : ∀ name ∈ names, ValidName name) {tokens : List ℕ}
    (htokens : tokens ∈ table.symbols) : ShortSymbol tokens := by
  obtain ⟨name, hname, hspells⟩ := exists_name_of_symbol ht.spells htokens
  have hvalid := hnames name hname
  refine ⟨?_, hspells.length_le.trans hvalid.length⟩
  rintro rfl
  cases hspells with
  | nil => exact hvalid.nonempty rfl

/-- An assertion on values that all fit holds. -/
theorem checkValues_done {values : List ℕ} {bound : ℕ} (bug : GeneratorBug)
    (h : ∀ value ∈ values, value ≤ bound) : checkValues values bound bug = .done () := if_pos h

theorem checkValues_ends (values : List ℕ) (bound : ℕ) (bug : GeneratorBug) :
    Ends (fun e => e = bug ∧ ¬ ∀ value ∈ values, value ≤ bound) (fun _ => True)
      (checkValues values bound bug) := by
  unfold checkValues
  split_ifs with hall
  · trivial
  · exact ⟨rfl, hall⟩

/-- **The emitted tables** hold the chunks of the interned names; the only assertion that can fail
is that the names take less than `2 ^ 32` bytes. -/
theorem emitNameTables_laid {fuel : ℕ} (hfuel : 257 ≤ fuel) {names : List (List ℕ)}
    (hnames : ∀ name ∈ names, ValidName name) :
    Ends (fun e => e = .u32 ∧ 2 ^ 32 ≤ 128 * names.length)
      (fun tables => ∃ texts, Texts (TokenTable.make names).bestTokens fuel 256 texts ∧
        Laid tables (TokenTable.make names).symbols texts) (emitNameTables fuel names) := by
  have ht := make_interned hnames
  obtain ⟨texts, htexts⟩ := exists_texts ht (by omega : 256 < fuel)
  have hlength : (TokenTable.make names).symbols.length = names.length := ht.spells.length_eq
  have hshort : ∀ tokens ∈ (TokenTable.make names).symbols, ShortSymbol tokens :=
    fun _ htokens => ht.shortSymbol hnames htokens
  have hbound : ∀ i, chunkOffset ((TokenTable.make names).symbols.map nameChunk) i ≤
      names.length * 128 := by
    intro i
    have hchunks : ∀ chunk ∈ (TokenTable.make names).symbols.map nameChunk,
        chunk.length ≤ 128 := by
      intro chunk hchunk
      obtain ⟨tokens, htokens, rfl⟩ := List.mem_map.mp hchunk
      exact Nat.succ_le_succ (hshort tokens htokens).length
    have hle := chunkOffset_le hchunks i
    rwa [List.length_map, hlength] at hle
  have hoffsets : ∀ i, chunkOffset ((List.range 0x100).map (tokenChunk texts)) i ≤ 0xFFFF := by
    intro i
    have hchunks : ∀ chunk ∈ (List.range 0x100).map (tokenChunk texts), chunk.length ≤ 128 := by
      intro chunk hchunk
      obtain ⟨token, _, rfl⟩ := List.mem_map.mp hchunk
      have hgood := (htexts.good token).1
      simp only [tokenChunk, List.length_append, List.length_singleton]
      omega
    have hle := chunkOffset_le hchunks i
    rw [List.length_map, List.length_range] at hle
    omega
  unfold emitNameTables
  dsimp only
  refine (checkValues_ends [names.length] 0xFFFFFFFF .u32).mono ?_ (fun _ h => h) |>.bind ?_
  · rintro e ⟨rfl, hlarge⟩
    simp only [List.mem_singleton, forall_eq] at hlarge
    exact ⟨rfl, by omega⟩
  intro _ _
  rw [emitNames_eq hshort, done_bind]
  refine (checkValues_ends _ 0xFFFFFFFF .u32).mono ?_ (fun _ h => h) |>.bind ?_
  · rintro e ⟨rfl, hlarge⟩
    refine ⟨rfl, ?_⟩
    by_contra hsmall
    apply hlarge
    intro value hvalue
    obtain ⟨j, _, rfl⟩ := List.mem_map.mp hvalue
    have := hbound (256 * j)
    omega
  intro _ _
  rw [emitTokens_eq htexts, done_bind, checkValues_done, done_bind, pure_eq]
  · refine ⟨texts, htexts, ⟨hlength.symm, ?_, rfl, ?_, ?_⟩⟩
    · exact emittedNames_data (by rw [List.length_map])
    · rw [emittedTokens_data (by rw [List.length_map])]
    · simp only [emittedTokens, List.length_range]
  · intro value hvalue
    obtain ⟨i, rfl⟩ := mem_emittedTokens hvalue
    exact hoffsets i

/-- The kernel reads these names from the tables. -/
structure ReadsBack (names : List (List ℕ)) (tables : NameTables) : Prop where
  symbolCount : tables.symbolCount = names.length
  name : ∀ i name, names[i]? = some name → ∃ cursor,
    getCompressedSymbolNameCursor tables i = .done cursor ∧
      uncompressSymbol tables cursor = .done (name ++ [0])

theorem emitNameTables_readsBack {fuel : ℕ} (hfuel : 257 ≤ fuel) {names : List (List ℕ)}
    (hnames : ∀ name ∈ names, ValidName name) :
    (∃ tables, emitNameTables fuel names = .done tables ∧ ReadsBack names tables) ∨
    (emitNameTables fuel names = .halt .u32 ∧ 2 ^ 32 ≤ 128 * names.length) := by
  have hends := emitNameTables_laid hfuel hnames
  cases htables : emitNameTables fuel names with
  | outOfFuel => exact absurd htables hends.ne_outOfFuel
  | halt e =>
    rw [htables] at hends
    obtain ⟨rfl, hlarge⟩ := hends
    exact .inr ⟨rfl, hlarge⟩
  | done tables =>
    obtain ⟨texts, htexts, hlaid⟩ := hends.of_done htables
    have ht := make_interned hnames
    have hlength : (TokenTable.make names).symbols.length = names.length := ht.spells.length_eq
    refine .inl ⟨tables, rfl, hlaid.symbolCount.trans hlength, fun i name hname => ?_⟩
    obtain ⟨hi, rfl⟩ := List.getElem?_eq_some_iff.mp hname
    have hlt : i < (TokenTable.make names).symbols.length := by omega
    refine ⟨_, hlaid.cursor_eq (fun _ htokens => ht.shortSymbol hnames htokens) hlt, ?_⟩
    exact hlaid.uncompressSymbol_eq htexts (fun token htoken => (ht.words token htoken).1) hlt
      (ht.shortSymbol hnames (List.getElem_mem hlt)) (ht.spells.get hlt hi)
      (hnames _ (List.getElem_mem hi)).length

/-- **The kernel reads the names back**: for every list of names, the generator emits tables (or
the names take `2 ^ 32` bytes or more), and every name is read back from them exactly, followed by a
NUL, within `MAX_SYMBOL_LENGTH` bytes. -/
theorem emitted_names_read_back {fuel : ℕ} (hfuel : 257 ≤ fuel) {names : List (List ℕ)}
    (hnames : ∀ name ∈ names, ValidName name) :
    (∃ tables, emitNameTables fuel names = .done tables ∧ tables.symbolCount = names.length ∧
      ∀ i < tables.symbolCount, ∃ name cursor, names[i]? = some name ∧
        getCompressedSymbolNameCursor tables i = .done cursor ∧
        uncompressSymbol tables cursor = .done (name ++ [0])) ∨
    (emitNameTables fuel names = .halt .u32 ∧ 2 ^ 32 ≤ 128 * names.length) := by
  rcases emitNameTables_readsBack hfuel hnames with ⟨tables, htables, hread⟩ | hlarge
  · refine .inl ⟨tables, htables, hread.symbolCount, fun i hi => ?_⟩
    have hname := List.getElem?_eq_getElem (show i < names.length by rwa [← hread.symbolCount])
    obtain ⟨cursor, hcursor, hwritten⟩ := hread.name i _ hname
    exact ⟨_, cursor, hname, hcursor, hwritten⟩
  · exact .inr hlarge

/-- Two names, the second one a part of the first. -/
theorem emitted_names_read_back_twoNames :
    (∃ tables, emitNameTables 257 [[97, 98, 97, 98], [97, 98]] = .done tables ∧
      tables.symbolCount = 2 ∧ ∀ i < tables.symbolCount,
        ∃ name cursor, [[97, 98, 97, 98], [97, 98]][i]? = some name ∧
          getCompressedSymbolNameCursor tables i = .done cursor ∧
          uncompressSymbol tables cursor = .done (name ++ [0])) ∨
    (emitNameTables 257 [[97, 98, 97, 98], [97, 98]] = .halt .u32 ∧ 2 ^ 32 ≤ 128 * 2) := by
  have hnames : ∀ name ∈ [[97, 98, 97, 98], [97, 98]], ValidName name := by
    intro name hname
    rcases List.mem_pair.mp hname with rfl | rfl
    · exact ⟨by decide, by decide, by decide⟩
    · exact ⟨by decide, by decide, by decide⟩
  exact emitted_names_read_back (Nat.le_refl 257) hnames

end UltraKernel.Symbols
