import UltraKernel.Lib.Bisection
import UltraKernel.Symbols.RoundTrip
import Mathlib.Data.Finset.Max

/-!
# The symbol reported for an address

The generator sorts the symbols by address and puts the preferred one of several at an address
first.  The kernel's binary search ends at the last of them.

* `searchLoop_bisected`: the search for the last address at or below the one looked for;
* `lookup_first_iff`: the symbol reported is one the order ranks first exactly when the order does
  not distinguish the symbols at its address, and the address was not truncated below them.
-/

namespace UltraKernel.Symbols

open Outcome

/-! ### The search -/

/-- **The binary search** for the last value that is at most the one looked for. -/
theorem searchLoop_bisected {tables : SymbolTables} {relAddress fuel begin stop : ℕ}
    (hlt : begin < stop) (hstop : stop ≤ tables.relativeAddresses.length)
    (hfuel : stop - begin ≤ fuel) :
    ∃ k, searchLoop tables relAddress fuel begin stop = .done k ∧
      Bisected (fun i => tables.relativeAddresses.getD i 0 ≤ relAddress) begin stop k := by
  induction fuel generalizing begin stop with
  | zero => omega
  | succ fuel ih =>
    rw [searchLoop]
    by_cases hwide : stop - begin > 1
    · rw [if_pos hwide]
      have hbegin : begin < begin + (stop - begin) / 2 := by omega
      have hend : begin + (stop - begin) / 2 < stop := by omega
      generalize begin + (stop - begin) / 2 = i at hbegin hend
      have hread : readAt tables.relativeAddresses i =
          .done (tables.relativeAddresses.getD i 0) := by
        rw [readAt, List.getD_eq_getElem?_getD, List.getElem?_eq_getElem (by omega)]
        rfl
      dsimp only
      rw [hread, done_bind]
      by_cases hle : tables.relativeAddresses.getD i 0 ≤ relAddress
      · rw [if_pos hle]
        obtain ⟨k, hrun, hk⟩ := ih hend hstop (by omega)
        exact ⟨k, hrun, hk.of_holds hle hbegin.le⟩
      · rw [if_neg hle]
        obtain ⟨k, hrun, hk⟩ := ih hbegin (by omega) (by omega)
        exact ⟨k, hrun, hk.of_not hle hend.le⟩
    · rw [if_neg hwide]
      exact ⟨begin, rfl, Bisected.of_adjacent hlt hwide⟩

/-! ### The order of the symbols -/

/-- What the order compares at equal addresses. -/
def Symbol.rank (symbol : Symbol) : Bool × Bool × ℕ × ℕ :=
  (symbol.isWeak, symbol.isLinker, symbol.underscores, symbol.index)

theorem boolSub_eq_zero {a b : Bool} : boolSub a b = 0 ↔ a = b := by
  cases a <;> cases b <;> decide

theorem boolSub_neg (a b : Bool) : boolSub a b = - boolSub b a := by
  cases a <;> cases b <;> decide

/-- **Symbols compare equal** when nothing the order looks at tells them apart. -/
theorem comparator_eq_zero {s t : Symbol} :
    s.sortByAddressComparator t = 0 ↔ s.address = t.address ∧ s.rank = t.rank := by
  simp only [Symbol.sortByAddressComparator, Symbol.rank, Prod.mk.injEq]
  split_ifs <;> simp_all [boolSub_eq_zero, sub_eq_zero]

theorem comparator_antisymm (s t : Symbol) :
    s.sortByAddressComparator t = - t.sortByAddressComparator s := by
  unfold Symbol.sortByAddressComparator
  by_cases haddress : s.address = t.address
  · by_cases hweak : s.isWeak = t.isWeak
    · by_cases hlinker : s.isLinker = t.isLinker
      · by_cases hunderscores : s.underscores = t.underscores
        · simp [haddress, hweak, hlinker, hunderscores]
        · simp [haddress, hweak, hlinker, hunderscores, Ne.symm hunderscores]
      · simp [haddress, hweak, hlinker, Ne.symm hlinker, boolSub_neg s.isLinker]
    · simp [haddress, hweak, Ne.symm hweak, boolSub_neg s.isWeak]
  · rw [if_pos haddress, if_pos (Ne.symm haddress)]
    split_ifs <;> omega

/-- Sorted symbols have ascending addresses. -/
theorem address_le_of_comparator {s t : Symbol} (h : s.sortByAddressComparator t ≤ 0) :
    s.address ≤ t.address := by
  by_contra hlt
  rw [Symbol.sortByAddressComparator, if_pos (by omega), if_neg (by omega)] at h
  omega

/-! ### The symbol of an address -/

/-- The symbol starts at the greatest start address that is at or below the given one. -/
structure GreatestStart (symbols : List Symbol) (address : ℕ) (s : Symbol) : Prop where
  mem : s ∈ symbols
  below : s.address ≤ address
  greatest : ∀ t ∈ symbols, t.address ≤ address → t.address ≤ s.address

/-- **The preferred symbol**: of those that start there, one that the order ranks first. -/
structure RankedFirst (symbols : List Symbol) (address : ℕ) (s : Symbol) : Prop where
  start : GreatestStart symbols address s
  first : ∀ t, GreatestStart symbols address t → s.sortByAddressComparator t ≤ 0

theorem GreatestStart.address_eq {symbols : List Symbol} {address : ℕ} {s t : Symbol}
    (hs : GreatestStart symbols address s) (ht : GreatestStart symbols address t) :
    s.address = t.address :=
  le_antisymm (ht.greatest s hs.mem hs.below) (hs.greatest t ht.mem ht.below)

/-- The first address of a list of symbols. -/
def firstAddress (symbols : List Symbol) : ℕ := (symbols.head?.map Symbol.address).getD 0

/-- The emitted tables describe the symbols. -/
structure Describes (text : TextSection) (tables : SymbolTables) (symbols : List Symbol) :
    Prop where
  symbolCount : tables.symbolCount = symbols.length
  relativeAddresses : tables.relativeAddresses =
    symbols.map fun symbol => symbol.address - firstAddress symbols
  base : symbolBase text tables = firstAddress symbols

theorem emitNameTables_symbolCount {fuel : ℕ} {names : List (List ℕ)} {tables : NameTables}
    (h : emitNameTables fuel names = .done tables) : tables.symbolCount = names.length := by
  obtain ⟨_, _, h⟩ := bind_eq_done.mp h
  obtain ⟨_, _, h⟩ := bind_eq_done.mp h
  obtain ⟨_, _, h⟩ := bind_eq_done.mp h
  obtain ⟨_, _, h⟩ := bind_eq_done.mp h
  obtain ⟨_, _, h⟩ := bind_eq_done.mp h
  obtain rfl := Outcome.done.inj h
  rfl

theorem emitSymbolTables_describes {fuel : ℕ} {text : TextSection} {symbols : List Symbol}
    {tables : SymbolTables} (h : emitSymbolTables fuel text.textBegin symbols = .done tables) :
    Describes text tables symbols := by
  obtain ⟨names, hnames, h⟩ := bind_eq_done.mp h
  obtain ⟨_, _, h⟩ := bind_eq_done.mp h
  obtain rfl := Outcome.done.inj h
  refine ⟨?_, rfl, ?_⟩
  · simpa using emitNameTables_symbolCount hnames
  · exact sub_add_cancel _ _

/-- The low 32 bits of the distance from the first symbol, in which the search works. -/
def relativeTo (symbols : List Symbol) (address : ℕ) : ℕ :=
  (address - firstAddress symbols) % 2 ^ 32

section Lookup

variable {text : TextSection} {tables : SymbolTables} {symbols : List Symbol} {address fuel : ℕ}

theorem firstAddress_le (hsorted : symbols.Pairwise fun s t => s.sortByAddressComparator t ≤ 0)
    {s : Symbol} (hs : s ∈ symbols) : firstAddress symbols ≤ s.address := by
  cases symbols with
  | nil => cases hs
  | cons first rest =>
    rcases List.mem_cons.mp hs with rfl | hs
    · exact le_rfl
    · exact address_le_of_comparator (List.rel_of_pairwise_cons hsorted hs)

theorem address_mono (hsorted : symbols.Pairwise fun s t => s.sortByAddressComparator t ≤ 0)
    {i j : ℕ} (hij : i ≤ j) (hj : j < symbols.length) :
    symbols[i].address ≤ symbols[j].address := by
  rcases Nat.eq_or_lt_of_le hij with rfl | hlt
  · exact le_rfl
  · exact address_le_of_comparator (List.pairwise_iff_getElem.mp hsorted i j (by omega) hj hlt)

/-- **The lookup** reports the last symbol whose relative address is at most the truncated one. -/
theorem Describes.lookup (hd : Describes text tables symbols) (hne : symbols ≠ [])
    (haddress : firstAddress symbols ≤ address) (htext : addressIsKernelCode text address)
    (hfuel : symbols.length ≤ fuel) :
    ∃ k, ∃ hk : k < symbols.length,
      (symbolLookupByAddress fuel text tables address = do
        let cursor ← getCompressedSymbolNameCursor tables.toNameTables k
        let name ← uncompressSymbol tables.toNameTables cursor
        return .ok ⟨k, name, (relativeTo symbols address + 2 ^ 32 -
          (symbols[k].address - firstAddress symbols)) % 2 ^ 32⟩) ∧
      symbols[k].address - firstAddress symbols ≤ relativeTo symbols address ∧
      ∀ j (hj : j < symbols.length), k + 1 = j →
        relativeTo symbols address < symbols[j].address - firstAddress symbols := by
  have hpos := List.length_pos_iff.mpr hne
  have hget : ∀ i (hi : i < symbols.length),
      tables.relativeAddresses[i]? = some (symbols[i].address - firstAddress symbols) := by
    intro i hi
    rw [hd.relativeAddresses, List.getElem?_map, List.getElem?_eq_getElem hi]
    rfl
  have hrel : ((address - symbolBase text tables : ℤ) % 2 ^ 32).toNat =
      relativeTo symbols address := by
    rw [hd.base, relativeTo]
    omega
  have hlength : symbols.length ≤ tables.relativeAddresses.length := by
    rw [hd.relativeAddresses, List.length_map]
  have hgetD : ∀ i (hi : i < symbols.length), tables.relativeAddresses.getD i 0 =
      symbols[i].address - firstAddress symbols := by
    intro i hi
    rw [List.getD_eq_getElem?_getD, hget i hi]
    rfl
  obtain ⟨k, hrun, hsearch⟩ :=
    @searchLoop_bisected tables (relativeTo symbols address) fuel 0 _ hpos hlength (by omega)
  have hk := hsearch.lt_last
  refine ⟨k, hk, ?_, ?_, ?_⟩
  · unfold symbolLookupByAddress
    rw [if_neg (not_not.mpr htext), if_neg (by rw [hd.symbolCount]; omega)]
    dsimp only
    rw [hrel, hd.symbolCount, hrun, done_bind, readAt, hget k hk, done_bind]
  · rcases hsearch.low with rfl | hle
    · cases symbols with
      | nil => exact absurd rfl hne
      | cons first rest => simp [firstAddress]
    · rwa [hgetD k hk] at hle
  · rintro j hj rfl
    rcases hsearch.high with hend | hlt
    · omega
    · rw [hgetD _ hj] at hlt
      exact not_le.mp hlt

/-- When the order and the lookup agree on an address. -/
def LookupAgrees (symbols : List Symbol) (address : ℕ) : Prop :=
  ∀ s t, GreatestStart symbols address s → GreatestStart symbols address t →
    s.sortByAddressComparator t = 0 ∧
      s.address - firstAddress symbols ≤ relativeTo symbols address

/-- Some start is the greatest one, once a symbol starts at or below the address. -/
theorem exists_greatestStart {s : Symbol} (hs : s ∈ symbols) (hbelow : s.address ≤ address) :
    ∃ t, GreatestStart symbols address t := by
  have hne : (symbols.toFinset.filter (·.address ≤ address)).Nonempty :=
    ⟨s, by simp [hs, hbelow]⟩
  obtain ⟨t, ht, hmax⟩ := Finset.exists_max_image _ Symbol.address hne
  rw [Finset.mem_filter, List.mem_toFinset] at ht
  exact ⟨t, ht.1, ht.2, fun u hu hle => hmax u (by simp [hu, hle])⟩

/-- The symbols up to the truncated address are not after the last one of them. -/
theorem before_reported (hsorted : symbols.Pairwise fun s t => s.sortByAddressComparator t ≤ 0)
    {k : ℕ} (hk : k < symbols.length)
    (hhigh : ∀ j (hj : j < symbols.length), k + 1 = j →
      relativeTo symbols address < symbols[j].address - firstAddress symbols)
    {s : Symbol} (hs : s ∈ symbols)
    (hle : s.address - firstAddress symbols ≤ relativeTo symbols address) :
    s.address ≤ symbols[k].address ∧ (s = symbols[k] ∨ s.sortByAddressComparator symbols[k] ≤ 0) := by
  obtain ⟨j, hj, rfl⟩ := List.mem_iff_getElem.mp hs
  have hjk : j ≤ k := by
    by_contra hlt
    have hnext := hhigh (k + 1) (by omega) rfl
    have hmono := address_mono hsorted (show k + 1 ≤ j by omega) hj
    omega
  refine ⟨address_mono hsorted hjk hk, ?_⟩
  rcases Nat.eq_or_lt_of_le hjk with rfl | hlt
  · exact .inl rfl
  · exact .inr (List.pairwise_iff_getElem.mp hsorted j k hj hk hlt)

/-- **The lookup against the order**: the symbol reported for a kernel code address is one that the
order ranks first among those at the greatest start address exactly when the order does not tell
these symbols apart (they are one symbol, when the indices differ) and the truncated address is not
below them. -/
theorem lookup_first_iff {genFuel : ℕ}
    (hsorted : symbols.Pairwise fun s t => s.sortByAddressComparator t ≤ 0)
    (htables : emitSymbolTables genFuel text.textBegin symbols = .done tables)
    (hne : symbols ≠ []) (haddress : firstAddress symbols ≤ address)
    (htext : addressIsKernelCode text address) (hfuel : symbols.length ≤ fuel) :
    ∃ k, ∃ hk : k < symbols.length,
      (symbolLookupByAddress fuel text tables address = do
        let cursor ← getCompressedSymbolNameCursor tables.toNameTables k
        let name ← uncompressSymbol tables.toNameTables cursor
        return .ok ⟨k, name, (relativeTo symbols address + 2 ^ 32 -
          (symbols[k].address - firstAddress symbols)) % 2 ^ 32⟩) ∧
      (RankedFirst symbols address symbols[k] ↔ LookupAgrees symbols address) := by
  obtain ⟨k, hk, hrun, hlow, hhigh⟩ :=
    (emitSymbolTables_describes htables).lookup hne haddress htext hfuel
  refine ⟨k, hk, hrun, ?_⟩
  have hfirst : ∀ {s}, s ∈ symbols → firstAddress symbols ≤ s.address := firstAddress_le hsorted
  have hself : ∀ s : Symbol, s.sortByAddressComparator s = 0 :=
    fun s => comparator_eq_zero.mpr ⟨rfl, rfl⟩
  constructor
  · intro hranked
    have htie : ∀ {s}, GreatestStart symbols address s →
        s.sortByAddressComparator symbols[k] = 0 ∧
          s.address - firstAddress symbols ≤ relativeTo symbols address := by
      intro s hs
      have hle : s.address - firstAddress symbols ≤ relativeTo symbols address := by
        rw [hs.address_eq hranked.start]
        exact hlow
      refine ⟨?_, hle⟩
      rcases (before_reported hsorted hk hhigh hs.mem hle).2 with rfl | hcompare
      · exact hself _
      · have hback := hranked.first s hs
        rw [comparator_antisymm] at hback
        omega
    intro s t hs ht
    obtain ⟨hs₁, hs₂⟩ := comparator_eq_zero.mp (htie hs).1
    obtain ⟨ht₁, ht₂⟩ := comparator_eq_zero.mp (htie ht).1
    exact ⟨comparator_eq_zero.mpr ⟨hs₁.trans ht₁.symm, hs₂.trans ht₂.symm⟩, (htie hs).2⟩
  · intro hagrees
    have hmem : symbols[k] ∈ symbols := List.getElem_mem hk
    have hbelow : symbols[k].address ≤ address := by
      have hle : relativeTo symbols address ≤ address - firstAddress symbols := Nat.mod_le _ _
      have := hfirst hmem
      omega
    have hstart : GreatestStart symbols address symbols[k] := by
      obtain ⟨s, hs⟩ := exists_greatestStart hmem hbelow
      have hle := (before_reported hsorted hk hhigh hs.mem (hagrees s s hs hs).2).1
      exact ⟨hmem, hbelow, fun t ht htle => (hs.greatest t ht htle).trans hle⟩
    exact ⟨hstart, fun t ht => (hagrees _ t hstart ht).1.le⟩

end Lookup

/-- A function and a weak alias of it. -/
def weakAlias : List Symbol := [⟨['f'], ['T'], 0, 0x1000⟩, ⟨['g'], ['W'], 1, 0x1000⟩]

/-- A text that ends after them. -/
def weakAliasText : TextSection := ⟨0x1000, 0x2000⟩

theorem weakAlias_sorted : weakAlias.Pairwise fun s t => s.sortByAddressComparator t ≤ 0 := by
  decide

theorem weakAlias_emitted :
    ∃ tables, emitSymbolTables 257 weakAliasText.textBegin weakAlias = .done tables ∧
      ReadsBack [[102], [103]] tables.toNameTables := by
  have hnames : ∀ name ∈ [[102], [103]], ValidName name := by
    intro name hname
    rcases List.mem_pair.mp hname with rfl | rfl
    · exact ⟨by decide, by decide, by decide⟩
    · exact ⟨by decide, by decide, by decide⟩
  have hcodes : (weakAlias.map fun symbol => symbol.name.map Char.toNat) = [[102], [103]] := by
    decide
  rcases emitNameTables_readsBack (Nat.le_refl 257) hnames with ⟨names, hemitted, hread⟩ | ⟨_, hlarge⟩
  · refine ⟨{ names with relativeAddresses := [0, 0], firstSymbolOffset := 0 }, ?_, hread⟩
    rw [emitSymbolTables, hcodes, hemitted, done_bind]
    rfl
  · exact absurd hlarge (by decide)

theorem weakAlias_not_first :
    ¬ RankedFirst weakAlias 0x1000 ⟨['g'], ['W'], 1, 0x1000⟩ := by
  intro hranked
  have hfirst : GreatestStart weakAlias 0x1000 ⟨['f'], ['T'], 0, 0x1000⟩ :=
    ⟨by decide, by decide, by decide⟩
  exact absurd (hranked.first _ hfirst) (by decide)

/-- **The alias is reported**, not the function, which the order ranks first. -/
theorem weakAlias_reported :
    weakAlias.Pairwise (fun s t => s.sortByAddressComparator t ≤ 0) ∧
      ∃ tables, emitSymbolTables 257 weakAliasText.textBegin weakAlias = .done tables ∧
        ∃ lookup, symbolLookupByAddress 2 weakAliasText tables 0x1000 = .done (.ok lookup) ∧
          lookup.name = [103, 0] ∧
          ∃ h : lookup.symbol < weakAlias.length,
            ¬ RankedFirst weakAlias 0x1000 weakAlias[lookup.symbol] := by
  obtain ⟨tables, htables, hread⟩ := weakAlias_emitted
  refine ⟨weakAlias_sorted, tables, htables, ?_⟩
  obtain ⟨k, hk, hrun, _, hhigh⟩ := (emitSymbolTables_describes htables).lookup
    (by decide) (show firstAddress weakAlias ≤ 0x1000 by decide) (by decide)
    (show weakAlias.length ≤ 2 by decide)
  obtain rfl : k = 1 := by
    have hlt : k < 2 := hk
    by_contra hne
    obtain rfl : k = 0 := by omega
    exact absurd (hhigh 1 (by decide) rfl) (by decide)
  obtain ⟨cursor, hcursor, hname⟩ := hread.name 1 [103] rfl
  rw [hcursor, done_bind, hname, done_bind, pure_eq] at hrun
  exact ⟨_, hrun, rfl, hk, weakAlias_not_first⟩

/-- The lookup of an address inside both. -/
theorem lookup_first_iff_weakAlias :
    ∃ tables, emitSymbolTables 257 weakAliasText.textBegin weakAlias = .done tables ∧
      ∃ k, ∃ hk : k < weakAlias.length,
        (symbolLookupByAddress 2 weakAliasText tables 0x1010 = do
          let cursor ← getCompressedSymbolNameCursor tables.toNameTables k
          let name ← uncompressSymbol tables.toNameTables cursor
          return .ok ⟨k, name, (relativeTo weakAlias 0x1010 + 2 ^ 32 -
            (weakAlias[k].address - firstAddress weakAlias)) % 2 ^ 32⟩) ∧
        (RankedFirst weakAlias 0x1010 weakAlias[k] ↔ LookupAgrees weakAlias 0x1010) := by
  obtain ⟨tables, htables, _⟩ := weakAlias_emitted
  exact ⟨tables, htables, lookup_first_iff weakAlias_sorted htables (by decide)
    (show firstAddress weakAlias ≤ 0x1010 by decide) (by decide)
    (show weakAlias.length ≤ 2 by decide)⟩

end UltraKernel.Symbols
