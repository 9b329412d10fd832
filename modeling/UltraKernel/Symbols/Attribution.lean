import UltraKernel.Symbols.Lookup
import Mathlib.Data.List.GetD

/-!
# The symbol that an address is attributed to

The tables are any that ascend, whether the generator made them or not; the first symbol may start
behind the start of the text.

* `lookup_search`: a lookup that reports a symbol reports the one that the search ends at;
* `search_last`: the search from an address that is not truncated ends at the last symbol before it;
* `attributed_iff`: the symbol is the right one unless the address is below all of them.
-/

namespace UltraKernel.Symbols

open Outcome

/-- The entry of a symbol in the table of the addresses. -/
def relativeAddress (tables : SymbolTables) (symbol : ℕ) : ℕ :=
  tables.relativeAddresses.getD symbol 0

/-- Where a symbol starts. -/
def symbolStart (text : TextSection) (tables : SymbolTables) (symbol : ℕ) : ℤ :=
  symbolBase text tables + relativeAddress tables symbol

/-- The tables of an image with symbols: ascending addresses of 32 bits, relative to a base that is
not below the text. -/
structure Ascending (tables : SymbolTables) : Prop where
  symbolCount : tables.symbolCount = tables.relativeAddresses.length
  nonempty : tables.relativeAddresses ≠ []
  ascending : tables.relativeAddresses.Pairwise (· ≤ ·)
  word : ∀ value ∈ tables.relativeAddresses, value < 2 ^ 32
  base : 0 ≤ tables.firstSymbolOffset

/-- **The right symbol**: the address is not below it but below all that start after it, and the
offset is the difference. -/
structure Attributed (text : TextSection) (tables : SymbolTables) (address : ℕ) (lookup : Lookup) :
    Prop where
  start_le : symbolStart text tables lookup.symbol ≤ address
  last : ∀ j < tables.symbolCount,
    symbolStart text tables lookup.symbol < symbolStart text tables j →
      (address : ℤ) < symbolStart text tables j
  offsetWithin : (lookup.offsetWithin : ℤ) = address - symbolStart text tables lookup.symbol

section Lookup

variable {text : TextSection} {tables : SymbolTables} {address fuel : ℕ} {lookup : Lookup}

theorem getElem?_relativeAddress {i : ℕ} (hi : i < tables.relativeAddresses.length) :
    tables.relativeAddresses[i]? = some (relativeAddress tables i) := by
  rw [relativeAddress, List.getD_eq_getElem _ _ hi]
  exact List.getElem?_eq_getElem hi

theorem Ascending.pos (h : Ascending tables) : 0 < tables.symbolCount := by
  rw [h.symbolCount]
  exact List.length_pos_iff.mpr h.nonempty

theorem Ascending.mono (h : Ascending tables) {i j : ℕ} (hij : i ≤ j) (hj : j < tables.symbolCount) :
    relativeAddress tables i ≤ relativeAddress tables j := by
  rw [h.symbolCount] at hj
  rcases Nat.eq_or_lt_of_le hij with rfl | hlt
  · exact le_rfl
  · have hle := List.pairwise_iff_getElem.mp h.ascending i j (by omega) hj hlt
    rwa [relativeAddress, relativeAddress, List.getD_eq_getElem _ _ (by omega),
      List.getD_eq_getElem _ _ hj]

theorem Ascending.lt (h : Ascending tables) {i : ℕ} (hi : i < tables.symbolCount) :
    relativeAddress tables i < 2 ^ 32 := by
  rw [h.symbolCount] at hi
  rw [relativeAddress, List.getD_eq_getElem _ _ hi]
  exact h.word _ (List.getElem_mem hi)

/-- The truncated difference that is searched for. -/
def truncated (text : TextSection) (tables : SymbolTables) (address : ℕ) : ℕ :=
  ((address - symbolBase text tables) % 2 ^ 32).toNat

/-- **What is reported** is the last symbol at or below the truncated difference, or the first
one. -/
theorem lookup_search (h : Ascending tables) (hfuel : tables.symbolCount ≤ fuel)
    (hcode : addressIsKernelCode text address)
    (hrun : symbolLookupByAddress fuel text tables address = .done (.ok lookup)) :
    LastOrZero (fun i => relativeAddress tables i ≤ truncated text tables address)
        tables.symbolCount lookup.symbol ∧
      lookup.offsetWithin = (truncated text tables address + 2 ^ 32 -
        relativeAddress tables lookup.symbol) % 2 ^ 32 := by
  have hlength := h.symbolCount
  obtain ⟨k, hsearch, hbisected⟩ := @searchLoop_bisected tables (truncated text tables address)
    fuel 0 tables.symbolCount h.pos hlength.le (by omega)
  have hk : k < tables.relativeAddresses.length := hlength ▸ hbisected.lt_last
  rw [symbolLookupByAddress] at hrun
  rw [if_neg (not_not.mpr hcode), if_neg h.pos.ne'] at hrun
  have hrel : ((address - symbolBase text tables : ℤ) % 2 ^ 32).toNat =
      truncated text tables address := rfl
  dsimp only at hrun
  rw [hrel, hsearch, done_bind, readAt, getElem?_relativeAddress hk, done_bind] at hrun
  obtain ⟨cursor, -, hrun⟩ := bind_eq_done.mp hrun
  obtain ⟨name, -, hrun⟩ := bind_eq_done.mp hrun
  obtain rfl := Except.ok.inj (done.inj hrun)
  exact ⟨hbisected.lastOrZero fun i j hij hj hle => (h.mono hij hj).trans hle, rfl⟩

/-- An address of the text at or above the base is not truncated. -/
theorem truncated_eq (h : Ascending tables) (htext : text.textEnd < text.textBegin + 2 ^ 32)
    (hcode : addressIsKernelCode text address) (hbase : symbolBase text tables ≤ address) :
    (truncated text tables address : ℤ) = address - symbolBase text tables := by
  have hoffset := h.base
  have hend : address ≤ text.textEnd := (of_decide_eq_true hcode).2
  rw [truncated, symbolBase] at *
  omega

/-- **The last symbol** at or below an address that is not below the first one. -/
theorem search_last (h : Ascending tables) (hfuel : tables.symbolCount ≤ fuel)
    (htext : text.textEnd < text.textBegin + 2 ^ 32) (hcode : addressIsKernelCode text address)
    (hrun : symbolLookupByAddress fuel text tables address = .done (.ok lookup))
    (hfirst : symbolStart text tables 0 ≤ address) : Attributed text tables address lookup := by
  obtain ⟨hlast, hoffset⟩ := lookup_search h hfuel hcode hrun
  have hexact := truncated_eq h htext hcode (by rw [symbolStart] at hfirst; omega)
  have hbelow : relativeAddress tables lookup.symbol ≤ truncated text tables address := by
    rcases hlast.holds with hle | ⟨-, hfirst'⟩
    · exact hle
    · rw [symbolStart] at hfirst
      omega
  have hword : truncated text tables address < 2 ^ 32 := by
    rw [truncated]
    omega
  refine ⟨?_, ?_, ?_⟩
  · rw [symbolStart]
    omega
  · intro j hj hlt
    rw [symbolStart, symbolStart] at hlt
    -- a symbol that starts later has a greater index
    have hindex : lookup.symbol < j := by
      by_contra hle
      have hmono := h.mono (not_lt.mp hle) hlast.lt
      omega
    have hgreater := not_le.mp (hlast.last j hindex hj)
    rw [symbolStart]
    omega
  · rw [symbolStart, hoffset]
    omega

/-- **The symbol that is reported is the right one**, and the offset is from its start, if and only
if the address is not below the first symbol. -/
theorem attributed_iff (h : Ascending tables) (hfuel : tables.symbolCount ≤ fuel)
    (htext : text.textEnd < text.textBegin + 2 ^ 32) (hcode : addressIsKernelCode text address)
    (hrun : symbolLookupByAddress fuel text tables address = .done (.ok lookup)) :
    Attributed text tables address lookup ↔ symbolStart text tables 0 ≤ address := by
  constructor
  · intro hattributed
    have hstart := hattributed.start_le
    have hmono := h.mono (Nat.zero_le _) (lookup_search h hfuel hcode hrun).1.lt
    rw [symbolStart] at hstart ⊢
    omega
  · exact search_last h hfuel htext hcode hrun

end Lookup

/-! ### A table whose first symbol is behind the start of the text -/

/-- Two symbols of one letter, at `0x1020` and `0x1030`. -/
def lateTables : SymbolTables where
  symbolCount := 2
  compressedNames := [1, 0, 1, 1]
  nameOffsets := [0]
  tokenTable := [102, 0, 103, 0]
  tokenOffsets := [0, 2]
  relativeAddresses := [0, 0x10]
  firstSymbolOffset := 0x20

def lateText : TextSection := ⟨0x1000, 0x2000⟩

theorem lateTables_ascending : Ascending lateTables :=
  ⟨rfl, by decide, by decide, by decide, by decide⟩

/-- An address in the first symbol. -/
theorem attributed_iff_late : Attributed lateText lateTables 0x1024 ⟨0, [102, 0], 4⟩ := by
  have hcount : lateTables.symbolCount ≤ 2 := by decide
  have hrun : symbolLookupByAddress 2 lateText lateTables 0x1024 =
      .done (.ok ⟨0, [102, 0], 4⟩) := by rfl
  exact (attributed_iff lateTables_ascending hcount (by decide) (by decide) hrun).mpr (by decide)

/-- **The start of the text** is below the first symbol and is attributed to the last one, at an
offset of nearly 4 GiB. -/
theorem late_attributed_to_last :
    Ascending lateTables ∧ addressIsKernelCode lateText 0x1000 = true ∧
      symbolLookupByAddress 2 lateText lateTables 0x1000 = .done (.ok ⟨1, [103, 0], 0xFFFFFFD0⟩) ∧
      ¬ Attributed lateText lateTables 0x1000 ⟨1, [103, 0], 0xFFFFFFD0⟩ := by
  refine ⟨lateTables_ascending, by decide, by rfl, ?_⟩
  intro hattributed
  exact absurd hattributed.start_le (by decide)

end UltraKernel.Symbols
