import UltraKernel.Lib.Comparator
import UltraKernel.Symbols.Lookup
import Mathlib.Data.Char
import Mathlib.Data.List.GetD
import Mathlib.Data.List.Lex

/-!
# From the output of `nm` to the tables, as `generate_symbol_tables.py` does

The symbols that are not of the text are dropped, the others are sorted by their addresses, and the
tables are emitted; the names are then sorted for lookups by name.

* `Context.make_kept`: the symbols that are left are those of the text, in their order;
* `listing_lookup`: the kernel finds the symbols of the listing in the tables.
-/

namespace UltraKernel.Symbols

open Outcome

/-! ### The listing -/

/-- What ends the script: a name that is too long, or an assertion. -/
inductive ScriptError where
  | tooLong (name : List Char)
  | assertion (bug : GeneratorBug)
  deriving DecidableEq

/-- A line of `nm -n`, split at its blanks. -/
structure NmLine where
  address : ℕ
  type : List Char
  name : List Char
  deriving DecidableEq

/-- `Section`, without the names of its bounds. -/
structure Section where
  first : ℕ
  last : ℕ

def Section.contains (s : Section) (addr : ℕ) : Bool := addr ≥ s.first ∧ addr ≤ s.last

/-- `UltraContext` -/
structure Context where
  text : Section
  symbols : List Symbol

namespace Context

/-- `UltraContext.MAX_SYMBOL_LENGTH` -/
def maxSymbolLength : ℕ := 127

def textBeginSymbol : List Char :=
  linkerSymbolPrefix ++ ['t', 'e', 'x', 't', '_', 'b', 'e', 'g', 'i', 'n']

def textEndSymbol : List Char := linkerSymbolPrefix ++ ['t', 'e', 'x', 't', '_', 'e', 'n', 'd']

def onSymbolAdded (ctx : Context) (symbol : Symbol) : Context :=
  if symbol.name = textBeginSymbol then { ctx with text := { ctx.text with first := symbol.address } }
  else if symbol.name = textEndSymbol then { ctx with text := { ctx.text with last := symbol.address } }
  else ctx

/-- The symbols that are skipped: the ones of the wrong type, and the mapping symbols of ARM. -/
def skips (type name : List Char) : Bool :=
  decide (type <:+: ['U', 'a', 'A', 'N']) ||
    (strStartsWith name ['$', 'a', '.'] || strStartsWith name ['$', 't', '.'] ||
      strStartsWith name ['$', 'd', '.'] || strStartsWith name ['$', 'x', '.'])

def addSymbol (ctx : Context) (name type : List Char) (index address : ℕ) :
    Outcome ScriptError Context :=
  if skips type name then .done ctx
  else if name.length > maxSymbolLength then .halt (.tooLong name)
  else
    let symbol : Symbol := ⟨name, type, index, address⟩
    .done ({ ctx with symbols := ctx.symbols ++ [symbol] }.onSymbolAdded symbol)

/-- The loop over the lines. -/
def addLines (ctx : Context) : List NmLine → Outcome ScriptError Context
  | [] => .done ctx
  | line :: lines => do
    let ctx ← ctx.addSymbol line.name line.type ctx.symbols.length line.address
    ctx.addLines lines

def shouldDrop (ctx : Context) (symbol : Symbol) : Bool :=
  -- linker symbols cannot appear in traces
  if strStartsWith symbol.name linkerSymbolPrefix then true
  else !ctx.text.contains symbol.address

/-- `UltraContext(binary_path)`, for the lines that `nm` prints. -/
def make (lines : List NmLine) : Outcome ScriptError Context := do
  let ctx ← addLines ⟨⟨0, 0⟩, []⟩ lines
  let symbols := ctx.symbols.filter fun symbol => !ctx.shouldDrop symbol
  return { ctx with symbols := sortedBy Symbol.sortByAddressComparator symbols }

end Context

/-! ### The tables -/

def Symbol.sortByNameComparator (lhs rhs : Symbol) : ℤ :=
  if lhs.name < rhs.name then -1
  else if rhs.name < lhs.name then 1
  else if lhs.address ≠ rhs.address then if lhs.address < rhs.address then -1 else 1
  else (lhs.index : ℤ) - rhs.index

/-- The three bytes of an index. -/
def indexBytes (index : ℕ) : List ℕ :=
  [(index >>> 16) &&& 0xFF, (index >>> 8) &&& 0xFF, (index >>> 0) &&& 0xFF]

/-- The emitted arrays, with `g_symbol_name_index_to_address_index`. -/
structure Output extends SymbolTables where
  nameIndexToAddressIndex : List ℕ

/-- The symbols with their places in the order of the addresses. -/
def indexed (symbols : List Symbol) : List Symbol :=
  symbols.zipIdx.map fun p => { p.1 with index := p.2 }

/-- `main`, for the lines that `nm` prints. -/
def generate (fuel : ℕ) (lines : List NmLine) : Outcome ScriptError Output := do
  let ctx ← Context.make lines
  let tables ← (emitSymbolTables fuel ctx.text.first ctx.symbols).mapHalt .assertion
  if tables.firstSymbolOffset > 0xFFFFFFFF then .halt (.assertion .u32)
  else
    let byName := sortedBy Symbol.sortByNameComparator (indexed ctx.symbols)
    return { tables with nameIndexToAddressIndex := byName.flatMap fun symbol => indexBytes symbol.index }

/-! ### The symbols that are left -/

/-- What a line and a symbol have in common. -/
def NmLine.entry (line : NmLine) : List Char × List Char × ℕ := (line.name, line.type, line.address)

def Symbol.entry (symbol : Symbol) : List Char × List Char × ℕ :=
  (symbol.name, symbol.type, symbol.address)

/-- The symbol of a line is in the tables. -/
def NmLine.kept (text : Section) (line : NmLine) : Bool :=
  !Context.skips line.type line.name &&
    (!strStartsWith line.name linkerSymbolPrefix && text.contains line.address)

section Listing

variable {ctx ctx' : Context} {lines : List NmLine}

theorem onSymbolAdded_symbols (ctx : Context) (symbol : Symbol) :
    (ctx.onSymbolAdded symbol).symbols = ctx.symbols := by
  rw [Context.onSymbolAdded]
  split_ifs <;> rfl

/-- **The lines are added** in their order, unless they are skipped. -/
theorem addLines_symbols (h : ctx.addLines lines = .done ctx') :
    ctx'.symbols.map Symbol.entry = ctx.symbols.map Symbol.entry ++
      (lines.filter fun line => !Context.skips line.type line.name).map NmLine.entry ∧
    ∀ line ∈ lines, Context.skips line.type line.name = false → line.name.length ≤ 127 := by
  induction lines generalizing ctx with
  | nil =>
    obtain rfl := Outcome.done.inj h
    exact ⟨by simp, fun _ hline => absurd hline List.not_mem_nil⟩
  | cons line lines ih =>
    obtain ⟨added, hadd, hrest⟩ := bind_eq_done.mp h
    obtain ⟨hsymbols, hshort⟩ := ih hrest
    rw [Context.addSymbol] at hadd
    by_cases hskips : Context.skips line.type line.name = true
    · rw [if_pos hskips] at hadd
      obtain rfl := Outcome.done.inj hadd
      refine ⟨by rw [hsymbols, List.filter_cons_of_neg (by simpa using hskips)], fun l hl hkeep => ?_⟩
      rcases List.mem_cons.mp hl with rfl | hl
      · rw [hskips] at hkeep
        cases hkeep
      · exact hshort l hl hkeep
    · rw [if_neg hskips] at hadd
      by_cases hlong : line.name.length > Context.maxSymbolLength
      · rw [if_pos hlong] at hadd
        cases hadd
      · rw [if_neg hlong] at hadd
        obtain rfl := Outcome.done.inj hadd
        constructor
        · rw [hsymbols, onSymbolAdded_symbols, List.filter_cons_of_pos (by simpa using hskips)]
          simp [Symbol.entry, NmLine.entry]
        · intro l hl hkeep
          rcases List.mem_cons.mp hl with rfl | hl
          · exact not_lt.mp hlong
          · exact hshort l hl hkeep

/-! ### The order -/

theorem boolSub_nonpos (a b : Bool) (hne : a ≠ b) : boolSub a b ≤ 0 ↔ a < b := by
  revert hne
  revert a b
  decide

theorem compare_nonpos {φ : Type*} [LinearOrder φ] (a b : φ) :
    (if a < b then (-1 : ℤ) else 1) ≤ 0 ↔ a < b := by
  split_ifs with hlt
  · simp [hlt]
  · simp [hlt]

/-- **The order of the addresses**: by the address, and then weak, linker and underscored symbols
last. -/
theorem keyed_address : Keyed Symbol.sortByAddressComparator fun symbol =>
    toLex (symbol.address, toLex (symbol.isWeak, toLex (symbol.isLinker,
      toLex (symbol.underscores, symbol.index)))) := by
  have hunderscores : Keyed (fun lhs rhs : Symbol =>
      if lhs.underscores ≠ rhs.underscores then (lhs.underscores : ℤ) - rhs.underscores
      else (lhs.index : ℤ) - rhs.index)
      fun symbol => toLex (symbol.underscores, symbol.index) :=
    (Keyed.sub Symbol.index).lex fun lhs rhs hne => by omega
  have hlinker := Keyed.lex (f := Symbol.isLinker) (fun lhs rhs => boolSub_nonpos _ _) hunderscores
  have hweak := Keyed.lex (f := Symbol.isWeak) (fun lhs rhs => boolSub_nonpos _ _) hlinker
  exact Keyed.lex (f := Symbol.address) (fun lhs rhs _ => compare_nonpos _ _) hweak

/-- **The order of the names**: by the name, and then by the address. -/
theorem keyed_name : Keyed Symbol.sortByNameComparator fun symbol =>
    toLex (symbol.name, toLex (symbol.address, symbol.index)) := by
  have haddress := Keyed.lex (f := Symbol.address)
    (fun lhs rhs _ => compare_nonpos lhs.address rhs.address) (Keyed.sub Symbol.index)
  have hname := Keyed.lex (f := Symbol.name) (fun lhs rhs _ => compare_nonpos lhs.name rhs.name)
    haddress
  intro lhs rhs
  rw [← hname lhs rhs, Symbol.sortByNameComparator]
  dsimp only
  rcases lt_trichotomy lhs.name rhs.name with hlt | heq | hgt
  · rw [if_pos hlt, if_pos hlt.ne, if_pos hlt]
  · rw [if_neg heq.not_lt, if_neg heq.not_gt, if_neg (not_not.mpr heq)]
  · rw [if_neg hgt.not_gt, if_pos hgt, if_pos hgt.ne', if_neg hgt.not_gt]

/-! ### The symbols of the tables -/

/-- **The symbols that are left** are those of the text, in their order. -/
theorem Context.make_kept (h : Context.make lines = .done ctx) :
    (ctx.symbols.map Symbol.entry).Perm ((lines.filter (NmLine.kept ctx.text)).map NmLine.entry) ∧
      ctx.symbols.Pairwise (fun s t => s.sortByAddressComparator t ≤ 0) ∧
      ∀ line ∈ lines, line.kept ctx.text = true → line.name.length ≤ 127 := by
  obtain ⟨raw, hraw, h⟩ := bind_eq_done.mp h
  obtain ⟨hsymbols, hshort⟩ := addLines_symbols hraw
  obtain rfl := Outcome.done.inj h
  let keeps : List Char × List Char × ℕ → Bool := fun entry =>
    !strStartsWith entry.1 linkerSymbolPrefix && raw.text.contains entry.2.2
  have hdrop : (fun symbol => !raw.shouldDrop symbol) = keeps ∘ Symbol.entry := by
    funext symbol
    rw [shouldDrop]
    split_ifs with hlinker
    · simp [keeps, Symbol.entry, hlinker]
    · simp [keeps, Symbol.entry, hlinker]
  have hkept : (raw.symbols.filter fun symbol => !raw.shouldDrop symbol).map Symbol.entry =
      (lines.filter (NmLine.kept raw.text)).map NmLine.entry := by
    rw [hdrop, ← List.filter_map, hsymbols, List.map_nil, List.nil_append, List.filter_map,
      List.filter_filter]
    congr 1
    refine List.filter_congr fun line _ => ?_
    rw [NmLine.kept, Bool.and_comm]
    rfl
  refine ⟨?_, keyed_address.pairwise _, fun line hline hkeep => ?_⟩
  · rw [← hkept]
    exact (sortedBy_perm _ _).map _
  · refine hshort line hline ?_
    rw [NmLine.kept, Bool.and_eq_true] at hkeep
    simpa using hkeep.1

/-- A name as `nm` prints it: of ASCII characters. -/
def PlainName (name : List Char) : Prop := name ≠ [] ∧ ∀ c ∈ name, 1 ≤ c.toNat ∧ c.toNat ≤ 127

instance (name : List Char) : Decidable (PlainName name) :=
  @instDecidableAnd _ _ _ (List.decidableBAll _ name)

/-- What a run of the script has made. -/
structure Generated (fuel : ℕ) (lines : List NmLine) (ctx : Context) (out : Output) : Prop where
  make : Context.make lines = .done ctx
  tables : emitSymbolTables fuel ctx.text.first ctx.symbols = .done out.toSymbolTables
  names : ReadsBack (ctx.symbols.map fun symbol => symbol.name.map Char.toNat) out.toNameTables
  byName : out.nameIndexToAddressIndex =
    (sortedBy Symbol.sortByNameComparator (indexed ctx.symbols)).flatMap fun symbol =>
      indexBytes symbol.index

variable {fuel genFuel : ℕ} {out : Output}

/-- A symbol is that of a line that is kept. -/
theorem Context.line_of_symbol (h : Context.make lines = .done ctx) {symbol : Symbol}
    (hsymbol : symbol ∈ ctx.symbols) :
    ∃ line ∈ lines, line.kept ctx.text = true ∧ line.entry = symbol.entry := by
  have hmem := (Context.make_kept h).1.mem_iff.mp (List.mem_map_of_mem hsymbol)
  obtain ⟨line, hline, hentry⟩ := List.mem_map.mp hmem
  exact ⟨line, (List.mem_filter.mp hline).1, (List.mem_filter.mp hline).2, hentry⟩

theorem Context.symbol_of_line (h : Context.make lines = .done ctx) {line : NmLine}
    (hline : line ∈ lines) (hkept : line.kept ctx.text = true) :
    ∃ symbol ∈ ctx.symbols, symbol.entry = line.entry := by
  have hmem := (Context.make_kept h).1.mem_iff.mpr
    (List.mem_map_of_mem (List.mem_filter.mpr ⟨hline, hkept⟩))
  obtain ⟨symbol, hsymbol, hentry⟩ := List.mem_map.mp hmem
  exact ⟨symbol, hsymbol, hentry⟩

theorem Context.validNames (h : Context.make lines = .done ctx)
    (hnames : ∀ line ∈ lines, PlainName line.name) :
    ∀ name ∈ ctx.symbols.map fun symbol => symbol.name.map Char.toNat, ValidName name := by
  intro name hname
  obtain ⟨symbol, hsymbol, rfl⟩ := List.mem_map.mp hname
  obtain ⟨line, hline, hkept, hentry⟩ := Context.line_of_symbol h hsymbol
  have heq : line.name = symbol.name := congrArg Prod.fst hentry
  obtain ⟨hne, hascii⟩ := hnames line hline
  rw [← heq]
  refine ⟨by simpa using hne, ?_, fun c hc => ?_⟩
  · rw [List.length_map]
    exact (Context.make_kept h).2.2 line hline hkept
  · obtain ⟨d, hd, rfl⟩ := List.mem_map.mp hc
    exact hascii d hd

theorem Context.contains_symbol (h : Context.make lines = .done ctx) {symbol : Symbol}
    (hsymbol : symbol ∈ ctx.symbols) :
    ctx.text.first ≤ symbol.address ∧ symbol.address ≤ ctx.text.last := by
  obtain ⟨line, -, hkept, hentry⟩ := Context.line_of_symbol h hsymbol
  have haddress : line.address = symbol.address := congrArg (fun entry => entry.2.2) hentry
  simp only [NmLine.kept, Bool.and_eq_true] at hkept
  have hcontains := hkept.2.2
  rw [Section.contains, decide_eq_true_eq, haddress] at hcontains
  exact hcontains

/-- **The script ends with tables** when the text and the names take less than 4 GiB. -/
theorem generate_succeeds (hfuel : 257 ≤ genFuel) (hnames : ∀ line ∈ lines, PlainName line.name)
    (hmake : Context.make lines = .done ctx) (hsize : ctx.text.last < ctx.text.first + 2 ^ 32)
    (hcount : 128 * ctx.symbols.length < 2 ^ 32) :
    ∃ out, generate genFuel lines = .done out ∧ Generated genFuel lines ctx out := by
  rcases emitNameTables_readsBack hfuel (Context.validNames hmake hnames) with
    ⟨names, hemitted, hreads⟩ | ⟨-, hlarge⟩
  swap
  · rw [List.length_map] at hlarge
    omega
  have hfirst : ∀ symbol ∈ ctx.symbols, ctx.text.first ≤ firstAddress ctx.symbols := by
    intro symbol hsymbol
    obtain ⟨head, rest, hcons⟩ := List.exists_cons_of_ne_nil (List.ne_nil_of_mem hsymbol)
    rw [firstAddress, hcons]
    exact (Context.contains_symbol hmake (by rw [hcons]; exact List.mem_cons_self)).1
  let tables : SymbolTables := { names with
    relativeAddresses := ctx.symbols.map fun symbol => symbol.address - firstAddress ctx.symbols
    firstSymbolOffset := (firstAddress ctx.symbols : ℤ) - ctx.text.first }
  have hemit : emitSymbolTables genFuel ctx.text.first ctx.symbols = .done tables := by
    have hrelative : checkValues tables.relativeAddresses 0xFFFFFFFF .u32 = .done () := by
      refine checkValues_done _ fun value hvalue => ?_
      obtain ⟨symbol, hsymbol, rfl⟩ := List.mem_map.mp hvalue
      have hlast := (Context.contains_symbol hmake hsymbol).2
      have := hfirst symbol hsymbol
      omega
    rw [emitSymbolTables, hemitted, done_bind]
    show (checkValues tables.relativeAddresses 0xFFFFFFFF .u32 >>= _) = _
    rw [hrelative]
    rfl
  have hbase : ¬ tables.firstSymbolOffset > 0xFFFFFFFF := by
    show ¬ (firstAddress ctx.symbols : ℤ) - ctx.text.first > 0xFFFFFFFF
    cases hcons : ctx.symbols with
    | nil =>
      rw [firstAddress, List.head?_nil]
      simp only [Option.map_none, Option.getD_none]
      omega
    | cons head rest =>
      have hlast := (Context.contains_symbol hmake (show head ∈ ctx.symbols by simp [hcons])).2
      simp only [firstAddress, List.head?_cons, Option.map_some, Option.getD_some]
      omega
  refine ⟨{ tables with nameIndexToAddressIndex := _ }, ?_, hmake, hemit, hreads, rfl⟩
  rw [generate, hmake, done_bind, hemit, mapHalt_done, done_bind]
  dsimp only
  rw [if_neg hbase]
  rfl

/-- The line that a kernel address belongs to: it is kept, and starts at the greatest address. -/
structure LineOf (lines : List NmLine) (text : Section) (address : ℕ) (line : NmLine) : Prop where
  mem : line ∈ lines
  kept : line.kept text = true
  below : line.address ≤ address
  greatest : ∀ other ∈ lines, other.kept text = true → other.address ≤ address →
    other.address ≤ line.address

/-- **The kernel finds the symbols of the listing.** -/
theorem Generated.lookup (h : Generated genFuel lines ctx out)
    (hsize : ctx.text.last < ctx.text.first + 2 ^ 32) (hfuel : lines.length ≤ fuel) {address : ℕ}
    (hinside : ctx.text.contains address = true)
    (hsome : ∃ line ∈ lines, line.kept ctx.text = true ∧ line.address ≤ address) :
    ∃ line k, LineOf lines ctx.text address line ∧
      symbolLookupByAddress fuel ⟨ctx.text.first, ctx.text.last⟩ out.toSymbolTables address =
        .done (.ok ⟨k, line.name.map Char.toNat ++ [0], address - line.address⟩) := by
  obtain ⟨hperm, hsorted, -⟩ := Context.make_kept h.make
  obtain ⟨some, hsome, hsomeKept, hsomeBelow⟩ := hsome
  obtain ⟨first, hfirst, hfirstEntry⟩ := Context.symbol_of_line h.make hsome hsomeKept
  have hfirstAddress : first.address = some.address := congrArg (fun entry => entry.2.2) hfirstEntry
  have hne : ctx.symbols ≠ [] := List.ne_nil_of_mem hfirst
  have hbelow : firstAddress ctx.symbols ≤ address :=
    (firstAddress_le hsorted hfirst).trans (hfirstAddress ▸ hsomeBelow)
  have hlength : ctx.symbols.length ≤ fuel := by
    have hle := hperm.length_eq
    rw [List.length_map, List.length_map] at hle
    exact (hle.le.trans (List.length_filter_le _ _)).trans hfuel
  have htables : emitSymbolTables genFuel (TextSection.mk ctx.text.first ctx.text.last).textBegin
      ctx.symbols = .done out.toSymbolTables := h.tables
  obtain ⟨k, hk, hrun, hlow, hhigh⟩ :=
    (emitSymbolTables_describes htables).lookup hne hbelow hinside hlength
  -- the text is so small that the address is not cut
  have hstart : ctx.text.first ≤ firstAddress ctx.symbols := by
    obtain ⟨head, rest, hcons⟩ := List.exists_cons_of_ne_nil hne
    rw [firstAddress, hcons]
    exact (Context.contains_symbol h.make (by rw [hcons]; exact List.mem_cons_self)).1
  have hend : address ≤ ctx.text.last := (of_decide_eq_true hinside).2
  have hrel : relativeTo ctx.symbols address = address - firstAddress ctx.symbols :=
    Nat.mod_eq_of_lt (by omega)
  obtain ⟨line, hline, hkept, hentry⟩ := Context.line_of_symbol h.make (List.getElem_mem hk)
  have haddress : line.address = ctx.symbols[k].address := congrArg (fun entry => entry.2.2) hentry
  have hname : line.name = ctx.symbols[k].name := congrArg Prod.fst hentry
  have hfirstLe := firstAddress_le hsorted (List.getElem_mem hk)
  rw [hrel] at hlow hrun
  refine ⟨line, k, ⟨hline, hkept, by omega, ?_⟩, ?_⟩
  · intro other hother hotherKept hotherBelow
    obtain ⟨symbol, hsymbol, hsymbolEntry⟩ := Context.symbol_of_line h.make hother hotherKept
    have hsymbolAddress : symbol.address = other.address :=
      congrArg (fun entry => entry.2.2) hsymbolEntry
    rw [← hsymbolAddress, haddress]
    exact (before_reported hsorted hk hhigh hsymbol (by rw [hrel]; omega)).1
  · obtain ⟨cursor, hcursor, hread⟩ := h.names.name k (line.name.map Char.toNat)
      (by rw [List.getElem?_map, List.getElem?_eq_getElem hk, hname]; rfl)
    rw [hrun, hcursor, done_bind, hread, done_bind, pure_eq, haddress]
    have hoffset : (address - firstAddress ctx.symbols + 2 ^ 32 -
        (ctx.symbols[k].address - firstAddress ctx.symbols)) % 2 ^ 32 =
        address - ctx.symbols[k].address := by omega
    rw [hoffset]

/-- **From the listing to the lookup.**  Unless a name is too long, the script ends with tables in which
the kernel finds the symbols of the listing: for an address of the text at or above a symbol, the name
of one that starts at the greatest address, and the distance from it; for an address outside of the
text there is no answer, and none at all if no symbol was kept. -/
theorem listing_lookup (hgenFuel : 257 ≤ genFuel) (hnames : ∀ line ∈ lines, PlainName line.name)
    (hmake : Context.make lines = .done ctx) (hsize : ctx.text.last < ctx.text.first + 2 ^ 32)
    (hcount : 128 * ctx.symbols.length < 2 ^ 32) (hfuel : lines.length ≤ fuel) :
    ∃ out, generate genFuel lines = .done out ∧ ∀ address,
      let found := symbolLookupByAddress fuel ⟨ctx.text.first, ctx.text.last⟩ out.toSymbolTables address
      (ctx.text.contains address = false → found = .done (.error einval)) ∧
      (ctx.text.contains address = true → (∀ line ∈ lines, line.kept ctx.text = false) →
        found = .done (.error enosys)) ∧
      (ctx.text.contains address = true →
        (∃ line ∈ lines, line.kept ctx.text = true ∧ line.address ≤ address) →
        ∃ line k, LineOf lines ctx.text address line ∧
          found = .done (.ok ⟨k, line.name.map Char.toNat ++ [0], address - line.address⟩)) := by
  obtain ⟨out, hout, hgenerated⟩ := generate_succeeds hgenFuel hnames hmake hsize hcount
  refine ⟨out, hout, fun address => ⟨fun houtside => ?_, fun hinside hnone => ?_, fun hinside hsome =>
    hgenerated.lookup hsize hfuel hinside hsome⟩⟩
  · have htext : addressIsKernelCode ⟨ctx.text.first, ctx.text.last⟩ address = false := houtside
    rw [symbolLookupByAddress, if_pos (by rw [htext]; exact Bool.false_ne_true)]
  · have htext : addressIsKernelCode ⟨ctx.text.first, ctx.text.last⟩ address = true := hinside
    have hempty : ctx.symbols = [] := by
      rw [List.eq_nil_iff_forall_not_mem]
      intro symbol hsymbol
      obtain ⟨line, hline, hkept, -⟩ := Context.line_of_symbol hmake hsymbol
      rw [hnone line hline] at hkept
      cases hkept
    have hzero : out.symbolCount = 0 := by
      rw [hgenerated.names.symbolCount, hempty]
      rfl
    rw [symbolLookupByAddress, if_neg (not_not.mpr htext), if_pos hzero]

/-! ### Names in their order -/

/-- The index that three bytes of the array give. -/
def nameIndexAt (indices : List ℕ) (j : ℕ) : ℕ :=
  indices.getD (3 * j) 0 * 2 ^ 16 + indices.getD (3 * j + 1) 0 * 2 ^ 8 + indices.getD (3 * j + 2) 0

theorem getD_indexBytes (order : List ℕ) {j r : ℕ} (hj : j < order.length) (hr : r < 3) :
    (order.flatMap indexBytes).getD (3 * j + r) 0 = (indexBytes order[j]).getD r 0 := by
  induction order generalizing j with
  | nil => cases hj
  | cons index order ih =>
    rw [List.flatMap_cons]
    cases j with
    | zero =>
      rw [Nat.mul_zero, Nat.zero_add, List.getD_append _ _ _ _ hr]
      rfl
    | succ j =>
      rw [List.getD_append_right _ _ _ _ (show 3 ≤ 3 * (j + 1) + r by omega),
        show 3 * (j + 1) + r - (indexBytes index).length = 3 * j + r by
          show 3 * (j + 1) + r - 3 = _; omega,
        ih (by simpa using hj)]
      rfl

/-- **An index is read back** from its bytes. -/
theorem nameIndexAt_indexBytes (order : List ℕ) {j : ℕ} (hj : j < order.length)
    (hlt : order[j] < 2 ^ 24) : nameIndexAt (order.flatMap indexBytes) j = order[j] := by
  have hzero := getD_indexBytes order hj (show 0 < 3 by decide)
  have hone := getD_indexBytes order hj (show 1 < 3 by decide)
  have htwo := getD_indexBytes order hj (show 2 < 3 by decide)
  rw [Nat.add_zero] at hzero
  rw [nameIndexAt, hzero, hone, htwo]
  show (order[j] >>> 16 &&& 0xFF) * 2 ^ 16 + (order[j] >>> 8 &&& 0xFF) * 2 ^ 8 +
    (order[j] >>> 0 &&& 0xFF) = order[j]
  rw [and_byte, and_byte, and_byte, Nat.shiftRight_eq_div_pow, Nat.shiftRight_eq_div_pow,
    Nat.shiftRight_zero]
  omega

theorem indexed_map_index (symbols : List Symbol) :
    (indexed symbols).map Symbol.index = List.range symbols.length := by
  rw [indexed, List.map_map]
  show symbols.zipIdx.map Prod.snd = _
  rw [List.zipIdx_map_snd, List.range_eq_range']

/-- A symbol with its place. -/
theorem mem_indexed {symbols : List Symbol} {symbol : Symbol} (h : symbol ∈ indexed symbols) :
    ∃ hi : symbol.index < symbols.length, symbols[symbol.index].name = symbol.name := by
  obtain ⟨⟨first, i⟩, hmem, rfl⟩ := List.mem_map.mp h
  obtain ⟨hi, heq⟩ := List.mem_zipIdx' hmem
  exact ⟨hi, by rw [heq]⟩

/-- **The indices of the names** are the places of the symbols, in the order of the names. -/
theorem Generated.nameIndices (h : Generated genFuel lines ctx out)
    (hcount : ctx.symbols.length ≤ 2 ^ 24) :
    let place := nameIndexAt out.nameIndexToAddressIndex
    out.nameIndexToAddressIndex.length = 3 * ctx.symbols.length ∧
      ((List.range ctx.symbols.length).map place).Perm (List.range ctx.symbols.length) ∧
      ∀ i j, i < j → j < ctx.symbols.length → ∃ s t, ctx.symbols[place i]? = some s ∧
        ctx.symbols[place j]? = some t ∧ s.name ≤ t.name := by
  let byName := sortedBy Symbol.sortByNameComparator (indexed ctx.symbols)
  let order := byName.map Symbol.index
  have hperm : order.Perm (List.range ctx.symbols.length) := by
    rw [← indexed_map_index]
    exact (sortedBy_perm _ _).map _
  have hlength : order.length = ctx.symbols.length := by
    rw [hperm.length_eq, List.length_range]
  have hbytes : out.nameIndexToAddressIndex = order.flatMap indexBytes := by
    rw [h.byName, List.flatMap_map]
  have hplace : ∀ j (hj : j < order.length),
      nameIndexAt out.nameIndexToAddressIndex j = order[j] := by
    intro j hj
    have hmem := List.mem_range.mp (hperm.mem_iff.mp (List.getElem_mem hj))
    rw [hbytes]
    exact nameIndexAt_indexBytes order hj (by omega)
  have hsymbol : ∀ j (hj : j < byName.length), ∃ s,
      ctx.symbols[nameIndexAt out.nameIndexToAddressIndex j]? = some s ∧ s.name = byName[j].name := by
    intro j hj
    obtain ⟨hlt, hname⟩ := mem_indexed ((sortedBy_perm _ _).mem_iff.mp (List.getElem_mem hj))
    rw [hplace j (by rwa [List.length_map]), List.getElem_map, List.getElem?_eq_getElem hlt]
    exact ⟨_, rfl, hname⟩
  refine ⟨?_, ?_, fun i j hij hj => ?_⟩
  · rw [hbytes, List.length_flatMap, ← hlength]
    simp [indexBytes, Nat.mul_comm]
  · have hmap : (List.range ctx.symbols.length).map (nameIndexAt out.nameIndexToAddressIndex) =
        order := by
      refine List.ext_getElem (by simp [hlength]) fun j hj hj' => ?_
      rw [List.getElem_map, List.getElem_range, hplace j hj']
    rw [hmap]
    exact hperm
  · have hj' : j < byName.length := by
      rw [List.length_map] at hlength
      omega
    obtain ⟨s, hs, hsName⟩ := hsymbol i (by omega)
    obtain ⟨t, ht, htName⟩ := hsymbol j hj'
    refine ⟨s, t, hs, ht, ?_⟩
    have hordered := List.pairwise_iff_getElem.mp (keyed_name.pairwise (indexed ctx.symbols)) i j
      (hij.trans hj') hj' hij
    rw [keyed_name, Prod.Lex.toLex_le_toLex] at hordered
    rw [hsName, htName]
    rcases hordered with hlt | ⟨heq, -⟩
    · exact hlt.le
    · exact heq.le

/-- **From the listing to the names.**  The array of the names has three bytes for each symbol of the
tables.  Read three by three it has the place of each symbol once, and the names that the kernel reads
at these places are in lexicographic order. -/
theorem listing_names (hgenFuel : 257 ≤ genFuel) (hnames : ∀ line ∈ lines, PlainName line.name)
    (hmake : Context.make lines = .done ctx) (hsize : ctx.text.last < ctx.text.first + 2 ^ 32)
    (hcount : ctx.symbols.length ≤ 2 ^ 24) :
    ∃ out, generate genFuel lines = .done out ∧
      let place := nameIndexAt out.nameIndexToAddressIndex
      out.nameIndexToAddressIndex.length = 3 * out.symbolCount ∧
      ((List.range out.symbolCount).map place).Perm (List.range out.symbolCount) ∧
      ∃ names : ℕ → List Char,
        (∀ i < out.symbolCount, ∃ cursor,
          getCompressedSymbolNameCursor out.toNameTables i = .done cursor ∧
          uncompressSymbol out.toNameTables cursor = .done ((names i).map Char.toNat ++ [0])) ∧
        ∀ i j, i < j → j < out.symbolCount → names (place i) ≤ names (place j) := by
  obtain ⟨out, hout, hgenerated⟩ := generate_succeeds hgenFuel hnames hmake hsize (by omega)
  obtain ⟨hlength, hperm, hsorted⟩ := hgenerated.nameIndices hcount
  have hsymbols : out.symbolCount = ctx.symbols.length := by
    rw [hgenerated.names.symbolCount, List.length_map]
  rw [← hsymbols] at hlength hperm hsorted
  refine ⟨out, hout, hlength, hperm, fun i => (ctx.symbols[i]?.map Symbol.name).getD [],
    fun i hi => ?_, fun i j hij hj => ?_⟩
  · have hget : ctx.symbols[i]? = some ctx.symbols[i] := List.getElem?_eq_getElem _
    dsimp only
    rw [hget]
    exact hgenerated.names.name i _ (by rw [List.getElem?_map, hget]; rfl)
  · obtain ⟨s, t, hs, ht, hle⟩ := hsorted i j hij hj
    dsimp only
    rw [hs, ht]
    exact hle

end Listing

/-- A text with two functions, and symbols that are not kept. -/
def twoFunctions : List NmLine := [
  ⟨0x1000, ['T'], Context.textBeginSymbol⟩, ⟨0x1000, ['T'], ['s', 't', 'a', 'r', 't']⟩,
  ⟨0x1010, ['t'], ['r', 'u', 'n']⟩, ⟨0x1800, ['t'], ['$', 't', '.', '0']⟩,
  ⟨0x2000, ['T'], Context.textEndSymbol⟩, ⟨0x3000, ['D'], ['d', 'a', 't', 'a']⟩]

/-- The two functions. -/
def twoFunctionsContext : Context where
  text := ⟨0x1000, 0x2000⟩
  symbols := [⟨['s', 't', 'a', 'r', 't'], ['T'], 1, 0x1000⟩, ⟨['r', 'u', 'n'], ['t'], 2, 0x1010⟩]

/-- An address behind the second function is found in it. -/
theorem listing_lookup_twoFunctions :
    ∃ out, generate 257 twoFunctions = .done out ∧
      ∃ line k, LineOf twoFunctions ⟨0x1000, 0x2000⟩ 0x1014 line ∧
        symbolLookupByAddress 6 ⟨0x1000, 0x2000⟩ out.toSymbolTables 0x1014 =
          .done (.ok ⟨k, line.name.map Char.toNat ++ [0], 0x1014 - line.address⟩) := by
  obtain ⟨out, hout, hfound⟩ := @listing_lookup twoFunctionsContext twoFunctions 6 257
    (Nat.le_refl 257) (by decide) (by rfl) (by decide) (by decide) (by decide)
  exact ⟨out, hout, (hfound 0x1014).2.2 (by decide)
    ⟨⟨0x1010, ['t'], ['r', 'u', 'n']⟩, by decide, by decide, by decide⟩⟩

/-- Their names in their order: the second function comes first. -/
theorem listing_names_twoFunctions :
    ∃ out, generate 257 twoFunctions = .done out ∧ out.nameIndexToAddressIndex.length = 6 ∧
      nameIndexAt out.nameIndexToAddressIndex 0 = 1 ∧ nameIndexAt out.nameIndexToAddressIndex 1 = 0 := by
  obtain ⟨out, hout, hlength, hperm, names, hreads, hordered⟩ := @listing_names twoFunctionsContext
    twoFunctions 257 (Nat.le_refl 257) (by decide) (by rfl) (by decide) (by decide)
  obtain ⟨out', hout', hgenerated⟩ := @generate_succeeds twoFunctionsContext twoFunctions 257
    (Nat.le_refl 257) (by decide) (by rfl) (by decide) (by decide)
  obtain rfl : out = out' := Outcome.done.inj (hout.symm.trans hout')
  have hcount : out.symbolCount = 2 := hgenerated.names.symbolCount
  rw [hcount] at hlength hperm hreads hordered
  -- what is read at a place is its name
  have hname : ∀ i name, i < 2 → (twoFunctionsContext.symbols.map fun symbol =>
      symbol.name.map Char.toNat)[i]? = some (name.map Char.toNat) → names i = name := by
    intro i name hi hget
    obtain ⟨cursor, hcursor, hread⟩ := hreads i hi
    obtain ⟨cursor', hcursor', hread'⟩ := hgenerated.names.name i _ hget
    obtain rfl := Outcome.done.inj (hcursor.symm.trans hcursor')
    have heq := List.append_cancel_right (Outcome.done.inj (hread.symm.trans hread'))
    exact List.map_injective_iff.mpr (fun a b => Char.toNat_inj.mp) heq
  have hstart : names 0 = ['s', 't', 'a', 'r', 't'] := hname 0 _ (by decide) rfl
  have hrun : names 1 = ['r', 'u', 'n'] := hname 1 _ (by decide) rfl
  have hle := hordered 0 1 (by decide) (by decide)
  have hplaces : ∀ j < 2, nameIndexAt out.nameIndexToAddressIndex j = 0 ∨
      nameIndexAt out.nameIndexToAddressIndex j = 1 := by
    intro j hj
    have hmem := List.mem_range.mp (hperm.subset (List.mem_map_of_mem (List.mem_range.mpr hj)))
    omega
  have hne : nameIndexAt out.nameIndexToAddressIndex 0 ≠ nameIndexAt out.nameIndexToAddressIndex 1 := by
    have hnodup := hperm.nodup_iff.mpr List.nodup_range
    exact fun heq => (List.pairwise_pair.mp hnodup) heq
  refine ⟨out, hout, hlength, ?_⟩
  rcases hplaces 0 (by decide) with h0 | h0
  · rcases hplaces 1 (by decide) with h1 | h1
    · exact absurd (h0.trans h1.symm) hne
    · rw [h0, h1, hstart, hrun] at hle
      exact absurd hle (by decide)
  · rcases hplaces 1 (by decide) with h1 | h1
    · exact ⟨h0, h1⟩
    · exact absurd (h0.trans h1.symm) hne

end UltraKernel.Symbols
