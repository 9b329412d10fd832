import UltraKernel.Common.Strings
import UltraKernel.Lib.Outcome
import Mathlib.Data.Int.Notation
import Mathlib.Logic.Function.Basic

/-!
# The symbol tables, as `generate_symbol_tables.py` makes them

The generator interns the names of the symbols: tokens that no name uses become compound tokens
for the pairs of tokens that occur most often, and the pairs are replaced by them.  The names are
then emitted as lists of tokens with their lengths, and each token as the text it stands for.  The
addresses are emitted relative to the first one.

A Python list that is only indexed is a function on its indices.  An assertion that fails ends the
run; the depth of the recursion in `unwind_compound` is the fuel.
-/

namespace UltraKernel.Symbols

/-- The assertions of the script. -/
inductive GeneratorBug where
  | nameLength
  | u16
  | u32
  deriving DecidableEq, Repr

/-! ### Interning tokens -/

/-- `multibyte_tokens` -/
abbrev Counts := ℕ → ℤ

/-- `TokenTable`; each symbol is its list of tokens. -/
structure TokenTable where
  symbols : List (List ℕ)
  multibyteTokens : Counts
  bestTokens : ℕ → List ℕ

/-- The index of a pair of tokens in `multibyte_tokens`. -/
def pairIndex (first second : ℕ) : ℕ := (second <<< 8) + first

/-- The loop of `__for_each_token` over the pairs of a symbol. -/
def forEachToken (tokens : List ℕ) (addend : ℤ) (counts : Counts) : Counts :=
  (List.range (tokens.length - 1)).foldl (fun counts i =>
    let index := pairIndex (tokens.getD i 0) (tokens.getD (i + 1) 0)
    Function.update counts index (counts index + addend)) counts

def recordForBest (tokens : List ℕ) (best : ℕ → List ℕ) : ℕ → List ℕ :=
  tokens.foldl (fun best token => Function.update best token [token]) best

def addSymbol (tokens : List ℕ) (counts : Counts) : Counts := forEachToken tokens 1 counts

def removeSymbol (tokens : List ℕ) (counts : Counts) : Counts := forEachToken tokens (-1) counts

/-- The index and the score of the first pair with the highest score. -/
def mostUsedMultibyteToken (counts : Counts) : ℕ × ℤ :=
  (List.range 0x10000).foldl (fun best i => if counts i ≤ best.2 then best else (i, counts i))
    (0, -1)

/-- The loop over one symbol, where `n` is `sym_len - 1 - i`; the counts lose the symbol when it is
first changed. -/
def compressLoop (first second idx : ℕ) : ℕ → ℕ → List ℕ → Bool → Counts →
    List ℕ × Bool × Counts
  | 0, _, tokens, didCompress, counts => (tokens, didCompress, counts)
  | n + 1, i, tokens, didCompress, counts =>
    if tokens.getD i 0 ≠ first ∨ tokens.getD (i + 1) 0 ≠ second then
      compressLoop first second idx n (i + 1) tokens didCompress counts
    else
      let counts := if didCompress then counts else removeSymbol tokens counts
      compressLoop first second idx n i (tokens.take i ++ idx :: tokens.drop (i + 2)) true counts

def compressSymbol (first second idx : ℕ) (tokens : List ℕ) (counts : Counts) :
    List ℕ × Counts :=
  let (tokens, didCompress, counts) :=
    compressLoop first second idx (tokens.length - 1) 0 tokens false counts
  if didCompress then (tokens, addSymbol tokens counts) else (tokens, counts)

def compressSymbols (first second idx : ℕ) : List (List ℕ) → Counts → List (List ℕ) × Counts
  | [], counts => ([], counts)
  | tokens :: symbols, counts =>
    let (tokens, counts) := compressSymbol first second idx tokens counts
    let (symbols, counts) := compressSymbols first second idx symbols counts
    (tokens :: symbols, counts)

def TokenTable.compressWithCompoundToken (table : TokenTable) (idx : ℕ) : TokenTable :=
  let tgtToken := table.bestTokens idx
  let (symbols, counts) := compressSymbols (tgtToken.getD 0 0) (tgtToken.getD 1 0) idx
    table.symbols table.multibyteTokens
  { table with symbols := symbols, multibyteTokens := counts }

/-- The loop of `__optimize` over the tokens below `i`, from the last one down. -/
def optimizeLoop : ℕ → TokenTable → TokenTable
  | 0, table => table
  | i + 1, table =>
    if table.bestTokens i ≠ [] then optimizeLoop i table
    else
      let mostUsed := mostUsedMultibyteToken table.multibyteTokens
      -- nothing to optimize, no tokens are used
      if mostUsed.2 = 0 then table
      else
        let compound := [(mostUsed.1 >>> 0) &&& 0xFF, (mostUsed.1 >>> 8) &&& 0xFF]
        optimizeLoop i (TokenTable.compressWithCompoundToken
          { table with bestTokens := Function.update table.bestTokens i compound } i)

def TokenTable.optimize (table : TokenTable) : TokenTable := optimizeLoop 0x100 table

/-- The table before `__optimize`. -/
def TokenTable.start (names : List (List ℕ)) : TokenTable where
  symbols := names
  multibyteTokens := names.foldl (fun counts tokens => addSymbol tokens counts) fun _ => 0
  bestTokens := names.foldl (fun best tokens => recordForBest tokens best) fun _ => []

/-- `TokenTable(symbols)`, of the character codes of the names. -/
def TokenTable.make (names : List (List ℕ)) : TokenTable := (TokenTable.start names).optimize

/-- The texts of several tokens, one after the other. -/
def concatTexts (text : ℕ → Outcome GeneratorBug (List ℕ)) :
    List ℕ → Outcome GeneratorBug (List ℕ)
  | [] => .done []
  | token :: tokens => do
    let out ← text token
    let rest ← concatTexts text tokens
    return out ++ rest

def unwindCompound (best : ℕ → List ℕ) : ℕ → List ℕ → Outcome GeneratorBug (List ℕ)
  | 0, _ => .outOfFuel
  | fuel + 1, tokens =>
    concatTexts (fun token =>
      if (best token).length = 1 then .done [token] else unwindCompound best fuel (best token))
      tokens

/-! ### Emitting the tables -/

/-- `LEB128_HAS_NEXT_BYTE` -/
def leb128HasNextByte : ℕ := 1 <<< 7

/-- `LEB128_BITS_PER_BYTE` -/
def leb128BitsPerByte : ℕ := 7

def leb128Max (byteWidth : ℕ) : ℕ := (1 <<< (byteWidth * leb128BitsPerByte)) - 1

def toUleb128 (number byteIdx : ℕ) : ℕ :=
  (number >>> (byteIdx * leb128BitsPerByte)) &&& leb128Max 1

/-- An array while it is emitted, with `byte_offset` and `offset_markers`. -/
structure Emission where
  byteOffset : ℕ
  offsetMarkers : List ℕ
  data : List ℕ

def Emission.empty : Emission := ⟨0, [], []⟩

/-- One round of the loop over the names. -/
def emitName (idx : ℕ) (tokens : List ℕ) (e : Emission) : Outcome GeneratorBug Emission :=
  let markers := if idx &&& 0xFF = 0 then e.offsetMarkers ++ [e.byteOffset] else e.offsetMarkers
  let nameLen := tokens.length
  if ¬ (tokens ≠ [] ∧ nameLen ≤ leb128Max 2) then .halt .nameLength
  else if nameLen ≤ leb128Max 1 then
    .done ⟨e.byteOffset + (nameLen + 1), markers, e.data ++ nameLen :: tokens⟩
  else
    .done ⟨e.byteOffset + (nameLen + 2), markers, e.data ++
      (leb128HasNextByte ||| toUleb128 nameLen 0) :: toUleb128 nameLen 1 :: tokens⟩

/-- The loop over the names, from index `idx` on. -/
def emitNames : ℕ → List (List ℕ) → Emission → Outcome GeneratorBug Emission
  | _, [], e => .done e
  | idx, tokens :: symbols, e => emitName idx tokens e >>= emitNames (idx + 1) symbols

/-- One round of the loop over the tokens: the text and a NUL. -/
def emitToken (best : ℕ → List ℕ) (fuel token : ℕ) (e : Emission) :
    Outcome GeneratorBug Emission := do
  let unwound ← unwindCompound best fuel (best token)
  return ⟨e.byteOffset + (unwound.length + 1), e.offsetMarkers ++ [e.byteOffset],
    e.data ++ (unwound ++ [0])⟩

/-- The loop over the given tokens. -/
def emitTokens (best : ℕ → List ℕ) (fuel : ℕ) : List ℕ → Emission → Outcome GeneratorBug Emission
  | [], e => .done e
  | token :: tokens, e => emitToken best fuel token e >>= emitTokens best fuel tokens

/-- The assertion of `Value.u16` and `Value.u32`, on each value. -/
def checkValues (values : List ℕ) (bound : ℕ) (bug : GeneratorBug) : Outcome GeneratorBug Unit :=
  if ∀ value ∈ values, value ≤ bound then .done () else .halt bug

/-- The emitted arrays that hold the names. -/
structure NameTables where
  symbolCount : ℕ
  compressedNames : List ℕ
  nameOffsets : List ℕ
  tokenTable : List ℕ
  tokenOffsets : List ℕ

/-- The part of `main` that emits the names of the symbols. -/
def emitNameTables (fuel : ℕ) (names : List (List ℕ)) : Outcome GeneratorBug NameTables := do
  let table := TokenTable.make names
  checkValues [names.length] 0xFFFFFFFF .u32
  let compressed ← emitNames 0 table.symbols .empty
  checkValues compressed.offsetMarkers 0xFFFFFFFF .u32
  let tokens ← emitTokens table.bestTokens fuel (List.range 0x100) .empty
  checkValues tokens.offsetMarkers 0xFFFF .u16
  return ⟨names.length, compressed.data, compressed.offsetMarkers, tokens.data,
    tokens.offsetMarkers⟩

/-! ### The order of the symbols -/

/-- `Symbol`; `index` is the position in the output of `nm`. -/
structure Symbol where
  name : List Char
  type : List Char
  index : ℕ
  address : ℕ
  deriving DecidableEq, Repr

def Symbol.isWeak (symbol : Symbol) : Bool := symbol.type = ['W']

/-- `UltraContext.LINKER_SYMBOL_PREFIX` -/
def linkerSymbolPrefix : List Char :=
  ['g', '_', 'l', 'i', 'n', 'k', 'e', 'r', '_', 's', 'y', 'm', 'b', 'o', 'l', '_']

def Symbol.isLinker (symbol : Symbol) : Bool := strStartsWith symbol.name linkerSymbolPrefix

/-- The leading underscores of a name. -/
def Symbol.underscores (symbol : Symbol) : ℕ :=
  symbol.name.length - (symbol.name.dropWhile (· = '_')).length

/-- The difference of two flags, as Python subtracts them. -/
def boolSub (lhs rhs : Bool) : ℤ := (if lhs then 1 else 0) - (if rhs then 1 else 0)

def Symbol.sortByAddressComparator (lhs rhs : Symbol) : ℤ :=
  if lhs.address ≠ rhs.address then if lhs.address < rhs.address then -1 else 1
  -- weak symbols come after the others, and so do linker symbols
  else if lhs.isWeak ≠ rhs.isWeak then boolSub lhs.isWeak rhs.isWeak
  else if lhs.isLinker ≠ rhs.isLinker then boolSub lhs.isLinker rhs.isLinker
  else if lhs.underscores ≠ rhs.underscores then (lhs.underscores : ℤ) - rhs.underscores
  else (lhs.index : ℤ) - rhs.index

/-- The emitted arrays: the names, the addresses, and the offset of the first symbol in the text. -/
structure SymbolTables extends NameTables where
  relativeAddresses : List ℕ
  firstSymbolOffset : ℤ

/-- The part of `main` that emits the tables in the order of the addresses. -/
def emitSymbolTables (fuel startOfText : ℕ) (symbols : List Symbol) :
    Outcome GeneratorBug SymbolTables := do
  let names ← emitNameTables fuel (symbols.map fun symbol => symbol.name.map Char.toNat)
  let firstSymbolAddress := (symbols.head?.map Symbol.address).getD 0
  let relativeAddresses := symbols.map fun symbol => symbol.address - firstSymbolAddress
  checkValues relativeAddresses 0xFFFFFFFF .u32
  return { names with
    relativeAddresses := relativeAddresses
    firstSymbolOffset := firstSymbolAddress - startOfText }

end UltraKernel.Symbols
