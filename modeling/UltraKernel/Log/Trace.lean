import UltraKernel.Log.Warning

/-!
# What a stack trace comes to on the consoles

A trace is a header and a line for each call of the callback.  A line has the number of the frame and
what the symbols say about its address.

* `traceLine`: a line;
* `doDumpFrame_prints`, `dumpFrames_prints`: what the frames come to;
* `dumpStack_prints`: what a trace comes to.
-/

namespace UltraKernel.Log

open Word Console Format Symbols Unwind Outcome

variable {ι : Type}

/-! ### The pieces of a line -/

/-- The pieces of the line of an address that the symbols do not know. -/
def unknownPieces (depth address : BitVec 64) : List Piece :=
  [.literal ("    #").toList (by decide), .starred (sizeConversion depth) (sizeConversion_width depth),
    .literal (" in unknown/garbage <0x").toList (by decide),
    .starred (addressConversion address) (addressConversion_width address),
    .literal (">\n").toList (by decide)]

/-- The pieces of the line of an address with a symbol. -/
def symbolPieces (depth offset : BitVec 64) (name : List Char) (h : name.length < 2 ^ 63) : List Piece :=
  [.literal ("    #").toList (by decide), .starred (sizeConversion depth) (sizeConversion_width depth),
    .literal (" in ").toList (by decide), .starred (textConversion name h) (textConversion_width h),
    .literal ("+").toList (by decide),
    .starred (sizeConversion offset) (sizeConversion_width offset), .literal ("\n").toList newline_plain]

/-! ### Lines -/

/-- The line of an address with a symbol. -/
def symbolLine (depth : ℕ) (name : List Char) (offset : ℕ) : List Char :=
  ("    #").toList ++ (decimalText depth ++ ((" in ").toList ++ (name ++ (("+").toList ++
    (decimalText offset ++ ("\n").toList)))))

/-- The line of an address that the symbols do not know. -/
def unknownLine (depth address : ℕ) : List Char :=
  ("    #").toList ++ (decimalText depth ++ ((" in unknown/garbage <0x").toList ++
    (addressText address ++ (">\n").toList)))

/-- The line of a frame. -/
def traceLine (depth address : ℕ) (found : Option (List Char × ℕ)) : List Char :=
  match found with
  | some symbol => symbolLine depth symbol.1 symbol.2
  | none => unknownLine depth address

/-- The address that a frame is looked up by. -/
def lookupAddress (call : ℕ × Bool) : ℕ := if call.2 then sub64 call.1 1 else call.1

/-- What the symbols say about an address: a name without its NUL, and an offset. -/
def symbolOf (fuel : ℕ) (text : TextSection) (tables : SymbolTables) (address : ℕ) :
    Option (List Char × ℕ) :=
  match symbolLookupByAddress fuel text tables address with
  | .done (.ok lookup) => some ((lookup.name.map Char.ofNat).takeWhile (· ≠ nul), lookup.offsetWithin)
  | _ => none

/-- The lines of the frames from a depth on. -/
def traceLines (fuel : ℕ) (image : Image ι) : ℕ → List (ℕ × Bool) → List (List Char)
  | _, [] => []
  | depth, call :: calls =>
    traceLine depth call.1 (symbolOf fuel image.text image.tables (lookupAddress call)) ::
      traceLines fuel image (depth + 1) calls

section Frames

variable {image : Image ι} {l : List ι} {fuel : ℕ}

theorem unknownPieces_text (depth address : BitVec 64) :
    formatText (unknownPieces depth address) = ("    #%zu in unknown/garbage <0x%016zX>\n").toList := rfl

theorem unknownPieces_args (depth address : BitVec 64) :
    formatArgs (unknownPieces depth address) = [.longLong depth, .longLong address] := rfl

theorem symbolPieces_text (depth offset : BitVec 64) {name : List Char} (h : name.length < 2 ^ 63) :
    formatText (symbolPieces depth offset name h) = ("    #%zu in %s+%zu\n").toList := rfl

theorem symbolPieces_args (depth offset : BitVec 64) {name : List Char} (h : name.length < 2 ^ 63) :
    formatArgs (symbolPieces depth offset name h) =
      [.longLong depth, .string (some name), .longLong offset] := rfl

theorem unknownPieces_output (depth address : BitVec 64) :
    formatOutput (unknownPieces depth address) = unknownLine depth.toNat address.toNat := by
  unfold unknownLine
  rw [← sizeConversion_output, ← addressConversion_output]
  rfl

theorem symbolPieces_output (depth offset : BitVec 64) {name : List Char} (h : name.length < 2 ^ 63) :
    formatOutput (symbolPieces depth offset name h) =
      symbolLine depth.toNat (name.takeWhile (· ≠ nul)) offset.toNat := by
  unfold symbolLine
  rw [← sizeConversion_output, ← textConversion_output h, ← sizeConversion_output]
  rfl

/-- **There is room** for a line. -/
theorem unknownLine_length_le {depth address : ℕ} (hdepth : depth < 2 ^ 64)
    (haddress : address < 2 ^ 64) : (unknownLine depth address).length ≤ 255 := by
  have hnumber := decimalText_length_le hdepth
  have hdigits := addressText_length_le haddress
  unfold unknownLine
  simp only [List.length_append]
  show 5 + (_ + (23 + (_ + 2))) ≤ 255
  omega

theorem symbolLine_length_le {depth offset : ℕ} {name : List Char} (hdepth : depth < 2 ^ 64)
    (hname : name.length ≤ maxSymbolLength) (hoffset : offset < 2 ^ 64) :
    (symbolLine depth name offset).length ≤ 255 := by
  have hnumber := decimalText_length_le hdepth
  have hdigits := decimalText_length_le hoffset
  have hname : name.length ≤ 128 := hname
  unfold symbolLine
  simp only [List.length_append]
  show 5 + (_ + (4 + (_ + (1 + (_ + 1))))) ≤ 255
  omega

/-- The lookup stays inside the buffer for the name, and a 32-bit offset is left. -/
theorem lookup_bounds {text : TextSection} {tables : SymbolTables} {address : ℕ} {lookup : Lookup}
    (h : symbolLookupByAddress fuel text tables address = .done (.ok lookup)) :
    lookup.name.length ≤ maxSymbolLength ∧ lookup.offsetWithin < 2 ^ 32 := by
  rw [symbolLookupByAddress] at h
  by_cases htext : addressIsKernelCode text address = true
  swap
  · rw [if_pos htext] at h
    cases h
  by_cases hcount : tables.symbolCount = 0
  · rw [if_neg (not_not.mpr htext), if_pos hcount] at h
    cases h
  rw [if_neg (not_not.mpr htext), if_neg hcount] at h
  obtain ⟨symbol, -, h⟩ := bind_eq_done.mp h
  obtain ⟨base, -, h⟩ := bind_eq_done.mp h
  obtain ⟨cursor, -, h⟩ := bind_eq_done.mp h
  obtain ⟨name, hname, h⟩ := bind_eq_done.mp h
  obtain rfl := Except.ok.inj (Outcome.done.inj h)
  obtain ⟨⟨len, start⟩, -, hname⟩ := bind_eq_done.mp hname
  obtain ⟨out, -, hput⟩ := bind_eq_done.mp hname
  rw [putChar] at hput
  split_ifs at hput with hroom
  obtain rfl := Outcome.done.inj hput
  constructor
  · rw [List.length_append]
    exact hroom
  · exact Nat.mod_lt _ (by decide)

/-- **A frame** prints its line. -/
theorem doDumpFrame_prints (hlist : Linked image.consoles.next image.consoles.consoles l)
    (hconsoles : l.length < fuel) (hfuel : 300 ≤ fuel) {state : DumpState} {address : ℕ}
    {addrAfterCall : Bool} (hdepth : state.depth + 1 < 2 ^ 64) (haddress : address < 2 ^ 64)
    {found : Except ErrorT Lookup}
    (hlookup : symbolLookupByAddress fuel image.text image.tables
      (lookupAddress (address, addrAfterCall)) = .done found) (sink : Sink ι) :
    ∃ logBuf, doDumpFrame fuel image state address addrAfterCall sink =
      .done (true, { state with depth := state.depth + 1 }, ⟨logBuf, sink.writes ++ l.map fun con =>
        (con, traceLine state.depth address
          (symbolOf fuel image.text image.tables (lookupAddress (address, addrAfterCall))))⟩) := by
  have hfound : (symbolLookupByAddress fuel image.text image.tables
      (if addrAfterCall then sub64 address 1 else address)) = .done found := hlookup
  have hstate : state.depth < 2 ^ 64 := by omega
  rw [symbolOf, hlookup]
  cases found with
  | error code =>
    have houtput := unknownPieces_output (BitVec.ofNat 64 state.depth) (BitVec.ofNat 64 address)
    rw [BitVec.toNat_ofNat, BitVec.toNat_ofNat, Nat.mod_eq_of_lt haddress,
      Nat.mod_eq_of_lt hstate] at houtput
    obtain ⟨logBuf, hprint⟩ := @print_short _ image.consoles l fuel hlist hconsoles
      (unknownPieces (BitVec.ofNat 64 state.depth) (BitVec.ofNat 64 address))
      ⟨trivial, trivial, trivial, trivial, trivial, trivial⟩ (show some ' ' ≠ some _ by decide)
      (by rw [houtput]; exact unknownLine_length_le hstate haddress) (show 5 + 255 < fuel by omega) sink
    rw [houtput] at hprint
    refine ⟨logBuf, ?_⟩
    rw [doDumpFrame, hfound, mapHalt_done, done_bind]
    dsimp only
    rw [← unknownPieces_text (BitVec.ofNat 64 state.depth) (BitVec.ofNat 64 address),
      ← unknownPieces_args, hprint, done_bind, add64_of_lt hdepth]
    rfl
  | ok lookup =>
    obtain ⟨hname, hoffset⟩ := lookup_bounds hlookup
    have hchars : (lookup.name.map Char.ofNat).length < 2 ^ 63 := by
      rw [List.length_map]
      exact Nat.lt_of_le_of_lt hname (by decide)
    have hprefix : ((lookup.name.map Char.ofNat).takeWhile (· ≠ nul)).length ≤ maxSymbolLength := by
      refine ((List.takeWhile_prefix _).length_le).trans ?_
      rwa [List.length_map]
    have houtput := symbolPieces_output (BitVec.ofNat 64 state.depth)
      (BitVec.ofNat 64 lookup.offsetWithin) hchars
    rw [BitVec.toNat_ofNat, BitVec.toNat_ofNat, Nat.mod_eq_of_lt hstate,
      Nat.mod_eq_of_lt (show lookup.offsetWithin < 2 ^ 64 by omega)] at houtput
    obtain ⟨logBuf, hprint⟩ := @print_short _ image.consoles l fuel hlist hconsoles
      (symbolPieces (BitVec.ofNat 64 state.depth) (BitVec.ofNat 64 lookup.offsetWithin) _ hchars)
      ⟨trivial, trivial, trivial, trivial, trivial, trivial, trivial, trivial⟩
      (show some ' ' ≠ some _ by decide)
      (by rw [houtput]; exact symbolLine_length_le hstate hprefix (by omega))
      (show 7 + 255 < fuel by omega) sink
    rw [houtput] at hprint
    refine ⟨logBuf, ?_⟩
    rw [doDumpFrame, hfound, mapHalt_done, done_bind]
    dsimp only
    rw [← symbolPieces_text (BitVec.ofNat 64 state.depth) (BitVec.ofNat 64 lookup.offsetWithin) hchars,
      ← symbolPieces_args (BitVec.ofNat 64 state.depth) (BitVec.ofNat 64 lookup.offsetWithin) hchars,
      hprint, done_bind, add64_of_lt hdepth]
    rfl

/-- The symbols answer for an address. -/
def Answers (fuel : ℕ) (image : Image ι) (call : ℕ × Bool) : Prop :=
  call.1 < 2 ^ 64 ∧ ∃ found, symbolLookupByAddress fuel image.text image.tables (lookupAddress call) =
    .done found

/-- **The frames** print their lines, in their order. -/
theorem dumpFrames_prints (hlist : Linked image.consoles.next image.consoles.consoles l)
    (hconsoles : l.length < fuel) (hfuel : 300 ≤ fuel) {calls : List (ℕ × Bool)} {state : DumpState}
    (hdepth : state.depth + calls.length < 2 ^ 64) (hanswers : ∀ call ∈ calls, Answers fuel image call)
    (sink : Sink ι) :
    ∃ logBuf, dumpFrames fuel image calls state sink =
      .done ({ state with depth := state.depth + calls.length }, ⟨logBuf, sink.writes ++
        (traceLines fuel image state.depth calls).flatMap fun line => l.map fun con => (con, line)⟩) := by
  induction calls generalizing state sink with
  | nil => exact ⟨sink.logBuf, by rw [dumpFrames, traceLines, List.flatMap_nil, List.append_nil]; rfl⟩
  | cons call calls ih =>
    obtain ⟨address, addrAfterCall⟩ := call
    rw [List.length_cons] at hdepth
    obtain ⟨haddress, found, hlookup⟩ := hanswers _ List.mem_cons_self
    obtain ⟨logBuf, hframe⟩ := doDumpFrame_prints hlist hconsoles hfuel
      (show state.depth + 1 < 2 ^ 64 by omega) haddress hlookup sink
    obtain ⟨logBuf', hframes⟩ := @ih { state with depth := state.depth + 1 }
      (show state.depth + 1 + calls.length < 2 ^ 64 by omega)
      (fun call hcall => hanswers call (List.mem_cons_of_mem _ hcall)) _
    refine ⟨logBuf', ?_⟩
    rw [dumpFrames, hframe, done_bind]
    dsimp only
    rw [if_pos rfl, hframes, traceLines, List.flatMap_cons, List.length_cons, List.append_assoc,
      show state.depth + (calls.length + 1) = state.depth + 1 + calls.length by omega]

/-- The line above a trace. -/
def traceHeader : List Char := ("Call trace (most recent call first):\n").toList

theorem header_prints (hlist : Linked image.consoles.next image.consoles.consoles l)
    (hconsoles : l.length < fuel) (hfuel : 300 ≤ fuel) (sink : Sink ι) :
    ∃ logBuf, print fuel image.consoles traceHeader [] sink =
      .done ⟨logBuf, sink.writes ++ l.map fun con => (con, traceHeader)⟩ := by
  have hprint := @print_short _ image.consoles l fuel hlist hconsoles
    [.literal traceHeader (by decide)] ⟨trivial, trivial⟩ (show some 'C' ≠ some _ by decide)
    (by decide) (show 1 + 255 < fuel by omega) sink
  have htext : formatText [.literal traceHeader (by decide)] = traceHeader := rfl
  have houtput : formatOutput [.literal traceHeader (by decide)] = traceHeader := rfl
  rwa [htext, houtput] at hprint

/-- **A stack trace.**  Every console that is linked is given the header and a line for each call of the
walk, in the order of the calls: the frames are numbered from 0 on, a line names the symbol of the
address and the offset from it, or has the address, and no line is cut off.  The warning of a frame that
was not unwound comes last. -/
theorem dumpStack_prints (hlist : Linked image.consoles.next image.consoles.consoles l)
    (hconsoles : l.length < fuel) (hfuel : 300 ≤ fuel) {currentFrame : ℕ → ℕ} {regs : Option (ℕ → ℕ)}
    {startingPc : ℕ} {ret : Returned} {calls : List (ℕ × Bool)}
    (hwalk : unwindWalk image.machine fuel currentFrame regs startingPc (fun _ => true) =
      .done (ret, calls))
    (hcalls : calls.length < 2 ^ 64) (hanswers : ∀ call ∈ calls, Answers fuel image call)
    (level : LogLevel) (sink : Sink ι) :
    ∃ logBuf, dumpStack fuel image level currentFrame regs startingPc sink =
      .done ⟨logBuf, sink.writes ++
        (traceHeader :: (traceLines fuel image 0 calls ++ warningLines ret)).flatMap
          fun line => l.map fun con => (con, line)⟩ := by
  obtain ⟨logBuf, hheader⟩ := header_prints hlist hconsoles hfuel sink
  obtain ⟨logBuf', hframes⟩ := @dumpFrames_prints _ image l fuel hlist hconsoles hfuel calls ⟨level, 0⟩
    (show 0 + calls.length < 2 ^ 64 by omega) hanswers
    ⟨logBuf, sink.writes ++ l.map fun con => (con, traceHeader)⟩
  obtain ⟨logBuf'', hwarning⟩ := printWarning_prints hlist hconsoles hfuel ret ⟨logBuf', _⟩
  refine ⟨logBuf'', ?_⟩
  rw [dumpStack]
  show (print fuel image.consoles traceHeader [] sink >>= _) = _
  rw [hheader, done_bind, hwalk, mapHalt_done, done_bind]
  dsimp only
  rw [hframes, done_bind]
  dsimp only
  rw [hwarning, List.flatMap_cons, List.flatMap_append, List.append_assoc, List.append_assoc]

end Frames

end UltraKernel.Log
