import UltraKernel.Log.Trace
import UltraKernel.Symbols.Listing
import UltraKernel.Unwind.CallStack

/-!
# The trace of a call stack

Put together: the unwinder goes over the call stack, the tables that were made from the symbols of the
kernel name the addresses, and each console is given a line for each frame.

* `Traced`: the lines that the frames should have;
* `symbolOf_listing`: what the symbols say about an address;
* `dumpStack_trace`: the lines that the consoles are given.
-/

namespace UltraKernel.Log

open Word Console Format Symbols Unwind Outcome

/-- The lines for calls, numbered from a depth on: each has the name of a symbol that the address belongs
to, and the distance from it. -/
inductive Traced (lines : List NmLine) (text : Section) : ℕ → List (ℕ × Bool) → List (List Char) →
    Prop where
  | nil (depth : ℕ) : Traced lines text depth [] []
  | cons {depth call line calls texts} (hline : LineOf lines text (lookupAddress call) line)
    (hrest : Traced lines text (depth + 1) calls texts) :
    Traced lines text depth (call :: calls)
      (symbolLine depth line.name (lookupAddress call - line.address) :: texts)

/-- The address of a call is one of the text, at or above a symbol. -/
structure Known (lines : List NmLine) (text : Section) (call : ℕ × Bool) : Prop where
  word : call.1 < 2 ^ 64
  inside : text.contains (lookupAddress call) = true
  above : ∃ line ∈ lines, line.kept text = true ∧ line.address ≤ lookupAddress call

section Trace

variable {ι : Type} {consoles : ConsoleList ι} {l : List ι} {m : Machine} {fuel genFuel : ℕ}
  {lines : List NmLine} {ctx : Context} {out : Output} {calls : List (ℕ × Bool)}

/-- The kernel with the tables of its listing. -/
def imageOf (consoles : ConsoleList ι) (ctx : Context) (out : Output) (m : Machine) : Image ι where
  consoles := consoles
  text := ⟨ctx.text.first, ctx.text.last⟩
  tables := out.toSymbolTables
  machine := m

/-- A name is printed as it was listed. -/
theorem takeWhile_name {name : List Char} (hname : PlainName name) :
    ((name.map Char.toNat ++ [0]).map Char.ofNat).takeWhile (· ≠ nul) = name := by
  have hchars : (name.map Char.toNat).map Char.ofNat = name := by
    rw [List.map_map]
    exact (List.map_congr_left fun c _ => Char.ofNat_toNat c).trans (List.map_id' name)
  have hkeep : ∀ c ∈ name, decide (c ≠ nul) = true := by
    intro c hc
    rw [decide_eq_true_eq]
    rintro rfl
    exact absurd (hname.2 nul hc).1 (by decide)
  rw [List.map_append, hchars, List.takeWhile_append_of_pos hkeep]
  exact List.append_nil name

/-- **What the symbols say** about an address of the text. -/
theorem symbolOf_listing (h : Generated genFuel lines ctx out)
    (hnames : ∀ line ∈ lines, PlainName line.name)
    (hsize : ctx.text.last < ctx.text.first + 2 ^ 32) (hfuel : lines.length ≤ fuel)
    {call : ℕ × Bool} (hcall : Known lines ctx.text call) :
    Answers fuel (imageOf consoles ctx out m) call ∧
      ∃ line, LineOf lines ctx.text (lookupAddress call) line ∧
        symbolOf fuel (imageOf consoles ctx out m).text (imageOf consoles ctx out m).tables
          (lookupAddress call) = some (line.name, lookupAddress call - line.address) := by
  obtain ⟨line, k, hline, hlookup⟩ := h.lookup hsize hfuel hcall.inside hcall.above
  refine ⟨⟨hcall.word, _, hlookup⟩, line, hline, ?_⟩
  rw [symbolOf, show symbolLookupByAddress fuel (imageOf consoles ctx out m).text
    (imageOf consoles ctx out m).tables (lookupAddress call) = _ from hlookup]
  dsimp only
  rw [takeWhile_name (hnames line hline.mem)]

theorem traceLines_traced (h : Generated genFuel lines ctx out)
    (hnames : ∀ line ∈ lines, PlainName line.name)
    (hsize : ctx.text.last < ctx.text.first + 2 ^ 32) (hfuel : lines.length ≤ fuel)
    (hcalls : ∀ call ∈ calls, Known lines ctx.text call) (depth : ℕ) :
    Traced lines ctx.text depth calls (traceLines fuel (imageOf consoles ctx out m) depth calls) := by
  induction calls generalizing depth with
  | nil => exact .nil depth
  | cons call calls ih =>
    obtain ⟨-, line, hline, hsymbol⟩ := @symbolOf_listing _ consoles m _ _ _ _ _ h hnames hsize hfuel
      _ (hcalls call List.mem_cons_self)
    rw [traceLines, hsymbol]
    exact .cons hline (ih (fun call hcall => hcalls call (List.mem_cons_of_mem _ hcall)) (depth + 1))

/-- What a walk comes to on the consoles. -/
theorem dumpStack_walk (h : Generated genFuel lines ctx out)
    (hnames : ∀ line ∈ lines, PlainName line.name)
    (hsize : ctx.text.last < ctx.text.first + 2 ^ 32) (hfuel : lines.length ≤ fuel)
    (hlist : Linked consoles.next consoles.consoles l) (hconsoles : l.length < fuel)
    (hroom : 300 ≤ fuel) {currentFrame : ℕ → ℕ} {regs : Option (ℕ → ℕ)} {startingPc : ℕ}
    (hwalk : unwindWalk m fuel currentFrame regs startingPc (fun _ => true) = .done (eok, calls))
    (hcount : calls.length < 2 ^ 64) (hcalls : ∀ call ∈ calls, Known lines ctx.text call)
    (level : LogLevel) (sink : Sink ι) :
    ∃ logBuf texts, Traced lines ctx.text 0 calls texts ∧
      dumpStack fuel (imageOf consoles ctx out m) level currentFrame regs startingPc sink =
        .done ⟨logBuf, sink.writes ++ (traceHeader :: texts).flatMap
          fun text => l.map fun con => (con, text)⟩ := by
  have hanswers : ∀ call ∈ calls, Answers fuel (imageOf consoles ctx out m) call :=
    fun call hcall => (symbolOf_listing h hnames hsize hfuel (hcalls call hcall)).1
  obtain ⟨logBuf, hdump⟩ := @dumpStack_prints _ (imageOf consoles ctx out m) l fuel hlist hconsoles
    hroom _ _ _ _ _ hwalk hcount hanswers level sink
  rw [warningLines_none, List.append_nil] at hdump
  exact ⟨logBuf, _, traceLines_traced h hnames hsize hfuel hcalls 0, hdump⟩

/-- **The trace of a call stack.**  With the tables that were made from its symbols, the kernel gives each
console the header and a line for each frame of the call stack, from the innermost on: from given
registers for all of them, and from the current frame for those from the first with the given PC on.
The lines are numbered from 0 on and not cut off, and each has the name of a symbol that the address
belongs to (of the call, where the address is behind one) and the distance from it. -/
theorem dumpStack_trace (hgenFuel : 257 ≤ genFuel) (hnames : ∀ line ∈ lines, PlainName line.name)
    (hmake : Context.make lines = .done ctx) (hsize : ctx.text.last < ctx.text.first + 2 ^ 32)
    (hcount : 128 * ctx.symbols.length < 2 ^ 32) (hfuel : lines.length + 300 ≤ fuel)
    (hword : fuel < 2 ^ 64) (hlist : Linked consoles.next consoles.consoles l)
    (hconsoles : l.length < fuel) (havailable : m.unwinderAvailable = true) (level : LogLevel)
    (currentFrame : ℕ → ℕ) (sink : Sink ι) :
    ∃ out, generate genFuel lines = .done out ∧
      let prints := fun regs startingPc calls => ∃ logBuf texts, Traced lines ctx.text 0 calls texts ∧
        dumpStack fuel (imageOf consoles ctx out m) level currentFrame regs startingPc sink =
          .done ⟨logBuf, sink.writes ++ (traceHeader :: texts).flatMap
            fun text => l.map fun con => (con, text)⟩
      (∀ frame callers startingPc, CallStack m fuel (initialState m frame true) callers →
        callers.length + 1 < fuel →
        let calls := (frame m.arch.pcReg, false) :: callsFor m callers
        (∀ call ∈ calls, Known lines ctx.text call) → prints (some frame) startingPc calls) ∧
      ∀ before target callers,
        CallStack m fuel (initialState m currentFrame false) (before ++ target :: callers) →
        before.length + callers.length + 1 < fuel →
        (∀ caller ∈ before, caller m.arch.pcReg ≠ target m.arch.pcReg) →
        let calls := callsFor m (target :: callers)
        (∀ call ∈ calls, Known lines ctx.text call) → prints none (target m.arch.pcReg) calls := by
  obtain ⟨out, hout, hgenerated⟩ := generate_succeeds hgenFuel hnames hmake hsize hcount
  refine ⟨out, hout, ?_, ?_⟩
  · intro frame callers startingPc hstack hdepth calls hcalls
    have hwalk := unwindWalk_registers havailable hstack (by omega) currentFrame startingPc
      fun _ => true
    rw [answered_all, List.nil_append] at hwalk
    have hshort : calls.length < 2 ^ 64 := by
      show (callsFor m callers).length + 1 < 2 ^ 64
      rw [callsFor, List.length_map]
      omega
    exact dumpStack_walk hgenerated hnames hsize (by omega) hlist hconsoles (by omega) hwalk
      hshort hcalls level sink
  · intro before target callers hstack hdepth hbefore calls hcalls
    have hwalk := unwindWalk_current havailable hstack (by omega) hbefore fun _ => true
    rw [answered_all, List.nil_append] at hwalk
    have hshort : calls.length < 2 ^ 64 := by
      show (callsFor m callers).length + 1 < 2 ^ 64
      rw [callsFor, List.length_map]
      omega
    exact dumpStack_walk hgenerated hnames hsize (by omega) hlist hconsoles (by omega) hwalk
      hshort hcalls level sink

end Trace

/-! ### A trace of two frames -/

/-- The text that `twoCalls` unwinds. -/
def twoCallsLines : List NmLine := [
  ⟨0x2000, ['T'], Context.textBeginSymbol⟩, ⟨0x2000, ['T'], ['r', 'u', 'n']⟩,
  ⟨0x2010, ['T'], Context.textEndSymbol⟩]

theorem twoCalls_stack : CallStack twoCalls 310
    (initialState twoCalls (stoppedAt 0x2003 0x102F) true) [stoppedAt 0x2005 0x1037] :=
  .call (passes_of_run rfl (by decide +kernel)) (by decide)
    (.outermost (@passes_of_run _ _ _ (stoppedAt 0 0x103F) (by decide +kernel)
      (by decide +kernel)) rfl)

theorem twoCalls_known : ∀ call ∈ [(0x2003, false), (0x2005, true)],
    Known twoCallsLines ⟨0x2000, 0x2010⟩ call := by
  intro call hcall
  rcases List.mem_pair.mp hcall with rfl | rfl
  · exact ⟨by decide, by decide, ⟨0x2000, ['T'], ['r', 'u', 'n']⟩, by decide, by decide, by decide⟩
  · exact ⟨by decide, by decide, ⟨0x2000, ['T'], ['r', 'u', 'n']⟩, by decide, by decide, by decide⟩

/-- To one console, from the registers at 0x2003. -/
theorem dumpStack_trace_twoCalls : ∃ out, generate 257 twoCallsLines = .done out ∧
    ∃ logBuf texts, Traced twoCallsLines ⟨0x2000, 0x2010⟩ 0 [(0x2003, false), (0x2005, true)] texts ∧
      dumpStack 310 (imageOf ⟨some (), fun _ : Unit => none⟩
          ⟨⟨0x2000, 0x2010⟩, [⟨['r', 'u', 'n'], ['T'], 1, 0x2000⟩]⟩ out twoCalls) .emerg (fun _ => 0)
          (some (stoppedAt 0x2003 0x102F)) 0 ⟨fun _ => nul, []⟩ =
        .done ⟨logBuf, (traceHeader :: texts).flatMap fun text => [((), text)]⟩ := by
  obtain ⟨out, hout, hprints⟩ := @dumpStack_trace Unit ⟨some (), fun _ => none⟩ [()] twoCalls 310 257
    twoCallsLines ⟨⟨0x2000, 0x2010⟩, [⟨['r', 'u', 'n'], ['T'], 1, 0x2000⟩]⟩ (Nat.le_refl 257)
    (by decide) (by rfl) (by decide) (by decide) (by decide) (by decide) ⟨rfl, rfl⟩ (by decide)
    rfl .emerg (fun _ => 0) ⟨fun _ => nul, []⟩
  exact ⟨out, hout, hprints.1 _ _ 0 twoCalls_stack (by decide) twoCalls_known⟩

end UltraKernel.Log
