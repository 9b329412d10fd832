import UltraKernel.Log.Trace
import UltraKernel.Unwind.CallStack

/-!
# CPUs in `panic`

The first CPU that gets to the exchange of `g_in_panic` prints the reason and its call trace, a line at
a time; all others hang.  CPUs take turns in any order, and may be called into `panic` once more by an
exception at any time.

* `Cpus.turn`: what a CPU does until its next shared access or its next line;
* `Reporting`: where the first CPU is after a number of turns, and what it has printed;
* `panic_reports_once`: what the consoles are given in a run.
-/

namespace UltraKernel.Log

open Word Console Format Symbols Unwind Outcome

variable {ι κ : Type}

/-! ### Turns -/

/-- What `panic` is called with, and where its stack is walked from. -/
structure PanicCall where
  reason : List Char
  vlist : List Arg
  currentFrame : ℕ → ℕ
  startingPc : ℕ

/-- Where a CPU is: somewhere else, or in `panic`. -/
inductive Place where
  | elsewhere
  | exchanging (call : PanicCall)
  | formatting (call : PanicCall)
  | announcing (call : PanicCall)
  | dumping (call : PanicCall)
  | walking (state : DumpState) (ret : Returned) (calls : List (ℕ × Bool))
  | hanging

/-- `g_in_panic`, `panic_buf`, what has been printed, and where the CPUs are. -/
structure Cpus (κ ι : Type) where
  gInPanic : Bool
  panicBuf : ℕ → Char
  sink : Sink ι
  place : κ → Place

/-- A CPU is called into `panic`, or takes its turn. -/
inductive Event (κ : Type) where
  | call (cpu : κ) (call : PanicCall)
  | turn (cpu : κ)

/-- `sizeof(panic_buf)` -/
def panicBufSize : ℕ := 256

section Turns

variable [DecidableEq κ]

def Cpus.move (s : Cpus κ ι) (cpu : κ) (place : Place) : Cpus κ ι :=
  { s with place := Function.update s.place cpu place }

/-- A turn in `panic`: the exchange, the formatting of the reason, or a message. -/
def Cpus.turn (fuel : ℕ) (image : Image ι) (s : Cpus κ ι) (cpu : κ) : Outcome LogBug (Cpus κ ι) :=
  match s.place cpu with
  | .elsewhere => .done s
  | .exchanging call =>
    .done ({ s with gInPanic := true }.move cpu (if s.gInPanic then .hanging else .formatting call))
  | .formatting call => do
    let (_, fb) ← (vsnprintf fuel s.panicBuf panicBufSize call.reason call.vlist).mapHalt .format
    return { s with panicBuf := fb.buffer }.move cpu (.announcing call)
  | .announcing call => do
    let sink ← print fuel image.consoles (LogLevel.emerg.text ++ ("Kernel panic: %s").toList)
      [.string (some ((List.range panicBufSize).map s.panicBuf))] s.sink
    return { s with sink := sink }.move cpu (.dumping call)
  | .dumping call => do
    -- the beginning of `dump_stack(LOG_LEVEL_EMERG, NULL)`
    let sink ← print fuel image.consoles traceHeader [] s.sink
    let (ret, calls) ← (unwindWalk image.machine fuel call.currentFrame none call.startingPc
      fun _ => true).mapHalt .unwind
    return { s with sink := sink }.move cpu (.walking ⟨.emerg, 0⟩ ret calls)
  | .walking _ ret [] => do
    let sink ← printWarning fuel image.consoles ret s.sink
    return { s with sink := sink }.move cpu .hanging
  | .walking state ret ((addr, addrAfterCall) :: calls) => do
    let (more, state, sink) ← doDumpFrame fuel image state addr addrAfterCall s.sink
    return { s with sink := sink }.move cpu (if more then .walking state ret calls else .hanging)
  | .hanging => .done s

/-- An exception does not go back to where the CPU was, as `panic` does not return. -/
def Cpus.act (fuel : ℕ) (image : Image ι) (s : Cpus κ ι) : Event κ → Outcome LogBug (Cpus κ ι)
  | .call cpu call => .done (s.move cpu (.exchanging call))
  | .turn cpu => s.turn fuel image cpu

def Cpus.run (fuel : ℕ) (image : Image ι) (s : Cpus κ ι) :
    List (Event κ) → Outcome LogBug (Cpus κ ι)
  | [] => .done s
  | event :: events => do
    let s ← s.act fuel image event
    s.run fuel image events

/-- The turns of a CPU. -/
def turnsOf (cpu : κ) (events : List (Event κ)) : ℕ :=
  events.countP fun event =>
    match event with
    | .turn other => decide (other = cpu)
    | .call _ _ => false

end Turns

/-! ### What is printed -/

/-- The CPU does not print, and does not write `panic_buf`. -/
def Place.Quiet : Place → Prop
  | elsewhere | exchanging _ | hanging => True
  | _ => False

/-- The CPU has not gone past the exchange. -/
def Place.Outside : Place → Prop
  | elsewhere | exchanging _ => True
  | _ => False

/-- The message for a reason: the part of it that was left in `panic_buf`. -/
def announcement (reason : List Char) : List Char :=
  (("Kernel panic: ").toList ++ (reason.take 255).takeWhile (· ≠ nul)).take 255

/-- The lines for a reason and a walk: its calls, and the warning it ended with. -/
def report (fuel : ℕ) (image : Image ι) (reason : List Char) (ret : Returned) (calls : List (ℕ × Bool)) :
    List (List Char) :=
  announcement reason :: traceHeader :: (traceLines fuel image 0 calls ++ warningLines ret)

/-- Every console is given each of the lines. -/
def given (l : List ι) (lines : List (List Char)) : List (ι × List Char) :=
  lines.flatMap fun line => l.map fun con => (con, line)

/-- The reason is formatted, without a `NULL` for `%pS`, and the walk ends. -/
structure PanicCall.Reports (fuel : ℕ) (image : Image ι) (call : PanicCall) (pieces : List Piece)
    (ret : Returned) (calls : List (ℕ × Bool)) : Prop where
  reason : call.reason = formatText pieces
  vlist : call.vlist = formatArgs pieces
  separate : Separate pieces
  short : (formatOutput pieces).length < 2 ^ 31
  enough : pieces.length + (formatOutput pieces).length < fuel
  strings : ∀ piece ∈ pieces, piece ≠ .structString none
  walk : unwindWalk image.machine fuel call.currentFrame none call.startingPc (fun _ => true) =
    .done (ret, calls)
  count : calls.length < 2 ^ 64
  answers : ∀ call ∈ calls, Answers fuel image call

/-- Where the first CPU is after its turns. -/
def placeAfter (call : PanicCall) (ret : Returned) (calls : List (ℕ × Bool)) : ℕ → Place
  | 0 => .formatting call
  | 1 => .announcing call
  | 2 => .dumping call
  | n + 3 => if n ≤ calls.length then .walking ⟨.emerg, n⟩ ret (calls.drop n) else .hanging

section Reports

variable {image : Image ι} {l : List ι} {fuel : ℕ}

theorem given_take_succ (lines : List (List Char)) (n : ℕ) :
    given l (lines.take (n + 1)) = given l (lines.take n) ++ given l lines[n]?.toList := by
  rw [List.take_add_one, given, List.flatMap_append]
  rfl

theorem traceLines_getElem? (depth n : ℕ) (calls : List (ℕ × Bool)) :
    (traceLines fuel image depth calls)[n]? = calls[n]?.map fun call => traceLine (depth + n) call.1
      (symbolOf fuel image.text image.tables (lookupAddress call)) := by
  induction calls generalizing depth n with
  | nil => rfl
  | cons call calls ih =>
    rw [traceLines]
    cases n with
    | zero => rfl
    | succ n =>
      rw [List.getElem?_cons_succ, List.getElem?_cons_succ, ih, show depth + 1 + n = depth + (n + 1) by
        omega]

theorem traceLines_length (depth : ℕ) (calls : List (ℕ × Bool)) :
    (traceLines fuel image depth calls).length = calls.length := by
  induction calls generalizing depth with
  | nil => rfl
  | cons call calls ih => rw [traceLines, List.length_cons, List.length_cons, ih]

theorem given_append (lines more : List (List Char)) :
    given l (lines ++ more) = given l lines ++ given l more := List.flatMap_append

section Lines

variable {reason : List Char} {ret : Returned} {calls : List (ℕ × Bool)}

/-- The line of a call in a report. -/
theorem report_getElem? {n : ℕ} (hn : n < calls.length) :
    (report fuel image reason ret calls)[n + 2]? = some (traceLine n calls[n].1
      (symbolOf fuel image.text image.tables (lookupAddress calls[n]))) := by
  have hlines : n < (traceLines fuel image 0 calls).length := by rwa [traceLines_length]
  show (traceLines fuel image 0 calls ++ warningLines ret)[n]? = _
  rw [List.getElem?_append_left hlines, traceLines_getElem?, List.getElem?_eq_getElem hn, Nat.zero_add]
  rfl

theorem report_length (fuel : ℕ) (image : Image ι) (reason : List Char) (ret : Returned)
    (calls : List (ℕ × Bool)) :
    (report fuel image reason ret calls).length = calls.length + (warningLines ret).length + 2 := by
  rw [report, List.length_cons, List.length_cons, List.length_append, traceLines_length]

/-- A report ends with the warning of the walk. -/
theorem report_take_last :
    (report fuel image reason ret calls).take (calls.length + 3) =
      (report fuel image reason ret calls).take (calls.length + 2) ++ warningLines ret := by
  have hlength := report_length fuel image reason ret calls
  have hwarning := warningLines_length ret
  rw [List.take_of_length_le (by omega), report, List.take_succ_cons, List.take_succ_cons,
    List.take_left' (traceLines_length 0 calls)]
  rfl

end Lines

/-- **The string in a buffer** that holds a text. -/
theorem Holds.readString {text : List Char} {buffer out : ℕ → Char} {capacity : ℕ}
    (h : Format.Holds text buffer capacity out) (hcapacity : 0 < capacity) :
    ((List.range capacity).map out).takeWhile (· ≠ nul) =
      (text.take (capacity - 1)).takeWhile (· ≠ nul) := by
  have hnul : out (min text.length (capacity - 1)) = nul := h.terminated hcapacity
  have hread := Holds.read h hcapacity
  obtain ⟨rest, hrest⟩ : ∃ rest, capacity = min text.length (capacity - 1) + (rest + 1) :=
    ⟨capacity - 1 - min text.length (capacity - 1), by omega⟩
  have hrange : (List.range capacity).map out =
      text.take (capacity - 1) ++ nul :: (List.range rest).map fun i =>
        out (min text.length (capacity - 1) + (i + 1)) := by
    rw [← hread, ← hnul]
    nth_rewrite 1 [hrest]
    rw [List.range_add, List.map_append, List.range_succ_eq_map]
    simp [Function.comp_def]
  rw [hrange, List.takeWhile_append]
  rw [List.takeWhile_cons_of_neg (by simp)]
  split_ifs with hall
  · rw [List.append_nil]
    exact ((List.takeWhile_prefix _).eq_of_length hall).symm
  · rfl

/-- What is announced: the string in `panic_buf`. -/
def announcementPieces (buffer : List Char) (h : buffer.length < 2 ^ 63) : List Piece :=
  [.literal ("Kernel panic: ").toList (by decide),
    .starred (textConversion buffer h) (textConversion_width h)]

theorem announcementPieces_args (buffer : List Char) (h : buffer.length < 2 ^ 63) :
    formatArgs (announcementPieces buffer h) = [.string (some buffer)] := rfl

theorem announcementPieces_output (buffer : List Char) (h : buffer.length < 2 ^ 63) :
    formatOutput (announcementPieces buffer h) =
      ("Kernel panic: ").toList ++ buffer.takeWhile (· ≠ nul) := by
  rw [← textConversion_output h]
  exact congrArg (("Kernel panic: ").toList ++ ·) (List.append_nil _)

/-- **The announcement** of a reason that has been formatted. -/
theorem announcement_prints (hlist : Linked image.consoles.next image.consoles.consoles l)
    (hconsoles : l.length < fuel) (hfuel : 300 ≤ fuel) {text : List Char} {buffer out : ℕ → Char}
    (hout : Format.Holds text buffer panicBufSize out) (sink : Sink ι) :
    ∃ logBuf, print fuel image.consoles (LogLevel.emerg.text ++ ("Kernel panic: %s").toList)
        [.string (some ((List.range panicBufSize).map out))] sink =
      .done ⟨logBuf, sink.writes ++ l.map fun con => (con, announcement text)⟩ := by
  have hbuffer : ((List.range panicBufSize).map out).length < 2 ^ 63 := by
    rw [List.length_map, List.length_range]
    decide
  have hread := Holds.readString hout (by decide)
  have houtput := announcementPieces_output _ hbuffer
  rw [hread] at houtput
  have hlength : (formatOutput (announcementPieces _ hbuffer)).length ≤ 14 + 255 := by
    rw [houtput, List.length_append]
    refine Nat.add_le_add (Nat.le_refl 14) ((List.takeWhile_prefix _).length_le.trans ?_)
    exact List.length_take_le _ _
  have hprint := @print_lines _ image.consoles l fuel (some .emerg) hlist hconsoles
    (announcementPieces _ hbuffer) ⟨trivial, trivial, trivial⟩ (fun h => by cases h) (by omega)
    (show 2 + _ < fuel by omega) sink
  rw [houtput, announcementPieces_args] at hprint
  exact hprint

end Reports

section OneTurn

variable [DecidableEq κ] {image : Image ι} {l : List ι} {fuel : ℕ} {s : Cpus κ ι} {cpu : κ}
  {call : PanicCall} {pieces : List Piece} {ret : Returned} {calls : List (ℕ × Bool)}

theorem turn_formatting (hplace : s.place cpu = .formatting call)
    (hcall : call.Reports fuel image pieces ret calls) :
    ∃ out, s.turn fuel image cpu =
        .done ({ s with panicBuf := out }.move cpu (.announcing call)) ∧
      Format.Holds (formatOutput pieces) s.panicBuf panicBufSize out := by
  refine ⟨_, ?_, holds_terminate_emit (by have := hcall.short; omega)⟩
  rw [Cpus.turn, hplace]
  dsimp only
  rw [hcall.reason, hcall.vlist,
    vsnprintf_emits hcall.separate hcall.short hcall.enough s.panicBuf panicBufSize, mapHalt_done,
    done_bind]
  rfl

theorem turn_announcing (hlist : Linked image.consoles.next image.consoles.consoles l)
    (hconsoles : l.length < fuel) (hfuel : 300 ≤ fuel) (hplace : s.place cpu = .announcing call)
    {text : List Char} {buffer : ℕ → Char} (hout : Format.Holds text buffer panicBufSize s.panicBuf) :
    ∃ logBuf, s.turn fuel image cpu = .done ({ s with
      sink := ⟨logBuf, s.sink.writes ++ given l [announcement text]⟩ }.move cpu (.dumping call)) := by
  obtain ⟨logBuf, hprint⟩ := announcement_prints hlist hconsoles hfuel hout s.sink
  refine ⟨logBuf, ?_⟩
  unfold Cpus.turn
  rw [hplace]
  dsimp only
  rw [hprint, done_bind, given, List.flatMap_singleton]
  rfl

theorem turn_dumping (hlist : Linked image.consoles.next image.consoles.consoles l)
    (hconsoles : l.length < fuel) (hfuel : 300 ≤ fuel) (hplace : s.place cpu = .dumping call)
    (hcall : call.Reports fuel image pieces ret calls) :
    ∃ logBuf, s.turn fuel image cpu = .done ({ s with
      sink := ⟨logBuf, s.sink.writes ++ given l [traceHeader]⟩ }.move cpu
        (.walking ⟨.emerg, 0⟩ ret calls)) := by
  obtain ⟨logBuf, hprint⟩ := header_prints hlist hconsoles hfuel s.sink
  refine ⟨logBuf, ?_⟩
  unfold Cpus.turn
  rw [hplace]
  dsimp only
  rw [hprint, done_bind, hcall.walk, mapHalt_done, done_bind, given, List.flatMap_singleton]
  rfl

theorem turn_walking (hlist : Linked image.consoles.next image.consoles.consoles l)
    (hconsoles : l.length < fuel) (hfuel : 300 ≤ fuel) {state : DumpState} {frame : ℕ × Bool}
    (hplace : s.place cpu = .walking state ret (frame :: calls)) (hdepth : state.depth + 1 < 2 ^ 64)
    (hanswers : Answers fuel image frame) :
    ∃ logBuf, s.turn fuel image cpu = .done ({ s with
      sink := ⟨logBuf, s.sink.writes ++ given l [traceLine state.depth frame.1
        (symbolOf fuel image.text image.tables (lookupAddress frame))]⟩ }.move cpu
          (.walking { state with depth := state.depth + 1 } ret calls)) := by
  obtain ⟨haddress, found, hlookup⟩ := hanswers
  obtain ⟨logBuf, hframe⟩ := doDumpFrame_prints hlist hconsoles hfuel hdepth haddress hlookup s.sink
  refine ⟨logBuf, ?_⟩
  unfold Cpus.turn
  rw [hplace]
  dsimp only
  rw [hframe, done_bind, given, List.flatMap_singleton]
  rfl

/-- The turn behind the calls. -/
theorem turn_warning (hlist : Linked image.consoles.next image.consoles.consoles l)
    (hconsoles : l.length < fuel) (hfuel : 300 ≤ fuel) {state : DumpState}
    (hplace : s.place cpu = .walking state ret []) :
    ∃ logBuf, s.turn fuel image cpu = .done ({ s with
      sink := ⟨logBuf, s.sink.writes ++ given l (warningLines ret)⟩ }.move cpu .hanging) := by
  obtain ⟨logBuf, hwarning⟩ := printWarning_prints hlist hconsoles hfuel ret s.sink
  refine ⟨logBuf, ?_⟩
  unfold Cpus.turn
  rw [hplace]
  dsimp only
  rw [hwarning, done_bind]
  rfl

end OneTurn

/-! ### Runs -/

/-- The first CPU has taken `n` turns behind the exchange, and the others keep quiet. -/
structure Reporting (fuel : ℕ) (image : Image ι) (l : List ι) (writes : List (ι × List Char)) (cpu : κ)
    (call : PanicCall) (pieces : List Piece) (ret : Returned) (calls : List (ℕ × Bool)) (n : ℕ)
    (s : Cpus κ ι) : Prop where
  gInPanic : s.gInPanic = true
  place : s.place cpu = placeAfter call ret calls n
  others : ∀ other ≠ cpu, (s.place other).Quiet
  panicBuf : n ≠ 0 → ∃ buffer, Format.Holds (formatOutput pieces) buffer panicBufSize s.panicBuf
  writes_eq : s.sink.writes =
    writes ++ given l ((report fuel image (formatOutput pieces) ret calls).take (n - 1))

/-- Nobody has gone past the exchange. -/
structure Clear (sink : Sink ι) (s : Cpus κ ι) : Prop where
  gInPanic : s.gInPanic = false
  outside : ∀ cpu, (s.place cpu).Outside
  sink_eq : s.sink = sink

/-- Nobody prints any more. -/
structure Silent (writes : List (ι × List Char)) (s : Cpus κ ι) : Prop where
  gInPanic : s.gInPanic = true
  quiet : ∀ cpu, (s.place cpu).Quiet
  writes_eq : s.sink.writes = writes

/-- Nobody has gone past the exchange, one is printing, or nobody prints any more. -/
inductive Stage (fuel : ℕ) (image : Image ι) (l : List ι) (sink : Sink ι) (events : List (Event κ)) :
    Cpus κ ι → Prop where
  | clear {s} (h : Clear sink s)
      (hcalls : ∀ cpu call, s.place cpu = .exchanging call → .call cpu call ∈ events) :
    Stage fuel image l sink events s
  | reporting {s cpu call pieces ret calls n} (hmem : .call cpu call ∈ events)
      (hcall : call.Reports fuel image pieces ret calls)
      (h : Reporting fuel image l sink.writes cpu call pieces ret calls n s) :
    Stage fuel image l sink events s
  | silent {s cpu call pieces ret calls n} (hmem : .call cpu call ∈ events)
      (hcall : call.Reports fuel image pieces ret calls)
      (h : Silent (sink.writes ++
        given l ((report fuel image (formatOutput pieces) ret calls).take n)) s) :
    Stage fuel image l sink events s

theorem Place.Outside.quiet {place : Place} (h : place.Outside) : place.Quiet := by
  cases place with
  | elsewhere => trivial
  | exchanging call => trivial
  | hanging => trivial
  | _ => exact h

theorem Place.Quiet.eq {place : Place} (h : place.Quiet) :
    place = .elsewhere ∨ place = .hanging ∨ ∃ call, place = .exchanging call := by
  cases place with
  | elsewhere => exact .inl rfl
  | exchanging call => exact .inr (.inr ⟨call, rfl⟩)
  | hanging => exact .inr (.inl rfl)
  | _ => exact h.elim

section Runs

variable [DecidableEq κ] {image : Image ι} {l : List ι} {fuel n : ℕ} {s : Cpus κ ι} {cpu other : κ}
  {call : PanicCall} {pieces : List Piece} {ret : Returned} {calls : List (ℕ × Bool)}
  {writes : List (ι × List Char)} {sink : Sink ι}

theorem move_place_self (s : Cpus κ ι) (cpu : κ) (place : Place) : (s.move cpu place).place cpu = place :=
  Function.update_self ..

theorem move_place_of_ne (s : Cpus κ ι) (place : Place) (h : other ≠ cpu) :
    (s.move cpu place).place other = s.place other :=
  Function.update_of_ne h ..

theorem move_self (s : Cpus κ ι) (cpu : κ) : s.move cpu (s.place cpu) = s := by
  rw [Cpus.move, Function.update_eq_self]

/-- What holds of the places still holds behind a move. -/
theorem move_forall {P : Place → Prop} {place : Place} (h : ∀ other ≠ cpu, P (s.place other))
    (hplace : P place) (other : κ) : P ((s.move cpu place).place other) := by
  by_cases hother : other = cpu
  · rw [hother, move_place_self]
    exact hplace
  · rw [move_place_of_ne s place hother]
    exact h other hother

/-- **A CPU that keeps quiet** goes on keeping quiet, if `g_in_panic` is set. -/
theorem turn_quiet (hpanic : s.gInPanic = true) (h : (s.place cpu).Quiet) :
    ∃ place, s.turn fuel image cpu = .done (s.move cpu place) ∧ place.Quiet := by
  rcases h.eq with hplace | hplace | ⟨call, hplace⟩
  · exact ⟨s.place cpu, by rw [move_self, Cpus.turn, hplace], h⟩
  · exact ⟨s.place cpu, by rw [move_self, Cpus.turn, hplace], h⟩
  · refine ⟨.hanging, ?_, trivial⟩
    rw [Cpus.turn, hplace]
    dsimp only
    rw [if_pos hpanic, ← hpanic]

theorem Silent.act (h : Silent writes s) (event : Event κ) :
    ∃ t, s.act fuel image event = .done t ∧ Silent writes t := by
  cases event with
  | call cpu call =>
    exact ⟨_, rfl, h.gInPanic, move_forall (fun other _ => h.quiet other) trivial, h.writes_eq⟩
  | turn cpu =>
    obtain ⟨place, hturn, hquiet⟩ := turn_quiet h.gInPanic (h.quiet cpu)
    exact ⟨_, hturn, h.gInPanic, move_forall (fun other _ => h.quiet other) hquiet, h.writes_eq⟩

theorem Silent.run (h : Silent writes s) (events : List (Event κ)) :
    ∃ t, s.run fuel image events = .done t ∧ Silent writes t := by
  induction events generalizing s with
  | nil => exact ⟨s, rfl, h⟩
  | cons event events ih =>
    obtain ⟨t, hact, ht⟩ := h.act event
    obtain ⟨u, hrun, hu⟩ := ih ht
    exact ⟨u, by rw [Cpus.run, hact, done_bind, hrun], hu⟩

/-! ### The first CPU -/

/-- A step of another CPU, to a place where it keeps quiet. -/
theorem Reporting.move_other (h : Reporting fuel image l writes cpu call pieces ret calls n s)
    (hother : other ≠ cpu) {place : Place} (hquiet : place.Quiet) :
    Reporting fuel image l writes cpu call pieces ret calls n (s.move other place) where
  gInPanic := h.gInPanic
  place := (move_place_of_ne s place hother.symm).trans h.place
  others third hthird := by
    by_cases heq : third = other
    · rw [heq, move_place_self]
      exact hquiet
    · rw [move_place_of_ne s place heq]
      exact h.others third hthird
  panicBuf := h.panicBuf
  writes_eq := h.writes_eq

/-- A turn that prints what comes next. -/
theorem Reporting.printed (h : Reporting fuel image l writes cpu call pieces ret calls (n + 1) s)
    {line : List Char} (hline : (report fuel image (formatOutput pieces) ret calls)[n]? = some line)
    (logBuf : ℕ → Char) :
    Reporting fuel image l writes cpu call pieces ret calls (n + 1 + 1)
      ({ s with sink := ⟨logBuf, s.sink.writes ++ given l [line]⟩ }.move cpu
        (placeAfter call ret calls (n + 1 + 1))) where
  gInPanic := h.gInPanic
  place := move_place_self _ cpu _
  others other hother := by
    rw [move_place_of_ne _ _ hother]
    exact h.others other hother
  panicBuf _ := h.panicBuf (Nat.succ_ne_zero n)
  writes_eq := by
    show s.sink.writes ++ given l [line] = _
    rw [h.writes_eq, Nat.add_sub_cancel, Nat.add_sub_cancel, given_take_succ, hline, List.append_assoc]
    rfl

/-- **A turn of the first CPU** is the next step of its report. -/
theorem Reporting.turn (hlist : Linked image.consoles.next image.consoles.consoles l)
    (hconsoles : l.length < fuel) (hfuel : 300 ≤ fuel) (hcall : call.Reports fuel image pieces ret calls)
    (h : Reporting fuel image l writes cpu call pieces ret calls n s) :
    ∃ t, s.turn fuel image cpu = .done t ∧
      Reporting fuel image l writes cpu call pieces ret calls (n + 1) t := by
  match n, h with
  | 0, h =>
    obtain ⟨out, hturn, hout⟩ := turn_formatting h.place hcall
    refine ⟨_, hturn, h.gInPanic, move_place_self _ cpu _, fun other hother => ?_,
      fun _ => ⟨_, hout⟩, h.writes_eq⟩
    rw [move_place_of_ne _ _ hother]
    exact h.others other hother
  | 1, h =>
    obtain ⟨buffer, hout⟩ := h.panicBuf one_ne_zero
    obtain ⟨logBuf, hturn⟩ := turn_announcing hlist hconsoles hfuel h.place hout
    exact ⟨_, hturn, h.printed rfl logBuf⟩
  | 2, h =>
    obtain ⟨logBuf, hturn⟩ := turn_dumping hlist hconsoles hfuel h.place hcall
    refine ⟨_, hturn, ?_⟩
    have hplace : placeAfter call ret calls (0 + 3) = .walking ⟨.emerg, 0⟩ ret calls := by
      rw [placeAfter, if_pos (Nat.zero_le _), List.drop_zero]
    rw [← hplace]
    exact h.printed rfl logBuf
  | n + 3, h =>
    have hplace := h.place
    rw [placeAfter] at hplace
    by_cases hn : n < calls.length
    · rw [if_pos hn.le, List.drop_eq_getElem_cons hn] at hplace
      obtain ⟨logBuf, hturn⟩ := turn_walking hlist hconsoles hfuel hplace
        (show n + 1 < 2 ^ 64 by have := hcall.count; omega)
        (hcall.answers _ (List.getElem_mem hn))
      refine ⟨_, hturn, ?_⟩
      have hnext : placeAfter call ret calls (n + 3 + 1) =
          .walking ⟨.emerg, n + 1⟩ ret (calls.drop (n + 1)) := if_pos hn
      rw [← hnext]
      refine h.printed ?_ logBuf
      rw [report_getElem? hn]
    · have hend : placeAfter call ret calls (n + 3 + 1) = .hanging := if_neg (by omega)
      by_cases hlast : n = calls.length
      · rw [if_pos hlast.le, hlast, List.drop_length] at hplace
        obtain ⟨logBuf, hturn⟩ := turn_warning hlist hconsoles hfuel hplace
        refine ⟨_, hturn, h.gInPanic, (move_place_self _ cpu _).trans hend.symm,
          fun other hother => ?_, fun _ => h.panicBuf (Nat.succ_ne_zero _), ?_⟩
        · rw [move_place_of_ne _ _ hother]
          exact h.others other hother
        · show s.sink.writes ++ given l (warningLines ret) =
            writes ++ given l ((report fuel image (formatOutput pieces) ret calls).take (n + 3))
          rw [h.writes_eq, hlast, report_take_last, given_append, List.append_assoc]
          rfl
      · rw [if_neg (by omega)] at hplace
        refine ⟨s, by rw [Cpus.turn, hplace], h.gInPanic, hplace.trans hend.symm, h.others,
          fun _ => h.panicBuf (Nat.succ_ne_zero _), ?_⟩
        have hlength := report_length fuel image (formatOutput pieces) ret calls
        have hwarning := warningLines_length ret
        rw [h.writes_eq, List.take_of_length_le (by omega), List.take_of_length_le (by omega)]

/-- **The first CPU is not disturbed** by what others do. -/
theorem Reporting.run (hlist : Linked image.consoles.next image.consoles.consoles l)
    (hconsoles : l.length < fuel) (hfuel : 300 ≤ fuel) (hcall : call.Reports fuel image pieces ret calls)
    (h : Reporting fuel image l writes cpu call pieces ret calls n s) {events : List (Event κ)}
    (hevents : ∀ again, .call cpu again ∉ events) :
    ∃ t, s.run fuel image events = .done t ∧
      Reporting fuel image l writes cpu call pieces ret calls (n + turnsOf cpu events) t := by
  induction events generalizing s n with
  | nil => exact ⟨s, rfl, h⟩
  | cons event events ih =>
    have hlater : ∀ again, .call cpu again ∉ events :=
      fun again hagain => hevents again (List.mem_cons_of_mem _ hagain)
    obtain ⟨m, t, hact, ht, hturns⟩ : ∃ m t, s.act fuel image event = .done t ∧
        Reporting fuel image l writes cpu call pieces ret calls m t ∧
        m + turnsOf cpu events = n + turnsOf cpu (event :: events) := by
      cases event with
      | call other again =>
        have hother : other ≠ cpu := by
          rintro rfl
          exact hevents again List.mem_cons_self
        exact ⟨n, _, rfl, h.move_other hother trivial, by simp [turnsOf]⟩
      | turn other =>
        by_cases hother : other = cpu
        · subst hother
          obtain ⟨t, hturn, ht⟩ := h.turn hlist hconsoles hfuel hcall
          exact ⟨n + 1, t, hturn, ht, by simp [turnsOf]; omega⟩
        · obtain ⟨place, hturn, hquiet⟩ := turn_quiet h.gInPanic (h.others other hother)
          exact ⟨n, _, hturn, h.move_other hother hquiet, by simp [turnsOf, hother]⟩
    obtain ⟨u, hrun, hu⟩ := ih ht hlater
    exact ⟨u, by rw [Cpus.run, hact, done_bind, hrun], hturns ▸ hu⟩

/-- If it is called into `panic` once more, it hangs. -/
theorem Reporting.call_again (h : Reporting fuel image l writes cpu call pieces ret calls n s)
    (again : PanicCall) :
    Silent (writes ++ given l ((report fuel image (formatOutput pieces) ret calls).take (n - 1)))
      (s.move cpu (.exchanging again)) :=
  ⟨h.gInPanic, move_forall h.others trivial, h.writes_eq⟩

/-! ### Any order of turns -/

theorem Place.Outside.eq {place : Place} (h : place.Outside) :
    place = .elsewhere ∨ ∃ call, place = .exchanging call := by
  cases place with
  | elsewhere => exact .inl rfl
  | exchanging call => exact .inr ⟨call, rfl⟩
  | _ => exact h.elim

/-- **The exchange**: the CPU is the first. -/
theorem Clear.exchange (h : Clear sink s) (hplace : s.place cpu = .exchanging call) :
    ∃ t, s.turn fuel image cpu = .done t ∧
      Reporting fuel image l sink.writes cpu call pieces ret calls 0 t := by
  refine ⟨{ s with gInPanic := true }.move cpu (.formatting call), ?_, rfl, move_place_self _ cpu _,
    fun other hother => ?_, fun hn => absurd rfl hn, ?_⟩
  · rw [Cpus.turn, hplace]
    dsimp only
    rw [h.gInPanic, if_neg Bool.false_ne_true]
  · rw [move_place_of_ne _ _ hother]
    exact (h.outside other).quiet
  · show s.sink.writes = _
    rw [h.sink_eq, List.take_zero]
    exact (List.append_nil _).symm

/-- **One step** of any CPU. -/
theorem Stage.act (hlist : Linked image.consoles.next image.consoles.consoles l)
    (hconsoles : l.length < fuel) (hfuel : 300 ≤ fuel) {events : List (Event κ)}
    (hcalls : ∀ cpu call, .call cpu call ∈ events →
      ∃ pieces ret calls, call.Reports fuel image pieces ret calls)
    (h : Stage fuel image l sink events s) {event : Event κ} (hevent : event ∈ events) :
    ∃ t, s.act fuel image event = .done t ∧ Stage fuel image l sink events t := by
  cases h with
  | clear h hmem =>
    cases event with
    | call cpu call =>
      refine ⟨_, rfl, .clear ⟨h.gInPanic, move_forall (fun other _ => h.outside other) trivial,
        h.sink_eq⟩ fun other again hplace => ?_⟩
      by_cases hother : other = cpu
      · rw [hother, move_place_self] at hplace
        obtain rfl := Place.exchanging.inj hplace
        rwa [hother]
      · rw [move_place_of_ne _ _ hother] at hplace
        exact hmem other again hplace
    | turn cpu =>
      rcases (h.outside cpu).eq with hplace | ⟨call, hplace⟩
      · exact ⟨s, by rw [Cpus.act, Cpus.turn, hplace], .clear h hmem⟩
      · obtain ⟨pieces, ret, calls, hcall⟩ := hcalls cpu call (hmem cpu call hplace)
        obtain ⟨t, hturn, ht⟩ := h.exchange hplace
        exact ⟨t, hturn, .reporting (hmem cpu call hplace) hcall ht⟩
  | reporting hmem hcall h =>
    rename_i first _ _ _ _ _
    cases event with
    | call cpu again =>
      by_cases hcpu : cpu = first
      · subst hcpu
        exact ⟨_, rfl, .silent hmem hcall (h.call_again again)⟩
      · exact ⟨_, rfl, .reporting hmem hcall (h.move_other hcpu trivial)⟩
    | turn cpu =>
      by_cases hcpu : cpu = first
      · subst hcpu
        obtain ⟨t, hturn, ht⟩ := h.turn hlist hconsoles hfuel hcall
        exact ⟨t, hturn, .reporting hmem hcall ht⟩
      · obtain ⟨place, hturn, hquiet⟩ := turn_quiet h.gInPanic (h.others cpu hcpu)
        exact ⟨_, hturn, .reporting hmem hcall (h.move_other hcpu hquiet)⟩
  | silent hmem hcall h =>
    obtain ⟨t, hact, ht⟩ := h.act event
    exact ⟨t, hact, .silent hmem hcall ht⟩

/-- **A run** of any steps. -/
theorem Stage.run (hlist : Linked image.consoles.next image.consoles.consoles l)
    (hconsoles : l.length < fuel) (hfuel : 300 ≤ fuel) {events : List (Event κ)}
    (hcalls : ∀ cpu call, .call cpu call ∈ events →
      ∃ pieces ret calls, call.Reports fuel image pieces ret calls)
    (h : Stage fuel image l sink events s) {later : List (Event κ)} (hlater : later ⊆ events) :
    ∃ t, s.run fuel image later = .done t ∧ Stage fuel image l sink events t := by
  induction later generalizing s with
  | nil => exact ⟨s, rfl, h⟩
  | cons event later ih =>
    obtain ⟨t, hact, ht⟩ := h.act hlist hconsoles hfuel hcalls (hlater List.mem_cons_self)
    obtain ⟨u, hrun, hu⟩ := ih ht fun _ hmem => hlater (List.mem_cons_of_mem _ hmem)
    exact ⟨u, by rw [Cpus.run, hact, done_bind, hrun], hu⟩

/-- **At most one CPU** formats, prints or walks. -/
theorem Stage.unique {events : List (Event κ)} (h : Stage fuel image l sink events s)
    (hcpu : ¬ (s.place cpu).Quiet) (hother : ¬ (s.place other).Quiet) : cpu = other := by
  cases h with
  | clear h _ => exact absurd (h.outside cpu).quiet hcpu
  | reporting hmem hcall h =>
    have hfirst : ∀ {third}, ¬ (s.place third).Quiet → third = _ := fun hthird => by
      by_contra hne
      exact hthird (h.others _ hne)
    exact (hfirst hcpu).trans (hfirst hother).symm
  | silent hmem hcall h => exact absurd (h.quiet cpu) hcpu

/-- **Only the first CPU reports.**  In a run that starts with no CPU in `panic`, and in which CPUs take
turns and are called into `panic` (once more, even) in any order, at most one is past the exchange and
not hanging, and the consoles have been given lines of one report only, from its first on: the reason,
as much of it as there is room for, the call trace, and the warning of a frame that ended it.  From the
exchange on, a CPU that is not called again gives a line with each turn but the one that formats the
reason, whatever the others do, until the report is complete. -/
theorem panic_reports_once (hlist : Linked image.consoles.next image.consoles.consoles l)
    (hconsoles : l.length < fuel) (hfuel : 300 ≤ fuel) {start : Cpus κ ι}
    (hclear : start.gInPanic = false) (helsewhere : ∀ cpu, start.place cpu = .elsewhere)
    {events : List (Event κ)} (hcalls : ∀ cpu call, .call cpu call ∈ events →
      ∃ pieces ret calls, call.Reports fuel image pieces ret calls) :
    ∃ s, start.run fuel image events = .done s ∧
      (∀ cpu other, ¬ (s.place cpu).Quiet → ¬ (s.place other).Quiet → cpu = other) ∧
      (s.gInPanic = true → ∃ cpu call pieces ret calls n, .call cpu call ∈ events ∧
        call.Reports fuel image pieces ret calls ∧ s.sink.writes = start.sink.writes ++
          given l ((report fuel image (formatOutput pieces) ret calls).take n)) ∧
      (s.gInPanic = false → s.sink = start.sink ∧ ∀ cpu call pieces ret calls later,
        s.place cpu = .exchanging call → call.Reports fuel image pieces ret calls →
        (∀ again, .call cpu again ∉ later) →
        ∃ t, s.run fuel image (.turn cpu :: later) = .done t ∧ t.sink.writes = start.sink.writes ++
          given l ((report fuel image (formatOutput pieces) ret calls).take (turnsOf cpu later - 1))) := by
  have hstart : Stage fuel image l start.sink events start := by
    refine .clear ⟨hclear, fun cpu => ?_, rfl⟩ fun cpu call hplace => ?_
    · rw [helsewhere]
      trivial
    · rw [helsewhere] at hplace
      cases hplace
  obtain ⟨s, hrun, hs⟩ := hstart.run hlist hconsoles hfuel hcalls (List.Subset.refl events)
  refine ⟨s, hrun, fun cpu other => hs.unique, fun hpanic => ?_, fun hpanic => ?_⟩
  · cases hs with
    | clear h _ =>
      rw [h.gInPanic] at hpanic
      cases hpanic
    | reporting hmem hcall h => exact ⟨_, _, _, _, _, _, hmem, hcall, h.writes_eq⟩
    | silent hmem hcall h => exact ⟨_, _, _, _, _, _, hmem, hcall, h.writes_eq⟩
  · cases hs with
    | clear h hmem =>
      refine ⟨h.sink_eq, fun cpu call pieces ret calls later hplace hcall hlater => ?_⟩
      obtain ⟨t, hturn, ht⟩ := h.exchange hplace
      obtain ⟨u, hlaterRun, hu⟩ := ht.run hlist hconsoles hfuel hcall hlater
      rw [Nat.zero_add] at hu
      exact ⟨u, by rw [Cpus.run, Cpus.act, hturn, done_bind, hlaterRun], hu.writes_eq⟩
    | reporting hmem hcall h =>
      rw [h.gInPanic] at hpanic
      cases hpanic
    | silent hmem hcall h =>
      rw [h.gInPanic] at hpanic
      cases hpanic

end Runs

/-! ### Two CPUs -/

/-- A kernel with one console and no symbols. -/
def bareImage : Image Unit where
  consoles := ⟨some (), fun _ => none⟩
  text := ⟨0, 0⟩
  tables := ⟨⟨0, [], [], [], []⟩, [], 0⟩
  machine := twoCalls

/-- From the first frame of `twoCalls`, with the second as the caller. -/
def letterCall (c : Char) : PanicCall := ⟨[c], [], stoppedAt 0x2003 0x102F, 0x2005⟩

theorem bareImage_walk : unwindWalk bareImage.machine 300 (stoppedAt 0x2003 0x102F) none 0x2005
    (fun _ => true) = .done (eok, [(0x2005, true)]) :=
  @unwindWalk_current twoCalls 300 [] rfl _ [] (stoppedAt 0x2005 0x1037) twoCalls_current (by decide)
    (fun _ h => absurd h List.not_mem_nil) fun _ => true

theorem bareImage_answers : ∀ call ∈ [(0x2005, true)], Answers 300 bareImage call := by
  intro call hcall
  rw [List.mem_singleton.mp hcall]
  exact ⟨by decide, _, rfl⟩

theorem letterCall_reports {c : Char} (h : Plain [c]) :
    (letterCall c).Reports 300 bareImage [.literal [c] h] eok [(0x2005, true)] where
  reason := rfl
  vlist := rfl
  separate := ⟨trivial, trivial⟩
  short := show 1 < 2 ^ 31 by decide
  enough := show 1 + 1 < 300 by decide
  strings := by simp
  walk := bareImage_walk
  count := show 1 < 2 ^ 64 by decide
  answers := bareImage_answers

/-- Two CPUs are called, and the second exchanges first. -/
theorem panic_reports_once_two :
    ∃ s, Cpus.run 300 bareImage ⟨false, fun _ => nul, ⟨fun _ => nul, []⟩, fun _ : Bool => .elsewhere⟩
        [.call false (letterCall 'a'), .call true (letterCall 'b')] = .done s ∧
      ∃ t, s.run 300 bareImage
          [.turn true, .turn false, .turn true, .turn true, .turn true, .turn true] = .done t ∧
        t.sink.writes = [((), announcement ['b']), ((), traceHeader), ((), traceLine 0 0x2005 none)] := by
  obtain ⟨s, hrun, -, -, hfirst⟩ := @panic_reports_once Unit Bool _ bareImage [()] 300 ⟨rfl, rfl⟩
    (by decide) (Nat.le_refl 300) ⟨false, fun _ => nul, ⟨fun _ => nul, []⟩, fun _ => .elsewhere⟩ rfl
    (fun _ => rfl) [.call false (letterCall 'a'), .call true (letterCall 'b')] (by
      intro cpu call hcall
      rcases List.mem_pair.mp hcall with heq | heq
      · obtain ⟨rfl, rfl⟩ := Event.call.inj heq
        exact ⟨_, _, _, letterCall_reports (by decide)⟩
      · obtain ⟨rfl, rfl⟩ := Event.call.inj heq
        exact ⟨_, _, _, letterCall_reports (by decide)⟩)
  obtain rfl := Outcome.done.inj hrun
  obtain ⟨t, hlater, ht⟩ := (hfirst rfl).2 true (letterCall 'b') _ _ _
    [.turn false, .turn true, .turn true, .turn true, .turn true] rfl (letterCall_reports (by decide))
    (fun again hagain => by simp at hagain)
  exact ⟨_, rfl, t, hlater, ht⟩

end UltraKernel.Log
