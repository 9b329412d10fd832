import UltraKernel.Console.Registry
import UltraKernel.Format.Pieces
import UltraKernel.Log.Model

/-!
# What a message comes to on the consoles

A message is a level and a format.  Every console that is linked is given the characters that the format
comes to, as many of them as there is room for, and not the level.

* `extractMsgLevel_message`: the level of a message is read and left out;
* `print_message`: what the consoles are given;
* `print_lines`, `Says.print`: for a format that is made up of pieces.
-/

namespace UltraKernel.Log

open Console Format

/-! ### Levels -/

/-- A message with a level or without one. -/
def message (level : Option LogLevel) (fmt : List Char) : List Char :=
  match level with
  | none => fmt
  | some level => level.text ++ fmt

/-- A format without a level does not start as one does. -/
def Unprefixed (level : Option LogLevel) (fmt : List Char) : Prop :=
  level = none → fmt.head? ≠ some logLevelPrefixChar

theorem LogLevel.text_eq (level : LogLevel) : ∃ c n, level.text = [logLevelPrefixChar, c] ∧ c ≠ nul ∧
    (c.toNat + 2 ^ 8 - '0'.toNat) % 2 ^ 8 = n ∧ ∀ outLevel, all.getD n outLevel = level := by
  cases level with
  | emerg => exact ⟨'0', 0, rfl, by decide, by decide, fun _ => rfl⟩
  | alert => exact ⟨'1', 1, rfl, by decide, by decide, fun _ => rfl⟩
  | crit => exact ⟨'2', 2, rfl, by decide, by decide, fun _ => rfl⟩
  | err => exact ⟨'3', 3, rfl, by decide, by decide, fun _ => rfl⟩
  | warn => exact ⟨'4', 4, rfl, by decide, by decide, fun _ => rfl⟩
  | notice => exact ⟨'5', 5, rfl, by decide, by decide, fun _ => rfl⟩
  | info => exact ⟨'6', 6, rfl, by decide, by decide, fun _ => rfl⟩
  | debug => exact ⟨'7', 7, rfl, by decide, by decide, fun _ => rfl⟩

theorem extractMsgLevel_message {level : Option LogLevel} {fmt : List Char}
    (h : Unprefixed level fmt) :
    extractMsgLevel (message level fmt) logLevelDefault =
      ((message level fmt).length - fmt.length, level.getD logLevelDefault) := by
  cases level with
  | none =>
    have hhead : fmt.getD 0 nul ≠ logLevelPrefixChar := by
      cases fmt with
      | nil => decide
      | cons c fmt => exact fun hc => h rfl (congrArg some hc)
    show extractMsgLevel fmt logLevelDefault = (fmt.length - fmt.length, logLevelDefault)
    rw [extractMsgLevel, if_pos hhead, Nat.sub_self]
  | some level =>
    have hlength : (message (some level) fmt).length - fmt.length = 2 := by
      rw [message, List.length_append]
      cases level <;> exact Nat.add_sub_cancel 2 fmt.length
    obtain ⟨c, n, htext, hc, hn, hlevel⟩ := level.text_eq
    rw [hlength, message, htext]
    show extractMsgLevel (logLevelPrefixChar :: c :: fmt) logLevelDefault = (2, level)
    rw [extractMsgLevel, List.getD_cons_zero, if_neg (not_not.mpr rfl), List.getD_cons_succ,
      List.getD_cons_zero, if_neg hc]
    dsimp only
    rw [hn]
    exact congrArg (Prod.mk 2) (hlevel logLevelDefault)

theorem drop_message {level : Option LogLevel} {fmt : List Char} (h : Unprefixed level fmt) :
    (message level fmt).drop (extractMsgLevel (message level fmt) logLevelDefault).1 = fmt := by
  rw [extractMsgLevel_message h]
  cases level with
  | none =>
    show fmt.drop (fmt.length - fmt.length) = fmt
    rw [Nat.sub_self, List.drop_zero]
  | some level =>
    show (level.text ++ fmt).drop ((level.text ++ fmt).length - fmt.length) = fmt
    rw [List.length_append, Nat.add_sub_cancel, List.drop_left]

/-! ### Messages -/

section Messages

variable {ι : Type} {list : ConsoleList ι} {l : List ι} {fuel : ℕ} {level : Option LogLevel}

/-- What is read from a buffer that holds a text. -/
theorem Holds.read {text : List Char} {buffer out : ℕ → Char} {capacity : ℕ}
    (h : Format.Holds text buffer capacity out) (hcapacity : 0 < capacity) :
    (List.range (min text.length (capacity - 1))).map out = text.take (capacity - 1) := by
  refine List.ext_getElem (by simp [Nat.min_comm]) fun i hi hi' => ?_
  rw [List.length_map, List.length_range] at hi
  have hshown := h.shown hcapacity i hi
  rw [List.getElem?_eq_getElem (by omega)] at hshown
  rw [List.getElem_map, List.getElem_range, List.getElem_take]
  exact (Option.some.inj hshown).symm

/-- **A message** of a format that comes to a text. -/
theorem print_message (hlist : Linked list.next list.consoles l) (hconsoles : l.length < fuel)
    {fmt : List Char} {vlist : List Arg} (hlevel : Unprefixed level fmt) {text : List Char} {sink : Sink ι}
    {out : FmtBufState}
    (hformat : vscnprintf fuel sink.logBuf logBufSize fmt vlist =
      .done (((min text.length (logBufSize - 1) : ℕ) : ℤ), out))
    (hout : Format.Holds text sink.logBuf logBufSize out.buffer) :
    print fuel list (message level fmt) vlist sink =
      .done ⟨out.buffer, sink.writes ++ l.map fun con => (con, text.take 255)⟩ := by
  have hwrite := writeLoop_linked hlist hconsoles (text.take 255)
  have hread : (List.range (min text.length (logBufSize - 1))).map out.buffer = text.take 255 :=
    Holds.read hout (by decide)
  simp only [print, vprint]
  rw [drop_message hlevel, hformat, Outcome.mapHalt_done, Outcome.done_bind]
  dsimp only
  rw [if_neg (not_lt.mpr (Int.natCast_nonneg _)), Int.toNat_natCast, hread, consoleWrite, hwrite,
    Outcome.mapHalt_done]
  rfl

/-- **A message that is made up of pieces.** -/
theorem print_lines (hlist : Linked list.next list.consoles l) (hconsoles : l.length < fuel)
    {pieces : List Piece} (hseparate : Separate pieces) (hlevel : Unprefixed level (formatText pieces))
    (hlength : (formatOutput pieces).length < 2 ^ 31)
    (hfuel : pieces.length + (formatOutput pieces).length < fuel) (sink : Sink ι) :
    ∃ logBuf, print fuel list (message level (formatText pieces)) (formatArgs pieces) sink =
      .done ⟨logBuf, sink.writes ++ l.map fun con => (con, (formatOutput pieces).take 255)⟩ := by
  have hformat := vscnprintf_of_done hlength
    (vsnprintf_emits hseparate hlength hfuel sink.logBuf logBufSize)
  rw [if_neg (by decide)] at hformat
  exact ⟨_, print_message hlist hconsoles hlevel hformat (holds_terminate_emit (by omega))⟩

/-- **A call of `print` comes to a text.** -/
def Says (fuel : ℕ) (msg : List Char) (vlist : List Arg) (text : List Char) : Prop :=
  ∃ level pieces, msg = message level (formatText pieces) ∧ vlist = formatArgs pieces ∧
    Separate pieces ∧ Unprefixed level (formatText pieces) ∧ formatOutput pieces = text ∧
    text.length < 2 ^ 31 ∧ pieces.length + text.length < fuel

theorem Says.print {msg text : List Char} {vlist : List Arg} (h : Says fuel msg vlist text)
    (hlist : Linked list.next list.consoles l) (hconsoles : l.length < fuel) (sink : Sink ι) :
    ∃ logBuf, print fuel list msg vlist sink =
      .done ⟨logBuf, sink.writes ++ l.map fun con => (con, text.take 255)⟩ := by
  obtain ⟨level, pieces, rfl, rfl, hseparate, hlevel, rfl, hlength, hfuel⟩ := h
  exact print_lines hlist hconsoles hseparate hlevel hlength hfuel sink

/-- A message without a level that there is room for. -/
theorem print_short (hlist : Linked list.next list.consoles l) (hconsoles : l.length < fuel)
    {pieces : List Piece} (hseparate : Separate pieces)
    (hhead : (formatText pieces).head? ≠ some logLevelPrefixChar)
    (hshort : (formatOutput pieces).length ≤ 255) (hfuel : pieces.length + 255 < fuel) (sink : Sink ι) :
    ∃ logBuf, print fuel list (formatText pieces) (formatArgs pieces) sink =
      .done ⟨logBuf, sink.writes ++ l.map fun con => (con, formatOutput pieces)⟩ := by
  obtain ⟨out, hout⟩ := @print_lines _ _ _ _ none hlist hconsoles pieces hseparate (fun _ => hhead)
    (by omega) (by omega) sink
  rw [List.take_of_length_le hshort] at hout
  exact ⟨out, hout⟩

end Messages

end UltraKernel.Log
