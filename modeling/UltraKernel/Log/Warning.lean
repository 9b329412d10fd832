import UltraKernel.Log.Conversions

/-!
# What the unwinder's warnings come to on the consoles

Where the unwinder gives up on something that it does not handle, it says so in a line.

* `warningText`: the line;
* `printWarning_prints`: what the consoles are given for an error.
-/

namespace UltraKernel.Log

open Console Format Unwind Outcome

variable {ι : Type}

/-! ### Lines -/

def formatLine (format : ℕ) : List Char :=
  ("unwind: unhandled DWARF format ").toList ++ (decimalText format ++ ("\n").toList)

def scalingLine (scaling : ℕ) : List Char :=
  ("unwind: unhandled DWARF scaling ").toList ++ (decimalText scaling ++ ("\n").toList)

def augmentationLine (augIdx augCh : ℕ) : List Char :=
  ("unwind: unhandled DWARF augmentation @").toList ++ (decimalText augIdx ++
    ((": '").toList ++ ([Char.ofNat augCh] ++ ("'\n").toList)))

def opcodeLine (opcode : ℕ) : List Char :=
  ("unwind: unhandled DWARF CFA opcode 0x").toList ++ (opcodeText opcode ++ ("\n").toList)

def warningText : Warning → List Char
  | .format format => formatLine format.toNat
  | .scaling scaling => scalingLine scaling.toNat
  | .augmentation augIdx augCh => augmentationLine augIdx.toNat augCh.toNat
  | .opcode opcode => opcodeLine opcode.toNat

/-- The lines that an error was returned with: one, or none. -/
def warningLines (ret : Returned) : List (List Char) := (ret.warning.map warningText).toList

@[simp] theorem warningLines_none (value : ErrorT) : warningLines ⟨value, none⟩ = [] := rfl

theorem warningLines_length (ret : Returned) : (warningLines ret).length ≤ 1 := by
  rw [warningLines, Option.length_toList]
  split_ifs
  · exact Nat.le_refl 1
  · exact Nat.zero_le 1

/-! ### Pieces -/

def warningPieces : Warning → List Piece
  | .format format => [.literal ("unwind: unhandled DWARF format ").toList (by decide),
      .starred (decimalConversion (format.setWidth 32)) (decimalConversion_width _),
      .literal ("\n").toList newline_plain]
  | .scaling scaling => [.literal ("unwind: unhandled DWARF scaling ").toList (by decide),
      .starred (decimalConversion (scaling.setWidth 32)) (decimalConversion_width _),
      .literal ("\n").toList newline_plain]
  | .augmentation augIdx augCh => [.literal ("unwind: unhandled DWARF augmentation @").toList (by decide),
      .starred (sizeConversion augIdx) (sizeConversion_width augIdx),
      .literal (": '").toList (by decide), .char (augCh.signExtend 32),
      .literal ("'\n").toList (by decide)]
  | .opcode opcode => [.literal ("unwind: unhandled DWARF CFA opcode 0x").toList (by decide),
      .starred (opcodeConversion (opcode.setWidth 32)) (opcodeConversion_width _),
      .literal ("\n").toList newline_plain]

section Warnings

variable {list : ConsoleList ι} {l : List ι} {fuel : ℕ}

theorem byte_toNat (byte : BitVec 8) : (byte.setWidth 32).toNat = byte.toNat :=
  BitVec.toNat_setWidth_of_le (show 8 ≤ 32 by decide)

/-- A byte, as a decimal number. -/
theorem byteConversion_output (byte : BitVec 8) :
    (decimalConversion (byte.setWidth 32)).conversion.output = decimalText byte.toNat := by
  have hbyte := byte_toNat byte
  rw [decimalConversion_output (by omega), hbyte]

/-- `%c` of a character whose sign was extended. -/
theorem charPiece_output (byte : BitVec 8) :
    (Piece.char (byte.signExtend 32)).output = [Char.ofNat byte.toNat] := by
  have hlow : (byte.signExtend 32).setWidth 8 = byte := by
    ext i hi
    rw [BitVec.getElem_setWidth, BitVec.getLsbD_signExtend, if_pos hi, decide_eq_true (by omega),
      Bool.true_and, BitVec.getLsbD_eq_getElem hi]
  show [Char.ofNat ((byte.signExtend 32).setWidth 8).toNat] = _
  rw [hlow]

theorem warningPieces_output (warning : Warning) :
    formatOutput (warningPieces warning) = warningText warning := by
  cases warning with
  | format format =>
    show _ = formatLine format.toNat
    unfold formatLine
    rw [← byteConversion_output]
    rfl
  | scaling scaling =>
    show _ = scalingLine scaling.toNat
    unfold scalingLine
    rw [← byteConversion_output]
    rfl
  | augmentation augIdx augCh =>
    show _ = augmentationLine augIdx.toNat augCh.toNat
    unfold augmentationLine
    rw [← sizeConversion_output, ← charPiece_output]
    rfl
  | opcode opcode =>
    show _ = opcodeLine opcode.toNat
    unfold opcodeLine
    rw [← byte_toNat opcode, ← opcodeConversion_output]
    rfl

/-- `DW_CFA_remember_state` -/
example : warningText (.opcode 0x0A) = ("unwind: unhandled DWARF CFA opcode 0x0A\n").toList := by
  decide +kernel

/-- **There is room** for a warning. -/
theorem warningText_length_le (warning : Warning) : (warningText warning).length ≤ 100 := by
  cases warning with
  | format format =>
    have hdigits := decimalText_length_le (show format.toNat < 2 ^ 64 by omega)
    show (formatLine format.toNat).length ≤ 100
    unfold formatLine
    rw [List.length_append, List.length_append]
    show 31 + (_ + 1) ≤ 100
    omega
  | scaling scaling =>
    have hdigits := decimalText_length_le (show scaling.toNat < 2 ^ 64 by omega)
    show (scalingLine scaling.toNat).length ≤ 100
    unfold scalingLine
    rw [List.length_append, List.length_append]
    show 32 + (_ + 1) ≤ 100
    omega
  | augmentation augIdx augCh =>
    have hdigits := decimalText_length_le augIdx.isLt
    show (augmentationLine augIdx.toNat augCh.toNat).length ≤ 100
    unfold augmentationLine
    rw [List.length_append, List.length_append]
    show 38 + (_ + 6) ≤ 100
    omega
  | opcode opcode =>
    have hdigits := opcodeText_length_le (show opcode.toNat < 2 ^ 64 by omega)
    show (opcodeLine opcode.toNat).length ≤ 100
    unfold opcodeLine
    rw [List.length_append, List.length_append]
    show 37 + (_ + 1) ≤ 100
    omega

/-- The `pr_warn` is made up of the pieces. -/
theorem warningMessage_eq (warning : Warning) : warningMessage warning =
    (message (some .warn) (formatText (warningPieces warning)), formatArgs (warningPieces warning)) := by
  cases warning with
  | format format => rfl
  | scaling scaling => rfl
  | augmentation augIdx augCh => rfl
  | opcode opcode => rfl

theorem warningPieces_separate (warning : Warning) : Separate (warningPieces warning) := by
  cases warning with
  | format format => exact ⟨trivial, trivial, trivial, trivial⟩
  | scaling scaling => exact ⟨trivial, trivial, trivial, trivial⟩
  | augmentation augIdx augCh => exact ⟨trivial, trivial, trivial, trivial, trivial, trivial⟩
  | opcode opcode => exact ⟨trivial, trivial, trivial, trivial⟩

theorem warningPieces_length (warning : Warning) : (warningPieces warning).length ≤ 5 := by
  cases warning with
  | format format => exact show 3 ≤ 5 by decide
  | scaling scaling => exact show 3 ≤ 5 by decide
  | augmentation augIdx augCh => exact Nat.le_refl 5
  | opcode opcode => exact show 3 ≤ 5 by decide

theorem warningMessage_comesTo (warning : Warning) (hfuel : 300 ≤ fuel) :
    Says fuel (warningMessage warning).1 (warningMessage warning).2 (warningText warning) := by
  have hlength := warningText_length_le warning
  have hpieces := warningPieces_length warning
  rw [warningMessage_eq]
  exact ⟨some .warn, warningPieces warning, rfl, rfl, warningPieces_separate warning,
    (fun h => by cases h), warningPieces_output warning, by omega, by omega⟩

/-- **What the consoles are given** for an error: its warning. -/
theorem printWarning_prints (hlist : Linked list.next list.consoles l) (hconsoles : l.length < fuel)
    (hfuel : 300 ≤ fuel) (ret : Returned) (sink : Sink ι) :
    ∃ logBuf, printWarning fuel list ret sink = .done ⟨logBuf, sink.writes ++
      (warningLines ret).flatMap fun line => l.map fun con => (con, line)⟩ := by
  obtain ⟨value, warning⟩ := ret
  cases warning with
  | none =>
    refine ⟨sink.logBuf, ?_⟩
    show Outcome.done sink = .done ⟨sink.logBuf, sink.writes ++ []⟩
    rw [List.append_nil]
  | some warning =>
    obtain ⟨logBuf, hprint⟩ := (warningMessage_comesTo warning hfuel).print hlist hconsoles sink
    rw [List.take_of_length_le ((warningText_length_le warning).trans (by decide))] at hprint
    refine ⟨logBuf, hprint.trans ?_⟩
    rw [warningLines, Option.map_some, Option.toList_some, List.flatMap_singleton]

end Warnings

end UltraKernel.Log
