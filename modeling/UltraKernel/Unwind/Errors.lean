import UltraKernel.Unwind.Data

/-!
# The errors of the readers

What reads unwind data fails only where bytes are missing, or with a warning where an encoding is not
handled.

* `decodeValue_raises`: the codes that a value fails with;
* `ReadError.ne_eok`, `ReadError.lt`: these are errors, and positive numbers.
-/

namespace UltraKernel.Unwind

open Program

/-- Whatever the state is. -/
abbrev Anyway {σ : Type} : σ → Prop := fun _ => True

/-- What a reader fails with. -/
def ReadError (e : Returned) : Prop := e = einval ∨ e = erange ∨ ∃ w, e = ⟨enosys, some w⟩

theorem ReadError.ne_eok {e : Returned} (h : ReadError e) : e.value ≠ eok := by
  rcases h with rfl | rfl | ⟨_, rfl⟩
  · decide
  · decide
  · exact show enosys ≠ eok by decide

theorem ReadError.lt {e : Returned} (h : ReadError e) : e.value < 2 ^ 31 := by
  rcases h with rfl | rfl | ⟨_, rfl⟩
  · decide
  · decide
  · exact show enosys < 2 ^ 31 by decide

section Readers

variable {m : Machine} {fuel : ℕ} {E : Returned → Prop}

theorem consumeRaw_raises (numBytes : ℕ) : Raises Anyway E (consumeRaw m numBytes) := by
  intro data _
  rw [consumeRaw]
  split_ifs
  · trivial
  · trivial

theorem consumeChecked_raises (numBytes : ℕ) {e : ErrorT} (he : E e) :
    Raises Anyway E (consumeChecked m numBytes e) :=
  Raises.get_bind fun _ _ => Raises.bind (Raises.refuse he) fun _ => consumeRaw_raises numBytes

theorem leb128Loop_raises (value : BitVec 64) (numBits : ℕ) :
    Raises Anyway ReadError (leb128Loop m fuel value numBits) := by
  induction fuel generalizing value numBits with
  | zero => exact Raises.outOfFuel
  | succ fuel ih =>
    rw [leb128Loop]
    refine Raises.bind (consumeChecked_raises 1 (.inr (.inl rfl))) fun byte => ?_
    dsimp only
    split_ifs
    · exact ih _ _
    · exact Raises.pure _

theorem copyData_raises (format numBytes outValue : ℕ) :
    Raises Anyway ReadError (copyData m format numBytes outValue) :=
  Raises.bind (consumeChecked_raises numBytes (.inl rfl)) fun _ => Raises.pure _

theorem decodeFormat_raises (format outValue : ℕ) :
    Raises Anyway ReadError (decodeFormat m fuel format outValue) := by
  unfold decodeFormat
  split_ifs
  · exact copyData_raises format _ outValue
  · exact Raises.bind (leb128Loop_raises _ _) fun _ => Raises.pure _
  · exact copyData_raises format _ outValue
  · exact copyData_raises format _ outValue
  · exact copyData_raises format _ outValue
  · exact Raises.fail (.inr (.inr ⟨_, rfl⟩))

theorem scalingBase_raises (encoding : ℕ) : Raises Anyway ReadError (scalingBase m encoding) := by
  apply Raises.get_bind
  intro data _
  split_ifs
  · exact Raises.pure _
  · exact Raises.pure _
  · exact Raises.pure _
  · exact Raises.pure _
  · exact Raises.fail (.inr (.inr ⟨_, rfl⟩))

/-- **A value that is not decoded.** -/
theorem decodeValue_raises (encoding : ℕ) : Raises Anyway ReadError (decodeValue m fuel encoding) :=
  Raises.bind (scalingBase_raises encoding) fun _ => decodeFormat_raises _ _

end Readers

end UltraKernel.Unwind
