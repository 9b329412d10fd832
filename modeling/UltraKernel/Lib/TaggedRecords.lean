import Mathlib.Algebra.Group.Nat.Defs
import Mathlib.Data.Nat.Notation
import Mathlib.Data.List.Basic
import Mathlib.Tactic.TypeStar

/-!
# Records with a tag and a size

A record has a header, with a tag and the size of the whole record in a fixed number of bytes each, and
a body.  Numbers are in little-endian order.

* `Lies`: bytes lie in the memory from an address on;
* `numberAt_little`: a number is read back;
* `tag_read`, `size_read_back`, `body_lies`: a record is read back.
-/

namespace UltraKernel

/-! ### Bytes in memory -/

/-- The bytes lie in the memory from an address on. -/
def Lies {β : Type*} (mem : ℕ → β) : ℕ → List β → Prop
  | _, [] => True
  | address, b :: bytes => mem address = b ∧ Lies mem (address + 1) bytes

instance Lies.decidable {β : Type*} [DecidableEq β] (mem : ℕ → β) :
    ∀ (address : ℕ) (bytes : List β), Decidable (Lies mem address bytes)
  | _, [] => instDecidableTrue
  | address, b :: bytes =>
    have := Lies.decidable mem (address + 1) bytes
    inferInstanceAs (Decidable (mem address = b ∧ Lies mem (address + 1) bytes))

section Lies

variable {β : Type*} {mem : ℕ → β} {address : ℕ} {bytes more : List β}

theorem lies_append :
    Lies mem address (bytes ++ more) ↔ Lies mem address bytes ∧ Lies mem (address + bytes.length) more := by
  induction bytes generalizing address with
  | nil => exact (true_and _).symm ▸ Iff.rfl
  | cons b bytes ih =>
    show (_ ∧ Lies mem (address + 1) (bytes ++ more)) ↔ _
    rw [ih, List.length_cons, show address + 1 + bytes.length = address + (bytes.length + 1) by omega]
    exact and_assoc.symm

theorem Lies.eq (h : Lies mem address bytes) :
    (List.range bytes.length).map (fun i => mem (address + i)) = bytes := by
  induction bytes generalizing address with
  | nil => rfl
  | cons b bytes ih =>
    rw [List.length_cons, List.range_succ_eq_map, List.map_cons, List.map_map]
    have hrest : (List.range bytes.length).map ((fun i => mem (address + i)) ∘ Nat.succ) = bytes := by
      refine (List.map_congr_left fun i _ => ?_).trans (ih h.2)
      exact congrArg mem (by rw [Nat.succ_eq_add_one]; omega)
    rw [hrest]
    exact congrArg (· :: bytes) h.1

end Lies

/-! ### Numbers -/

/-- The bytes of a number, the lowest first. -/
def little : ℕ → ℕ → List (BitVec 8)
  | 0, _ => []
  | width + 1, n => BitVec.ofNat 8 n :: little width (n / 256)

/-- The number that bytes stand for. -/
def number : List (BitVec 8) → ℕ
  | [] => 0
  | b :: bytes => b.toNat + 256 * number bytes

/-- The number in some bytes of the memory. -/
def numberAt (mem : ℕ → BitVec 8) (address width : ℕ) : ℕ :=
  number ((List.range width).map fun i => mem (address + i))

section Numbers

variable {mem : ℕ → BitVec 8} {address width n : ℕ}

theorem little_length (width n : ℕ) : (little width n).length = width := by
  induction width generalizing n with
  | zero => rfl
  | succ width ih => rw [little, List.length_cons, ih]

theorem number_little (width n : ℕ) : number (little width n) = n % 256 ^ width := by
  induction width generalizing n with
  | zero => rw [Nat.pow_zero, Nat.mod_one]; rfl
  | succ width ih =>
    have hpow : 256 ^ (width + 1) = 256 * 256 ^ width := by rw [Nat.pow_succ, Nat.mul_comm]
    rw [little, number, ih, BitVec.toNat_ofNat, hpow, Nat.mod_mul]

/-- **A number is read back.** -/
theorem numberAt_little (h : Lies mem address (little width n)) (hn : n < 256 ^ width) :
    numberAt mem address width = n := by
  have hbytes := h.eq
  rw [little_length] at hbytes
  rw [numberAt, hbytes, number_little, Nat.mod_eq_of_lt hn]

end Numbers

/-! ### Records -/

/-- A record: what is behind its header belongs to its tag. -/
structure TaggedRecord where
  tag : ℕ
  body : List (BitVec 8)

/-- The tag and the size have `width` bytes each. -/
def TaggedRecord.size (width : ℕ) (record : TaggedRecord) : ℕ := 2 * width + record.body.length

def TaggedRecord.bytes (width : ℕ) (record : TaggedRecord) : List (BitVec 8) :=
  little width record.tag ++ (little width (record.size width) ++ record.body)

/-- The tag and the size have room in the header. -/
structure TaggedRecord.Fits (width : ℕ) (record : TaggedRecord) : Prop where
  tag : record.tag < 256 ^ width
  size : record.size width < 256 ^ width

section Records

variable {mem : ℕ → BitVec 8} {width address : ℕ} {record : TaggedRecord}

theorem TaggedRecord.bytes_length (record : TaggedRecord) :
    (record.bytes width).length = record.size width := by
  rw [bytes, List.length_append, List.length_append, little_length, little_length, size]
  omega

theorem tag_read (h : Lies mem address (record.bytes width)) (hfits : record.Fits width) :
    numberAt mem address width = record.tag :=
  numberAt_little (lies_append.mp h).1 hfits.tag

theorem size_read_back (h : Lies mem address (record.bytes width)) (hfits : record.Fits width) :
    numberAt mem (address + width) width = record.size width := by
  have hrest := (lies_append.mp h).2
  rw [little_length] at hrest
  exact numberAt_little (lies_append.mp hrest).1 hfits.size

theorem body_lies (h : Lies mem address (record.bytes width)) :
    Lies mem (address + 2 * width) record.body := by
  have hrest := (lies_append.mp h).2
  rw [little_length] at hrest
  have hbody := (lies_append.mp hrest).2
  rwa [little_length, Nat.add_assoc, ← Nat.two_mul] at hbody

end Records

end UltraKernel
