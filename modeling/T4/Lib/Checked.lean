import T4.Lib.Bytes

/-!
# Checked access to a buffer

A decoder that takes apart a buffer by offsets either returns a value, returns an
error of its own, or accesses a byte that is not there. `Checked` keeps the three
apart: `Fault.outOfRange` stands for the panic, `Fault.error` for an error that the
decoder returns.
-/

namespace T4.Lib

inductive Fault (ε : Type*)
  | outOfRange
  | error (e : ε)
  deriving DecidableEq

abbrev Checked (ε α : Type) := Except (Fault ε) α

namespace Checked

open Bytes

variable {ε α : Type}

def reject (e : ε) : Checked ε α := .error (.error e)

/-- The bytes of `b` from offset `i` up to `j`, which must lie in the buffer. -/
def slice (b : Bytes) (i j : Nat) : Checked ε Bytes :=
  if i ≤ j ∧ j ≤ b.length then .ok (Bytes.slice b i j) else .error .outOfRange

/-- The byte at offset `i`. -/
def byte (b : Bytes) (i : Nat) : Checked ε UInt8 :=
  if i < b.length then .ok ((b.drop i).headD 0) else .error .outOfRange

/-- A decoder that never leaves its buffer. -/
def ofExcept : Except ε α → Checked ε α
  | .ok a => .ok a
  | .error e => reject e

theorem ofExcept_ne_outOfRange (r : Except ε α) : ofExcept r ≠ .error .outOfRange := by
  cases r <;> simp [ofExcept, reject]

@[simp]
theorem ofExcept_ok (a : α) : ofExcept (.ok a : Except ε α) = .ok a := rfl

@[simp]
theorem ofExcept_error (e : ε) : ofExcept (.error e : Except ε α) = reject e := rfl

theorem slice_of_le {b : Bytes} {i j : Nat} (ordered : i ≤ j) (within : j ≤ b.length) :
    (slice b i j : Checked ε Bytes) = .ok (Bytes.slice b i j) :=
  if_pos ⟨ordered, within⟩

theorem byte_of_lt {b : Bytes} {i : Nat} (within : i < b.length) :
    (byte b i : Checked ε UInt8) = .ok ((b.drop i).headD 0) :=
  if_pos within

end Checked

namespace Bytes

theorem slice_drop (b : Bytes) (off i j : Nat) :
    slice (b.drop off) i j = slice b (off + i) (off + j) := by
  rw [slice, slice, List.drop_drop, Nat.add_sub_add_left]

theorem slice_append_of_le {a b : Bytes} {i j : Nat} (within : j ≤ a.length) :
    slice (a ++ b) i j = slice a i j := by
  by_cases ordered : i ≤ j
  · rw [slice, slice, List.drop_append_of_le_length (ordered.trans within),
      List.take_append_of_le_length (by rw [List.length_drop]; omega)]
  · rw [slice, slice, Nat.sub_eq_zero_of_le (by omega), List.take_zero, List.take_zero]

end Bytes

end T4.Lib
