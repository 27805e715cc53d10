import Theseon.Lib.Endian

/-!
# Checked access to byte strings

Slice and index expressions that report when they leave the string.  A slice is held
to the length of the string.
-/

namespace Theseon.Lib

universe u v

/-- How an evaluation ends without a value: an expression is out of range (or divides by
zero), or an error is returned. -/
inductive Fault (ε : Type u) where
  | outOfRange
  | failed (err : ε)
  deriving DecidableEq, Repr

/-- An evaluation whose slice and index expressions are checked. -/
abbrev Checked (ε : Type u) (α : Type v) :=
  Except (Fault ε) α

namespace Checked

variable {ε : Type u} {α : Type v}

/-- Return an error. -/
def fail (err : ε) : Checked ε α :=
  .error (.failed err)

/-- No expression is out of range. -/
def Safe (x : Checked ε α) : Prop :=
  x ≠ .error .outOfRange

end Checked

/-- `data[low:high]`. -/
def slice {ε : Type u} (data : Bytes) (low high : Nat) : Checked ε Bytes :=
  if low ≤ high ∧ high ≤ data.length then .ok ((data.drop low).take (high - low))
  else .error .outOfRange

/-- `data[i]`. -/
def index {ε : Type u} (data : Bytes) (i : Nat) : Checked ε UInt8 :=
  if i < data.length then .ok (data.getD i 0) else .error .outOfRange

/-- The little-endian number of `width` bytes at the front of `data[offset:]`. -/
def uintAt {ε : Type u} (width : Nat) (data : Bytes) (offset : Nat) : Checked ε Nat :=
  (slice data offset (offset + width)).map ofLittleEndian

/-- The big-endian number of `width` bytes at the front of `data[offset:]`. -/
def bigUintAt {ε : Type u} (width : Nat) (data : Bytes) (offset : Nat) : Checked ε Nat :=
  (slice data offset (offset + width)).map ofBigEndian

section

variable {ε : Type u} {data : Bytes}

variable {width : Nat} {front back : Bytes}

/-- A read in front of `stop` does not see what is behind it. -/
theorem take_drop_take {skip stop : Nat} (within : skip + width ≤ stop) :
    ((data.take stop).drop skip).take width = (data.drop skip).take width := by
  rw [List.drop_take, List.take_take, Nat.min_eq_left (by omega)]

theorem slice_eq_ok {low high : Nat} (ordered : low ≤ high) (within : high ≤ data.length) :
    (slice data low high : Checked ε Bytes) = .ok ((data.drop low).take (high - low)) :=
  if_pos ⟨ordered, within⟩

/-- Behind the first byte the offsets count from there. -/
theorem slice_cons {byte : UInt8} {low high : Nat} :
    (slice (byte :: data) (low + 1) (high + 1) : Checked ε Bytes) = slice data low high := by
  simp [slice]

theorem index_eq_ok {i : Nat} (within : i < data.length) :
    (index data i : Checked ε UInt8) = .ok (data.getD i 0) :=
  if_pos within

theorem uintAt_eq_ok {offset : Nat} (within : offset + width ≤ data.length) :
    (uintAt width data offset : Checked ε Nat) =
      .ok (ofLittleEndian ((data.drop offset).take width)) := by
  rw [uintAt, slice_eq_ok (Nat.le_add_right _ _) within, Nat.add_sub_cancel_left]
  rfl

theorem bigUintAt_eq_ok {offset : Nat} (within : offset + width ≤ data.length) :
    (bigUintAt width data offset : Checked ε Nat) =
      .ok (ofBigEndian ((data.drop offset).take width)) := by
  rw [bigUintAt, slice_eq_ok (Nat.le_add_right _ _) within, Nat.add_sub_cancel_left]
  rfl

end

end Theseon.Lib
