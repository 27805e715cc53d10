import Theseon.Lib.Bytes

/-!
# Stored values

A value is data or a tombstone.  The data is an optional byte string because
the storage engine distinguishes a nil slice from an empty one in one place:
iterators report a tombstone as a nil value.
-/

namespace Theseon.KV

open Lib

/-- `Value`.  `data = none` is the nil slice. -/
structure Value where
  data : Option Bytes
  tombstone : Bool
  deriving DecidableEq, Repr

namespace Value

def new (data : Option Bytes) : Value :=
  ⟨data, false⟩

def newTombstone : Value :=
  ⟨none, true⟩

/-- The bytes of the data, empty for a nil slice. -/
def bytes (value : Value) : Bytes :=
  value.data.getD []

def encodedSize (value : Value) : Nat :=
  value.bytes.length + 1

/-- A regular value with non-nil data, or the tombstone: the values an iterator
hands on unchanged. -/
def Clean (value : Value) : Prop :=
  value = newTombstone ∨ ∃ data, value = new (some data)

instance (value : Value) : Decidable value.Clean :=
  match value with
  | ⟨none, true⟩ => isTrue (.inl rfl)
  | ⟨some data, false⟩ => isTrue (.inr ⟨data, rfl⟩)
  | ⟨none, false⟩ => isFalse (by simp [Clean, newTombstone, new])
  | ⟨some _, true⟩ => isFalse (by simp [Clean, newTombstone, new])

/-- What an iterator hands on: its `Value()` is nil for a tombstone, and its
consumers read a nil value as a tombstone. -/
def viaIterator (value : Value) : Value :=
  if value.tombstone then newTombstone
  else
    match value.data with
    | none => newTombstone
    | some data => new (some data)

/-- What a block stores and reads back: a flag, and the data of a put. -/
def stored (value : Value) : Value :=
  if value.tombstone then newTombstone else new (some value.bytes)

/-- The values that a write stores: `Put` may be given a nil value. -/
def Written (value : Value) : Prop :=
  value = newTombstone ∨ ∃ data, value = new data

variable {value : Value}

theorem Written.clean_or_nil (written : value.Written) : value.Clean ∨ value = new none := by
  rcases written with rfl | ⟨_ | data, rfl⟩
  · exact .inl (.inl rfl)
  · exact .inr rfl
  · exact .inl (.inr ⟨data, rfl⟩)

theorem Clean.viaIterator_eq (clean : value.Clean) : value.viaIterator = value := by
  rcases clean with rfl | ⟨data, rfl⟩ <;> rfl

theorem Clean.stored_eq (clean : value.Clean) : value.stored = value := by
  rcases clean with rfl | ⟨data, rfl⟩ <;> rfl

theorem clean_viaIterator (value : Value) : value.viaIterator.Clean := by
  rcases value with ⟨_ | data, _ | _⟩
  · exact .inl rfl
  · exact .inl rfl
  · exact .inr ⟨data, rfl⟩
  · exact .inl rfl

theorem clean_stored (value : Value) : value.stored.Clean := by
  rcases value with ⟨data, _ | _⟩
  · exact .inr ⟨_, rfl⟩
  · exact .inl rfl

end Value

/-- A stored version: internal key and value. -/
structure Entry where
  key : Bytes
  value : Value
  deriving DecidableEq, Repr

end Theseon.KV
