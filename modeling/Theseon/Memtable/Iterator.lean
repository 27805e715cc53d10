import Theseon.Memtable.Memtable

/-!
# Iterating over a memtable

The skip list iterator follows the bottom level of the list from a start node to
the end, or up to the first key that is not below its bound.
-/

namespace Theseon

open Lib KV

/-- `SkipListIterator`, with the entries from its current node on. -/
structure SkipListIterator where
  rest : List Entry
  endKey : Option Bytes
  deriving DecidableEq, Repr

namespace SkipListIterator

def checkBound (it : SkipListIterator) : SkipListIterator :=
  match it.rest, it.endKey with
  | current :: _, some endKey => if endKey ≤ current.key then { it with rest := [] } else it
  | _, _ => it

def new (start : List Entry) (endKey : Option Bytes) : SkipListIterator :=
  checkBound ⟨start, endKey⟩

def isValid (it : SkipListIterator) : Bool :=
  !it.rest.isEmpty

def key (it : SkipListIterator) : Bytes :=
  (it.rest.head?).elim [] Entry.key

def value (it : SkipListIterator) : Option Bytes :=
  (it.rest.head?).bind fun current =>
    if current.value.tombstone then none else current.value.data

def next (it : SkipListIterator) : SkipListIterator :=
  checkBound { it with rest := it.rest.tail }

@[simp]
theorem checkBound_unbounded (rest : List Entry) : checkBound ⟨rest, none⟩ = ⟨rest, none⟩ := by
  cases rest <;> rfl

end SkipListIterator

namespace Memtable

def scan (m : Memtable) : SkipListIterator :=
  .new m.entries none

def scanRange (m : Memtable) (start stop : Option Bytes) : SkipListIterator :=
  .new (start.elim m.entries fun start => seek (makeSearchKey start) m.entries)
    (stop.map makeSearchKey)

end Memtable

end Theseon
