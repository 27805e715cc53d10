import Mathlib.Data.List.Perm.Basic
import Theseon.Lib.Bytes

/-!
# Iterators and the merge iterator

The `Iterator` interface is a class over the type of iterator states.  The merge
iterator keeps the children that have a current entry in a priority queue and
always stands on the smallest one.
-/

namespace Theseon.Iterator

open Lib

universe u v

/-- The `Iterator` interface.  `value` is `none` where `Value()` is nil, and an
iterator that reports an error is not valid. -/
class Iter (σ : Type u) (ε : outParam (Type v)) where
  key : σ → Bytes
  value : σ → Option Bytes
  next : σ → σ
  isValid : σ → Bool
  err : σ → Option ε
  invalid_of_err : ∀ it : σ, err it ≠ none → isValid it = false

variable {σ : Type u} {ε : Type v} [Iter σ ε]

open Iter

/-- Reading an iterator to its end yields the listed pairs and leaves the given
error. -/
inductive Drains : σ → List (Bytes × Option Bytes) → Option ε → Prop
  | stop {it : σ} (invalid : isValid it = false) : Drains it [] (err it)
  | step {it : σ} {out : List (Bytes × Option Bytes)} {final : Option ε}
      (valid : isValid it = true) (rest : Drains (next it) out final) :
      Drains it ((key it, value it) :: out) final

/-- `heapItem` without its flag: an item is present only while it is valid. -/
structure HeapItem where
  key : Bytes
  idx : Nat
  deriving DecidableEq, Repr

def HeapItem.Less (a b : HeapItem) : Prop :=
  a.key < b.key ∨ a.key = b.key ∧ a.idx < b.idx

instance (a b : HeapItem) : Decidable (a.Less b) :=
  inferInstanceAs (Decidable (_ ∨ _))

/-- `heap.Push`: the priority queue is the list of its items in the order in
which they will be popped. -/
def heapPush (item : HeapItem) : List HeapItem → List HeapItem
  | [] => [item]
  | first :: rest =>
    if item.Less first then item :: first :: rest else first :: heapPush item rest

structure MergeIterator (σ : Type u) (ε : Type v) where
  iters : List σ
  heap : List HeapItem
  cur : Option HeapItem
  err : Option ε

namespace MergeIterator

def advance (m : MergeIterator σ ε) : MergeIterator σ ε :=
  match m.heap with
  | [] => { m with cur := none }
  | item :: rest => { m with cur := some item, heap := rest }

/-- The items of the children that are valid, from child number `idx` on. -/
def initialHeap (idx : Nat) : List σ → List HeapItem
  | [] => []
  | it :: rest =>
    if isValid it then heapPush ⟨key it, idx⟩ (initialHeap (idx + 1) rest)
    else initialHeap (idx + 1) rest

def new (iters : List σ) : MergeIterator σ ε :=
  advance { iters := iters, heap := initialHeap 0 iters, cur := none, err := none }

def pushNext (m : MergeIterator σ ε) (idx : Nat) : MergeIterator σ ε :=
  match m.iters[idx]? with
  | none => m
  | some it =>
    let it := next it
    let m := { m with iters := m.iters.set idx it }
    match Iter.err it with
    | some err => { m with err := some err }
    | none => if isValid it then { m with heap := heapPush ⟨key it, idx⟩ m.heap } else m

def valid (m : MergeIterator σ ε) : Bool :=
  m.cur.isSome && m.err.isNone

/-- `MergeIterator.Next`. -/
def step (m : MergeIterator σ ε) : MergeIterator σ ε :=
  match m.cur with
  | none => m
  | some item =>
    if m.err.isSome then m
    else
      let m := m.pushNext item.idx
      if m.err.isSome then m else m.advance

/-- The child that produced the current entry. -/
def current (m : MergeIterator σ ε) : Option σ :=
  m.cur.bind fun item => m.iters[item.idx]?

instance : Iter (MergeIterator σ ε) ε where
  key m := (m.current).elim [] key
  value m := (m.current).bind value
  next := step
  isValid := valid
  err := MergeIterator.err
  invalid_of_err := by
    intro m failed
    cases failure : m.err with
    | none => exact absurd failure failed
    | some _ => simp [valid, failure]

end MergeIterator

end Theseon.Iterator
