import Mathlib.Data.List.Range
import Theseon.KV.Versions
import Theseon.Lib.Chain

/-!
# The skip list

Nodes live in an arena and refer to one another by index; index `0` is the head.
`next` has one pointer per level of the node's tower.  The random tower height
of an insertion is an argument of `put`.

`Ordered` is the representation invariant: every level is the chain of the nodes
tall enough for it, in one common order that is sorted by key.  It gives the
exact meaning of `findGreaterOrEqual` and of `put` on the sequence of stored
entries.
-/

namespace Theseon.Memtable

open Lib KV

/-- Greatest tower height. -/
def maxHeight : Nat := 12

/-- `skipListNode`. -/
structure Node where
  key : Bytes
  value : Value
  next : List (Option Nat)
  deriving DecidableEq, Repr

/-- `SkipList` with the arena its node pointers refer to. -/
structure SkipList where
  nodes : List Node
  height : Nat
  size : Nat
  dataSize : Nat
  deriving DecidableEq, Repr

namespace SkipList

/-- The arena index of the head node. -/
def head : Nat := 0

def new : SkipList where
  nodes := [⟨[], ⟨none, false⟩, List.replicate maxHeight none⟩]
  height := 1
  size := 0
  dataSize := 0

/-- `x.next[level]`. -/
def nextAt (s : SkipList) (level x : Nat) : Option Nat :=
  ((s.nodes[x]?).bind fun node => node.next[level]?).join

/-- `x.key`. -/
def keyAt (s : SkipList) (x : Nat) : Bytes :=
  (s.nodes[x]?).elim [] Node.key

/-- `x.value`. -/
def valueAt (s : SkipList) (x : Nat) : Value :=
  (s.nodes[x]?).elim ⟨none, false⟩ Node.value

/-- `len(x.next)`, the height of a node's tower. -/
def heightAt (s : SkipList) (x : Nat) : Nat :=
  (s.nodes[x]?).elim 0 fun node => node.next.length

/-- The outer loop of `findGreaterOrEqual`: on each level from the top, advance
while the next key is below the target, and record the node reached. -/
def descend (s : SkipList) (target : Bytes) : Nat → Nat → List Nat → Nat × List Nat
  | 0, x, prev => (x, prev)
  | level + 1, x, prev =>
    let y := advanceWhile (s.nextAt level) (fun y => s.keyAt y < target) s.nodes.length x
    s.descend target level y (y :: prev)

/-- `findGreaterOrEqual`: the first node with a key at or above the target, and
the predecessors on the levels in use. -/
def findGreaterOrEqual (s : SkipList) (target : Bytes) : Option Nat × List Nat :=
  let reached := s.descend target s.height head []
  (s.nextAt 0 reached.1, reached.2)

/-- `prev[level].next[level] = node`. -/
def link (nodes : List Node) (prev level node : Nat) : List Node :=
  nodes.modify prev fun old => { old with next := old.next.set level (some node) }

/-- The predecessors of an insertion of height `h`: levels not yet in use start
at the head. -/
def predecessors (s : SkipList) (internalKey : Bytes) (h : Nat) : List Nat :=
  (s.findGreaterOrEqual internalKey).2 ++ List.replicate (h - s.height) head

/-- `Put` with a tower of height `h`. -/
def put (s : SkipList) (internalKey : Bytes) (value : Value) (h : Nat) : SkipList :=
  let prev := s.predecessors internalKey h
  let node : Node :=
    { key := internalKey
      value := value
      next := (List.range h).map fun i => s.nextAt i (prev.getD i head) }
  { nodes := (List.range h).foldl
      (fun nodes i => link nodes (prev.getD i head) i s.nodes.length) s.nodes ++ [node]
    height := max s.height h
    size := s.size + 1
    dataSize := s.dataSize + (internalKey.length + value.encodedSize) }

def get (s : SkipList) (user : Bytes) : Option Value :=
  match (s.findGreaterOrEqual (makeSearchKey user)).1 with
  | some x => if userKey (s.keyAt x) = user then some (s.valueAt x) else none
  | none => none

def getNewest (s : SkipList) (user : Bytes) : Option (Value × Nat) :=
  match (s.findGreaterOrEqual (makeSearchKey user)).1 with
  | some x =>
    if userKey (s.keyAt x) = user then some (s.valueAt x, seqNum (s.keyAt x)) else none
  | none => none

/-- The loop of `GetAt`, along level 0. -/
def getAtFrom (s : SkipList) (user : Bytes) (maxSeq : Nat) : Nat → Option Nat → Option Value
  | _, none => none
  | 0, some _ => none
  | fuel + 1, some x =>
    if userKey (s.keyAt x) = user then
      if seqNum (s.keyAt x) ≤ maxSeq then some (s.valueAt x)
      else s.getAtFrom user maxSeq fuel (s.nextAt 0 x)
    else none

def getAt (s : SkipList) (user : Bytes) (maxSeq : Nat) : Option Value :=
  s.getAtFrom user maxSeq s.nodes.length (s.findGreaterOrEqual (makeSearchKey user)).1

/-- The stored entry of a node. -/
def entryAt (s : SkipList) (x : Nat) : Entry :=
  ⟨s.keyAt x, s.valueAt x⟩

/-- The nodes of `order` that have a pointer at `level`. -/
def levelOf (s : SkipList) (order : List Nat) (level : Nat) : List Nat :=
  order.filter fun x => level < s.heightAt x

/-- Representation invariant: `order` lists the nodes of the bottom level. -/
structure Ordered (s : SkipList) (order : List Nat) : Prop where
  count : order.length + 1 = s.nodes.length
  inArena : ∀ x ∈ order, x < s.nodes.length
  nodup : (head :: order).Nodup
  sorted : order.Pairwise fun x y => s.keyAt x ≤ s.keyAt y
  chain : ∀ level < maxHeight, Chain (s.nextAt level) head (s.levelOf order level)
  towers : ∀ x ∈ order, 1 ≤ s.heightAt x ∧ s.heightAt x ≤ s.height
  headTower : s.heightAt head = maxHeight
  height : 1 ≤ s.height ∧ s.height ≤ maxHeight
  size : s.size = order.length

theorem new_ordered : Ordered new [] where
  count := rfl
  inArena := by simp
  nodup := by simp
  sorted := List.Pairwise.nil
  chain := by
    intro level levelLt
    change ((List.replicate maxHeight (none : Option Nat))[level]?).join = none
    simp only [List.getElem?_replicate, levelLt, if_true, Option.join_some]
  towers := by simp
  headTower := rfl
  height := by decide
  size := rfl

end SkipList

end Theseon.Memtable
