import Theseon.HLC.Timestamp

/-!
# The Merkle tree of a keyspace

Every key belongs to a leaf by its hash.  A leaf is the XOR of the hashes of its
entries, and an inner node the hash of its children.  Two nodes compare their trees
from the root and descend only where the hashes differ.

The hash function `sum64` is a parameter.
-/

namespace Theseon.AntiEntropy

open Lib HLC List

/-- What the tree knows of a stored envelope.  The value is left out. -/
structure Entry where
  key : Bytes
  timestamp : Timestamp
  deleted : Bool
  deriving DecidableEq, Repr

inductive TreeError where
  | fanout (fanout : Nat)
  | depth (depth : Nat)
  | overflow
  | pathTooLong (length depth : Nat)
  | leavesHaveNoChildren
  | pathElement (p fanout : Nat)
  deriving DecidableEq, Repr

/-- The nodes of a tree, level by level from the root. -/
structure Tree where
  fanout : Nat
  depth : Nat
  levels : List (List UInt64)
  deriving DecidableEq, Repr

/-- The number of the node that a path leads to, within its level. -/
def index (fanout : Nat) (path : List Nat) : Nat :=
  path.foldl (fun idx p => idx * fanout + p) 0

section Hashes

variable (sum64 : Bytes → UInt64)

/-- The hash of an entry.  A timestamp that cannot be encoded counts as no bytes. -/
def entryHash (e : Entry) : UInt64 :=
  let tsBytes := match e.timestamp.encode with
    | .ok bytes => bytes
    | .error _ => []
  sum64 e.key ^^^ sum64 tsBytes ^^^ (if e.deleted then 1 else 0)

def hashChildren (children : List UInt64) : UInt64 :=
  sum64 (children.flatMap fun h => bigEndian 8 h.toNat)

end Hashes

namespace Tree

/-- An empty tree.  The number of leaves has to fit an `int`. -/
def new (fanout depth : Nat) : Except TreeError Tree :=
  if fanout < 2 then .error (.fanout fanout)
  else if depth < 1 ∨ 8 < depth then .error (.depth depth)
  else if 2 ^ 63 ≤ fanout ^ depth then .error .overflow
  else .ok ⟨fanout, depth, (List.range (depth + 1)).map fun i => List.replicate (fanout ^ i) 0⟩

def level (t : Tree) (i : Nat) : List UInt64 :=
  t.levels.getD i []

def numLeaves (t : Tree) : Nat :=
  (t.level t.depth).length

def root (t : Tree) : UInt64 :=
  (t.level 0).getD 0 0

def leafHash (t : Tree) (idx : Nat) : UInt64 :=
  (t.level t.depth).getD idx 0

/-- The children of the inner node that a path leads to. -/
def childrenAt (t : Tree) (path : List Nat) : Except TreeError (List UInt64) :=
  if t.depth + 1 ≤ path.length then .error (.pathTooLong path.length t.depth)
  else if path.length = t.depth then .error .leavesHaveNoChildren
  else
    match path.find? fun p => t.fanout ≤ p with
    | some p => .error (.pathElement p t.fanout)
    | none =>
      .ok (((t.level (path.length + 1)).drop (index t.fanout path * t.fanout)).take t.fanout)

variable (sum64 : Bytes → UInt64)

def bucketFor (t : Tree) (key : Bytes) : Nat :=
  (sum64 key).toNat % t.numLeaves

/-- Mix an entry into its leaf. -/
def accumulateEntry (t : Tree) (e : Entry) : Tree :=
  { t with
    levels := t.levels.modify t.depth fun leaves =>
      leaves.modify (t.bucketFor sum64 e.key) (· ^^^ entryHash sum64 e) }

/-- Compute the nodes of a level from those below. -/
def finalizeLevel (t : Tree) (i : Nat) : Tree :=
  { t with
    levels := t.levels.modify i fun parent => parent.mapIdx fun j _ =>
      hashChildren sum64 (((t.level (i + 1)).drop (j * t.fanout)).take t.fanout) }

/-- Compute the inner nodes from the leaves up to the root. -/
def finalize (t : Tree) : Tree :=
  (List.range t.depth).reverse.foldl (fun t i => t.finalizeLevel sum64 i) t

/-- The tree of the entries that are older than the cutoff. -/
def build (entries : List Entry) (graceCutoffWall : Int64) (fanout depth : Nat) :
    Except TreeError Tree :=
  match new fanout depth with
  | .error err => .error err
  | .ok t =>
    .ok (((entries.filter fun e => e.timestamp.wallTime < graceCutoffWall).foldl
      (accumulateEntry sum64) t).finalize sum64)

end Tree

/-! ## The descent -/

inductive DescentError (ε : Type) where
  | localChildren (path : List Nat) (err : TreeError)
  | subtree (path : List Nat) (err : ε)
  | childCount (got expected : Nat)
  deriving DecidableEq, Repr

section Descent

variable {ε : Type}

/-- The children of a node whose hashes differ. -/
def mismatches (path : List Nat) (peerHashes localHashes : List UInt64) : List (List Nat) :=
  ((List.range peerHashes.length).filter fun i =>
    peerHashes.getD i 0 ≠ localHashes.getD i 0).map fun i => path ++ [i]

/-- Compare the children of a node with those that the peer reports. -/
def compareChildren (peer : List Nat → Except ε (List UInt64)) (t : Tree) (path : List Nat) :
    Except (DescentError ε) (List (List Nat)) :=
  match t.childrenAt path with
  | .error err => .error (.localChildren path err)
  | .ok localHashes =>
    match peer path with
    | .error err => .error (.subtree path err)
    | .ok peerHashes =>
      if peerHashes.length ≠ localHashes.length then
        .error (.childCount peerHashes.length localHashes.length)
      else .ok (mismatches path peerHashes localHashes)

/-- Compare the nodes of one level, in order. -/
def compareLevel (peer : List Nat → Except ε (List UInt64)) (t : Tree) :
    List (List Nat) → Except (DescentError ε) (List (List Nat))
  | [] => .ok []
  | path :: queue =>
    match compareChildren peer t path with
    | .error err => .error err
    | .ok children =>
      match compareLevel peer t queue with
      | .error err => .error err
      | .ok others => .ok (children ++ others)

/-- The search is breadth first: the queue holds all paths of a level before those
of the next, so that a level is worked off as a whole. -/
def descend (peer : List Nat → Except ε (List UInt64)) (t : Tree) :
    Nat → List (List Nat) → Except (DescentError ε) (List (List Nat))
  | 0, queue => .ok queue
  | below + 1, queue =>
    match compareLevel peer t queue with
    | .error err => .error err
    | .ok next => descend peer t below next

/-- The leaves that differ. -/
def findDivergentBuckets (peer : List Nat → Except ε (List UInt64)) (t : Tree) :
    Except (DescentError ε) (List Nat) :=
  match descend peer t t.depth [[]] with
  | .error err => .error err
  | .ok paths => .ok (paths.map (index t.fanout))

end Descent

/-! ## The shape of a tree -/

namespace Tree

/-- Level `i` has `fanout ^ i` nodes. -/
structure Shaped (t : Tree) : Prop where
  fanout_pos : 0 < t.fanout
  level_length : ∀ i ≤ t.depth, (t.level i).length = t.fanout ^ i

theorem Shaped.numLeaves_eq {t : Tree} (shaped : t.Shaped) : t.numLeaves = t.fanout ^ t.depth :=
  shaped.level_length t.depth le_rfl

variable {fanout depth : Nat}

theorem new_eq_ok {t : Tree} (created : new fanout depth = .ok t) :
    t.fanout = fanout ∧ t.depth = depth ∧ t.Shaped := by
  rw [new] at created
  split at created
  · cases created
  rename_i wide
  split at created
  · cases created
  split at created
  · cases created
  cases created
  constructor
  · rfl
  · constructor
    · rfl
    · constructor
      · exact Nat.lt_of_lt_of_le Nat.two_pos (Nat.le_of_not_lt wide)
      · intro i within
        have inside : i < depth + 1 := Nat.lt_succ_of_le within
        simp [level, getD_eq_getElem?_getD, inside]

/-- The shapes that `new` accepts. -/
theorem new_accepts {t : Tree} (accepted : new fanout depth = .ok t) :
    2 ≤ fanout ∧ 0 < depth ∧ fanout ^ depth < 2 ^ 63 := by
  rw [new] at accepted
  split at accepted
  · cases accepted
  split at accepted
  · cases accepted
  split at accepted
  · cases accepted
  omega

end Tree

end Theseon.AntiEntropy
