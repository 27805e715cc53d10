import Theseon.Lib.Bytes
import Theseon.Lib.KeyedMap
import Theseon.Lib.Search
import Theseon.Lib.Sorter

/-!
# The consistent hash ring

Every node owns a number of points on the ring, its virtual nodes, which are kept
in the order of their hashes.  A key belongs to the nodes that own the next points
clockwise from its own hash.  The hash function `sum64` is a parameter.
-/

namespace Theseon.Hashring

open Lib
open Std (ExtTreeMap ExtTreeSet LawfulEqCmp)

/-- A physical node. -/
structure Node where
  id : Bytes
  addr : Bytes
  deriving DecidableEq, Repr, Inhabited

/-- A point on the ring. -/
structure Vnode where
  hash : UInt64
  nodeID : Bytes
  deriving DecidableEq, Repr

/-- The order in which the points are sorted. -/
def Vnode.position (v : Vnode) : Nat :=
  v.hash.toNat

/-- The digits that `strconv.AppendInt` appends. -/
def decimal (i : Nat) : Bytes :=
  (Nat.toDigits 10 i).map fun c => c.toNat.toUInt8

/-- The position of a virtual node: the hash of `nodeID-index`. -/
def hashVnode (sum64 : Bytes → UInt64) (nodeID : Bytes) (index : Nat) : UInt64 :=
  sum64 (nodeID ++ [45] ++ decimal index)

/-- A ring.  Its points are sorted, and each of them belongs to a node of the
ring. -/
structure Ring where
  vnodes : List Vnode
  nodes : ExtTreeMap Bytes Node
  vnodesPerNode : Nat
  keyed : Keyed Node.id nodes
  owned : ∀ v ∈ vnodes, v.nodeID ∈ nodes
  sorted : vnodes.Pairwise fun first second => first.position ≤ second.position

namespace Ring

/-- An empty ring. -/
def new (vnodesPerNode : Nat) : Ring where
  vnodes := []
  nodes := ∅
  vnodesPerNode := if vnodesPerNode = 0 then 150 else vnodesPerNode
  keyed := keyed_empty
  owned := List.forall_mem_nil _
  sorted := List.Pairwise.nil

def points (sum64 : Bytes → UInt64) (vnodesPerNode : Nat) (nodeID : Bytes) : List Vnode :=
  (List.range vnodesPerNode).map fun i => ⟨hashVnode sum64 nodeID i, nodeID⟩

theorem nodeID_of_mem_points {sum64 : Bytes → UInt64} {count : Nat} {nodeID : Bytes} {v : Vnode}
    (mem : v ∈ points sum64 count nodeID) : v.nodeID = nodeID := by
  rcases List.mem_map.mp mem with ⟨i, _, rfl⟩
  rfl

section Changes

variable (sorter : Sorter Vnode.position) (sum64 : Bytes → UInt64)

theorem mem_nodes_insert {nodes : ExtTreeMap Bytes Node} {node : Node} {id : Bytes}
    (mem : id = node.id ∨ id ∈ nodes) : id ∈ nodes.insert node.id node := by
  exact mem_insert_key.mpr (mem.imp_left Eq.symm)

/-- Add a node, unless the ring has one of the same name. -/
def addNode (r : Ring) (node : Node) : Ring :=
  if node.id ∈ r.nodes then r
  else
    { r with
      vnodes := sorter.sort (r.vnodes ++ points sum64 r.vnodesPerNode node.id)
      nodes := r.nodes.insert node.id node
      keyed := r.keyed.insert node
      owned := by
        intro v mem
        apply mem_nodes_insert
        rcases List.mem_append.mp (sorter.mem_sort.mp mem) with old | isNew
        · exact .inr (r.owned v old)
        · exact .inl (nodeID_of_mem_points isNew)
      sorted := sorter.sorted _ }

def removeNode (r : Ring) (nodeID : Bytes) : Ring :=
  if nodeID ∈ r.nodes then
    { r with
      vnodes := r.vnodes.filter fun v => v.nodeID ≠ nodeID
      nodes := r.nodes.erase nodeID
      keyed := r.keyed.erase nodeID
      owned := by
        intro v mem
        rcases List.mem_filter.mp mem with ⟨old, other⟩
        rw [ExtTreeMap.mem_erase]
        constructor
        · intro same
          exact of_decide_eq_true other (LawfulEqCmp.eq_of_compare same).symm
        · exact r.owned v old
      sorted := r.sorted.filter _ }
  else r

/-- Rebuild the ring from the given nodes. -/
def replaceMembers (r : Ring) (nodes : List Node) : Ring where
  vnodes := sorter.sort (nodes.flatMap fun n => points sum64 r.vnodesPerNode n.id)
  nodes := insertAll Node.id ∅ nodes
  vnodesPerNode := r.vnodesPerNode
  keyed := keyed_empty.insertAll nodes
  owned := by
    intro v mem
    rcases List.mem_flatMap.mp (sorter.mem_sort.mp mem) with ⟨node, nodeMem, isPoint⟩
    exact mem_insertAll.mpr (.inr ⟨node, nodeMem, (nodeID_of_mem_points isPoint).symm⟩)
  sorted := sorter.sorted _

end Changes

/-- The binary search of `sort.Search` for the first point at or after the hash. -/
def searchPoint (r : Ring) (h : UInt64) : Nat :=
  (bisect (fun low high => (low + high) / 2)
    (fun i => (.ok (decide (∃ v ∈ r.vnodes[i]?, v.hash < h)) : Except Unit Bool))
    r.vnodes.length 0 r.vnodes.length).toOption.getD 0

/-- The index of the first point at or after the hash; past the last point the
ring starts over. -/
def search (r : Ring) (h : UInt64) : Nat :=
  if r.searchPoint h = r.vnodes.length then 0 else r.searchPoint h

/-- The node that owns a point. -/
def owner (r : Ring) (vn : Vnode) : Node :=
  r.nodes.getD vn.nodeID default

/-- Walk clockwise from a point and collect the owners, until `n` of them are
found or every point has been visited. -/
def walk (r : Ring) (n : Nat) : Nat → Nat → List Bytes → List Node → List Node
  | 0, _, _, result => result
  | steps + 1, idx, seen, result =>
    match r.vnodes[idx]? with
    | none => result
    | some vn =>
      if vn.nodeID ∈ seen then walk r n steps ((idx + 1) % r.vnodes.length) seen result
      else if (result ++ [r.owner vn]).length = n then result ++ [r.owner vn]
      else
        walk r n steps ((idx + 1) % r.vnodes.length) (vn.nodeID :: seen) (result ++ [r.owner vn])

/-- Up to `n` distinct nodes that are responsible for the key. -/
def getNodes (sum64 : Bytes → UInt64) (r : Ring) (key : Bytes) (n : Nat) : List Node :=
  if r.vnodes.isEmpty ∨ n = 0 then []
  else r.walk (min n r.nodes.size) r.vnodes.length (r.search (sum64 key)) [] []

/-- The node with the identifier. -/
def member (r : Ring) (id : Bytes) : Node :=
  r.nodes.getD id default

/-- The primary owner of a key. -/
def getNode (sum64 : Bytes → UInt64) (r : Ring) (key : Bytes) : Node :=
  if r.vnodes.isEmpty then default
  else (r.vnodes[r.search (sum64 key)]?).elim default r.owner

/-- The nodes of the ring, in no particular order. -/
def members (r : Ring) : List Node :=
  r.nodes.toList.map Prod.snd

/-- Walk clockwise from a point and collect the identifiers of the owners. -/
def window (r : Ring) (n : Nat) : Nat → Nat → List Bytes → List Bytes → List Bytes
  | 0, _, _, ids => ids
  | steps + 1, idx, seen, ids =>
    match r.vnodes[idx]? with
    | none => ids
    | some vn =>
      if vn.nodeID ∈ seen then window r n steps ((idx + 1) % r.vnodes.length) seen ids
      else if (ids ++ [vn.nodeID]).length = n then ids ++ [vn.nodeID]
      else
        window r n steps ((idx + 1) % r.vnodes.length) (vn.nodeID :: seen) (ids ++ [vn.nodeID])

/-- The nodes that share a replica set with the given one, sorted. -/
def coReplicas (r : Ring) (nodeID : Bytes) (n : Nat) : List Bytes :=
  if r.vnodes.isEmpty ∨ n = 0 then []
  else if nodeID ∉ r.nodes then []
  else
    (ExtTreeSet.ofList ((List.range r.vnodes.length).flatMap fun startIdx =>
      let ids := r.window (min n r.nodes.size) r.vnodes.length startIdx [] []
      if nodeID ∈ ids then ids.filter (· ≠ nodeID) else [])).toList

end Ring

end Theseon.Hashring
