import Theseon.Hnsw.Findable

/-!
# Snapshots of a graph

A snapshot has the nodes in the order of their numbers, the entry point and the top
level.  It does not say which nodes have been deleted: in the graph that is restored
from it every node is live.

The bytes of the file are not modelled, only what they cut: a level is written in one
byte, and the options and the counts of neighbours in two.  What fits is read as it was
written.
-/

namespace Theseon.Hnsw

open Lib

structure SnapshotData where
  nodes : List Node
  entryPoint : Nat
  maxLevel : Nat
  m : Nat
  dim : Nat
  metric : UInt8
  seq : Nat
  deriving DecidableEq, Repr

inductive RestoreError where
  | dim (snapshot graph : Nat)
  | m (snapshot graph : Nat)
  deriving DecidableEq, Repr

/-- The node as the file has it. -/
def Node.stored (node : Node) : Node :=
  { node with level := node.level % 2 ^ 8 }

namespace Graph

/-- All numbers fit into their fields.  With a level or a count of neighbours that is cut,
a reader would look for the next field in the wrong place. -/
structure FitsSnapshot (g : Graph) : Prop where
  nodes : ∀ entry ∈ g.nodes.toList, entry.2.level < 2 ^ 8 ∧
    ∀ neighbors ∈ entry.2.neighbors, neighbors.length < 2 ^ 16
  maxLevel : g.maxLevel < 2 ^ 8
  m : g.opts.m < 2 ^ 16
  dim : g.opts.dim < 2 ^ 16

variable {g restored : Graph} {data : SnapshotData}

def writeSnapshot (g : Graph) (seq : Nat) (metric : UInt8) : Except GraphError SnapshotData :=
  if g.nodes.size = 0 then .error .emptyGraph
  else
    .ok ⟨g.nodes.toList.map fun entry => entry.2.stored, g.entryPoint, g.maxLevel % 2 ^ 8,
      g.opts.m % 2 ^ 16, g.opts.dim % 2 ^ 16, metric, seq⟩

def restoreFromSnapshot (g : Graph) (data : SnapshotData) : Except RestoreError Graph :=
  if data.dim ≠ g.opts.dim then .error (.dim data.dim g.opts.dim)
  else if data.m ≠ g.opts.m then .error (.m data.m g.opts.m)
  else
    .ok { g with
      nodes := insertAll Node.id ∅ data.nodes
      entryPoint := data.entryPoint
      maxLevel := data.maxLevel
      tombstones := ∅
      memoryBytes :=
        data.nodes.foldl (fun bytes node => bytes + g.estimateNodeMemory node.level) 0 }

theorem WellFormed.keyed (wf : g.WellFormed) : Keyed Node.id g.nodes :=
  wf.named

/-- A restored graph has the nodes of the graph that was written, and none is deleted. -/
structure Restores (g fresh restored : Graph) : Prop where
  nodes : restored.nodes = g.nodes
  entryPoint : restored.entryPoint = g.entryPoint
  maxLevel : restored.maxLevel = g.maxLevel
  opts : restored.opts = fresh.opts
  dim : fresh.opts.dim = g.opts.dim
  tombstones : restored.tombstones = ∅

theorem FitsSnapshot.written (fits : g.FitsSnapshot) {seq : Nat} {metric : UInt8}
    (written : g.writeSnapshot seq metric = .ok data) :
    data = ⟨g.nodes.toList.map Prod.snd, g.entryPoint, g.maxLevel, g.opts.m, g.opts.dim, metric,
      seq⟩ := by
  rw [writeSnapshot] at written
  split at written
  · cases written
  have nodes : (g.nodes.toList.map fun entry => entry.2.stored) = g.nodes.toList.map Prod.snd := by
    apply List.map_congr_left
    intro entry mem
    rw [Node.stored, Nat.mod_eq_of_lt (fits.nodes entry mem).1]
  rw [nodes, Nat.mod_eq_of_lt fits.maxLevel, Nat.mod_eq_of_lt fits.m, Nat.mod_eq_of_lt fits.dim]
    at written
  cases written
  rfl

theorem WellFormed.restores (wf : g.WellFormed) (fits : g.FitsSnapshot) {fresh : Graph} {seq : Nat}
    {metric : UInt8} (written : g.writeSnapshot seq metric = .ok data)
    (isRestored : fresh.restoreFromSnapshot data = .ok restored) : Restores g fresh restored := by
  cases fits.written written
  rw [restoreFromSnapshot] at isRestored
  split at isRestored
  · cases isRestored
  rename_i sameDim
  split at isRestored
  · cases isRestored
  cases isRestored
  exact ⟨insertAll_values wf.keyed (List.Perm.refl _), rfl, rfl, rfl,
    (not_not.mp sameDim).symm, rfl⟩

theorem Restores.wellFormed {fresh : Graph} (restores : Restores g fresh restored)
    (wf : g.WellFormed) (freshWf : fresh.WellFormed) : restored.WellFormed := by
  have sameNeighbors (id layer : Nat) : restored.neighborsAt id layer = g.neighborsAt id layer := by
    rw [neighborsAt, restores.nodes, neighborsAt]
  constructor
  · rw [restores.nodes]
    exact wf.named
  · rw [restores.nodes]
    exact wf.layered
  · intro id layer neighbors isNeighbors nid mem
    rw [sameNeighbors] at isNeighbors
    rw [Present, restores.nodes]
    exact wf.linked id layer neighbors isNeighbors nid mem
  · rw [restores.nodes, restores.entryPoint, restores.maxLevel]
    exact wf.entry
  · rw [restores.opts]
    exact freshWf.beams

end Graph

end Theseon.Hnsw
