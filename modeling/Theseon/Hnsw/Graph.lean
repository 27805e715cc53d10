import Theseon.Lib.BinaryHeap
import Theseon.Lib.Bytes
import Theseon.Lib.Sorter

/-!
# The navigable graph

Vectors are nodes of a graph with several layers.  A node is linked on every layer up
to its level.  A search descends from the entry point through the upper layers, moving
to a closer neighbour as long as there is one, and explores the lowest layer from where
it ends, closest candidates first.  Deleted nodes are walked through, but are not
among the results.

The level of a new node is drawn at random; here it is an argument.  A function that
returns `none` stands for a run-time panic (a node or a layer that is not there) or for
a loop that has not ended within its bound.
-/

namespace Theseon.Hnsw

open Lib
open Std (ExtTreeMap ExtTreeSet)

/-- The bits of the components. -/
abbrev Vec := List UInt32

/-- The name under which the caller knows a vector. -/
abbrev ExternalID := Bytes

structure Options where
  m : Nat
  efConstruct : Nat
  efSearch : Nat
  dim : Nat
  /-- Zero means no limit. -/
  maxMemoryBytes : Nat
  deriving DecidableEq, Repr

structure Node where
  id : Nat
  externalID : ExternalID
  vector : Vec
  level : Nat
  /-- The names of the neighbours on each layer. -/
  neighbors : List (List Nat)
  deriving DecidableEq, Repr

/-- Replace the neighbours on one layer. -/
def Node.setNeighbors (node : Node) (layer : Nat) (neighbors : List Nat) : Node :=
  { node with neighbors := node.neighbors.set layer neighbors }

/-- An element of the candidate and result heaps. -/
structure HeapItem (D : Type) where
  id : Nat
  dist : D
  deriving DecidableEq, Repr

/-- The distance function with the two comparisons of distances: the operator `<`, and
the order of `cmp.Compare`, in which NaN has a place too. -/
structure Metric (D K : Type) [LinearOrder K] where
  dist : Vec → Vec → D
  less : D → D → Bool
  rank : D → K
  rank_lt_of_less : ∀ {first second : D}, less first second = true → rank first < rank second
  /-- Sorting is not stable. -/
  sorter : Sorter fun item : HeapItem D => rank item.dist

structure Graph where
  nodes : ExtTreeMap Nat Node
  entryPoint : Nat
  maxLevel : Nat
  opts : Options
  tombstones : ExtTreeSet Nat
  memoryBytes : Nat

inductive GraphError where
  | memoryLimitExceeded
  | dimensionMismatch
  | emptyGraph
  | duplicateID
  deriving DecidableEq, Repr

structure SearchResult (D : Type) where
  id : Nat
  externalID : ExternalID
  distance : D
  deriving DecidableEq, Repr

namespace Graph

/-- Why options are refused. -/
inductive OptionsError where
  | dim
  | m
  | efConstruct
  | efSearch
  deriving DecidableEq, Repr

def new (opts : Options) : Except OptionsError Graph :=
  if opts.dim < 1 then .error .dim
  else if opts.m < 2 then .error .m
  else if opts.efConstruct < 1 then .error .efConstruct
  else if opts.efSearch < 1 then .error .efSearch
  else .ok ⟨∅, 0, 0, opts, ∅, 0⟩

/-- The largest number of neighbours on a layer. -/
def neighborCap (g : Graph) (layer : Nat) : Nat :=
  if layer = 0 then 2 * g.opts.m else g.opts.m

/-- An estimate: the vector, the neighbours on all layers, and the rest. -/
def estimateNodeMemory (g : Graph) (level : Nat) : Nat :=
  g.opts.dim * 4 + (List.range (level + 1)).foldl (fun size l => size + g.neighborCap l * 8) 0 + 64

def neighborsAt (g : Graph) (id layer : Nat) : Option (List Nat) :=
  (g.nodes[id]?).bind fun node => node.neighbors[layer]?

def setNeighbors (g : Graph) (id layer : Nat) (neighbors : List Nat) : Option Graph :=
  (g.nodes[id]?).map fun node =>
    { g with nodes := g.nodes.insert id (node.setNeighbors layer neighbors) }

section

variable {D K : Type} [LinearOrder K] (metric : Metric D K)

/-! ## Greedy descent -/

/-- The closest node so far, and whether this round has found it. -/
structure Best (D : Type) where
  id : Nat
  dist : D
  improved : Bool

/-- Look at one neighbour. -/
def improve (g : Graph) (query : Vec) (best : Best D) (nid : Nat) : Best D :=
  match g.nodes[nid]? with
  | none => best
  | some n =>
    if metric.less (metric.dist query n.vector) best.dist then
      ⟨nid, metric.dist query n.vector, true⟩
    else best

/-- Rounds over the neighbours of the closest node, until one finds nothing closer. -/
def greedyRounds (g : Graph) (query : Vec) (layer : Nat) : (bound : Nat) → Nat → D → Option Nat
  | 0, _, _ => none
  | bound + 1, bestID, bestDist =>
    match g.neighborsAt bestID layer with
    | none => none
    | some neighbors =>
      let best := neighbors.foldl (g.improve metric query) ⟨bestID, bestDist, false⟩
      if best.improved then greedyRounds g query layer bound best.id best.dist else some best.id

def greedyClosest (g : Graph) (query : Vec) (ep layer : Nat) : Option Nat :=
  (g.nodes[ep]?).bind fun node =>
    g.greedyRounds metric query layer (g.nodes.size + 1) ep (metric.dist query node.vector)

/-- Descend from layer `base + count` to layer `base + 1`. -/
def descend (g : Graph) (query : Vec) (base : Nat) : (count : Nat) → Nat → Option Nat
  | 0, ep => some ep
  | count + 1, ep =>
    (g.greedyClosest metric query ep (base + count + 1)).bind fun next =>
      g.descend query base count next

/-! ## Beam search -/

/-- What a search on one layer keeps: a min-heap of candidates and a max-heap of
results. -/
structure Beam (D : Type) where
  visited : List Nat
  candidates : Array (HeapItem D)
  results : Array (HeapItem D)

def closer (first second : HeapItem D) : Bool :=
  metric.less first.dist second.dist

def farther (first second : HeapItem D) : Bool :=
  metric.less second.dist first.dist

/-- A node becomes a candidate, and a result if it has not been deleted. -/
def enter (g : Graph) (query : Vec) (beam : Beam D) (epID : Nat) : Option (Beam D) :=
  if epID ∈ beam.visited then some beam
  else
    (g.nodes[epID]?).map fun node =>
      let item : HeapItem D := ⟨epID, metric.dist query node.vector⟩
      { visited := epID :: beam.visited
        candidates := BinaryHeap.push (closer metric) beam.candidates item
        results :=
          if epID ∈ g.tombstones then beam.results
          else BinaryHeap.push (farther metric) beam.results item }

/-- The element is closer than the farthest result.  There is one when a neighbour is
looked at and there are enough results. -/
def beatsFarthest (results : Array (HeapItem D)) (dist : D) : Bool :=
  match results[0]? with
  | some farthest => metric.less dist farthest.dist
  | none => false

/-- There are enough results, and all are closer than the candidate. -/
def exhausted (ef : Nat) (results : Array (HeapItem D)) (dist : D) : Option Bool :=
  if ef ≤ results.size then (results[0]?).map fun farthest => metric.less farthest.dist dist
  else some false

/-- A result is added, and the farthest one is dropped if there are too many. -/
def addResult (ef : Nat) (results : Array (HeapItem D)) (item : HeapItem D) : Array (HeapItem D) :=
  let pushed := BinaryHeap.push (farther metric) results item
  if ef < pushed.size then
    match BinaryHeap.pop (farther metric) pushed with
    | some (_, rest) => rest
    | none => pushed
  else pushed

/-- Look at one neighbour of a candidate. -/
def visit (g : Graph) (query : Vec) (ef : Nat) (beam : Beam D) (nid : Nat) : Beam D :=
  if nid ∈ beam.visited then beam
  else
    match g.nodes[nid]? with
    | none => { beam with visited := nid :: beam.visited }
    | some n =>
      let item : HeapItem D := ⟨nid, metric.dist query n.vector⟩
      if beam.results.size < ef ∨ beatsFarthest metric beam.results item.dist = true then
        { visited := nid :: beam.visited
          candidates := BinaryHeap.push (closer metric) beam.candidates item
          results :=
            if nid ∈ g.tombstones then beam.results else addResult metric ef beam.results item }
      else { beam with visited := nid :: beam.visited }

/-- Explore the candidates, closest first. -/
def explore (g : Graph) (query : Vec) (ef layer : Nat) : (bound : Nat) → Beam D → Option (Beam D)
  | 0, beam => if beam.candidates.isEmpty then some beam else none
  | bound + 1, beam =>
    match BinaryHeap.pop (closer metric) beam.candidates with
    | none => some beam
    | some (c, rest) =>
      match exhausted metric ef beam.results c.dist with
      | none => none
      | some true => some { beam with candidates := rest }
      | some false =>
        match g.nodes[c.id]? with
        | none => none
        | some node =>
          g.explore query ef layer bound
            ((node.neighbors.getD layer []).foldl (g.visit metric query ef)
              { beam with candidates := rest })

/-- Beam search on a single layer. -/
def searchLayer (g : Graph) (query : Vec) (entryIDs : List Nat) (ef layer : Nat) :
    Option (List (HeapItem D)) :=
  (entryIDs.foldlM (g.enter metric query) ⟨[], #[], #[]⟩).bind fun beam =>
    (g.explore metric query ef layer g.nodes.size beam).map fun final => final.results.toList

/-! ## Insertion -/

/-- The candidates that are closer to the query than to every one selected before. -/
def selectDiverse (g : Graph) (maxN : Nat) :
    List (HeapItem D) → List (HeapItem D) → Option (List (HeapItem D))
  | selected, [] => some selected
  | selected, c :: rest =>
    if maxN ≤ selected.length then some selected
    else
      (g.nodes[c.id]?).bind fun cNode =>
        (selected.allM fun s =>
          (g.nodes[s.id]?).map fun sNode =>
            !metric.less (metric.dist cNode.vector sNode.vector) c.dist).bind fun good =>
          g.selectDiverse maxN (if good then selected ++ [c] else selected) rest

/-- Fill up with candidates that have been discarded. -/
def keepPruned (maxN : Nat) (chosen : List Nat) :
    List (HeapItem D) → List (HeapItem D) → List (HeapItem D)
  | selected, [] => selected
  | selected, c :: rest =>
    if maxN ≤ selected.length then selected
    else keepPruned maxN chosen (if c.id ∈ chosen then selected else selected ++ [c]) rest

/-- Select at most `maxN` neighbours from candidates that have been sorted. -/
def selectNeighborsHeuristic (g : Graph) (candidates : List (HeapItem D)) (maxN : Nat) :
    Option (List (HeapItem D)) :=
  (g.selectDiverse metric maxN [] candidates).map fun selected =>
    keepPruned maxN (selected.map HeapItem.id) selected candidates

/-- The closest `maxN` neighbours of a node. -/
def shrinkNeighbors (g : Graph) (vector : Vec) (neighbors : List Nat) (maxN : Nat) : List Nat :=
  let ranked := neighbors.filterMap fun nid =>
    (g.nodes[nid]?).map fun n => (⟨nid, metric.dist vector n.vector⟩ : HeapItem D)
  ((metric.sorter.sort ranked).take maxN).map HeapItem.id

/-- Add the new node to the neighbours of another one. -/
def addReverse (id layer : Nat) (g : Graph) (n : HeapItem D) : Option Graph :=
  (g.nodes[n.id]?).bind fun neighbor =>
    (neighbor.neighbors[layer]?).bind fun neighbors =>
      let extended := neighbors ++ [id]
      g.setNeighbors n.id layer
        (if g.neighborCap layer < extended.length then
          g.shrinkNeighbors metric neighbor.vector extended (g.neighborCap layer)
        else extended)

/-- Search one layer, link the new node there in both directions, and hand on all
results as entry points. -/
def connectLayer (g : Graph) (id : Nat) (vec : Vec) (layer : Nat) (entryIDs : List Nat) :
    Option (Graph × List Nat) :=
  (g.searchLayer metric vec entryIDs g.opts.efConstruct layer).bind fun found =>
    -- the selection sorts the candidates in place
    let candidates := metric.sorter.sort found
    (g.selectNeighborsHeuristic metric candidates (g.neighborCap layer)).bind fun neighbors =>
      (g.setNeighbors id layer (neighbors.map HeapItem.id)).bind fun linked =>
        (neighbors.foldlM (addReverse metric id layer) linked).map fun connected =>
          (connected, candidates.map HeapItem.id)

/-- Connect the new node on the layers below `count`, from the top. -/
def connectLayers (id : Nat) (vec : Vec) : (count : Nat) → Graph → List Nat → Option Graph
  | 0, g, _ => some g
  | count + 1, g, entryIDs =>
    (g.connectLayer metric id vec count entryIDs).bind fun (connected, next) =>
      connectLayers id vec count connected next

/-- A node without neighbours. -/
def freshNode (id : Nat) (externalID : ExternalID) (vec : Vec) (level : Nat) : Node :=
  ⟨id, externalID, vec, level, List.replicate (level + 1) []⟩

/-- Put a node into the graph without linking it. -/
def addNode (g : Graph) (node : Node) : Graph :=
  { g with
    nodes := g.nodes.insert node.id node
    memoryBytes := g.memoryBytes + g.estimateNodeMemory node.level }

/-- The new node becomes the entry point if it is on more layers than the present one. -/
def raise (g : Graph) (id level : Nat) : Graph :=
  if g.maxLevel < level then { g with entryPoint := id, maxLevel := level } else g

/-- Add a vector at the level that has been drawn for it. -/
def insert (g : Graph) (id : Nat) (externalID : ExternalID) (vec : Vec) (level : Nat) :
    Option (Except GraphError Graph) :=
  if vec.length ≠ g.opts.dim then some (.error .dimensionMismatch)
  else if id ∈ g.nodes then some (.error .duplicateID)
  else if 0 < g.opts.maxMemoryBytes ∧
      g.opts.maxMemoryBytes < g.memoryBytes + g.estimateNodeMemory level then
    some (.error .memoryLimitExceeded)
  else
    let added := g.addNode (freshNode id externalID vec level)
    if g.nodes.size = 0 then some (.ok { added with entryPoint := id, maxLevel := level })
    else
      (added.descend metric vec level (g.maxLevel - level) g.entryPoint).bind fun ep =>
        (connectLayers metric id vec (min level g.maxLevel + 1) added [ep]).map fun connected =>
          .ok (connected.raise id level)

/-- A node is deleted: it stays in the graph. -/
def markDeleted (g : Graph) (id : Nat) : Graph :=
  if id ∈ g.nodes then { g with tombstones := g.tombstones.insert id } else g

/-! ## Search -/

/-- The node at which the descent through the upper layers ends. -/
def landing (g : Graph) (query : Vec) : Option Nat :=
  g.descend metric query 0 g.maxLevel g.entryPoint

/-- The closest `k` of the candidates, by distance. -/
def closestResults (g : Graph) (candidates : List (HeapItem D)) (k : Nat) :
    Option (List (SearchResult D)) :=
  ((metric.sorter.sort candidates).take k).mapM fun c =>
    (g.nodes[c.id]?).map fun node => ⟨c.id, node.externalID, c.dist⟩

/-- The width of the beam: the one that is asked for, or the default, but at least `k`. -/
def beamWidth (g : Graph) (k efSearch : Nat) : Nat :=
  max (if 0 < efSearch then efSearch else g.opts.efSearch) k

def search (g : Graph) (query : Vec) (k efSearch : Nat) :
    Option (Except GraphError (List (SearchResult D))) :=
  if query.length ≠ g.opts.dim then some (.error .dimensionMismatch)
  else if g.nodes.size = 0 then some (.error .emptyGraph)
  else
    (g.landing metric query).bind fun ep =>
      (g.searchLayer metric query [ep] (g.beamWidth k efSearch) 0).bind fun candidates =>
        (g.closestResults metric candidates k).map .ok

end

end Graph

end Theseon.Hnsw
