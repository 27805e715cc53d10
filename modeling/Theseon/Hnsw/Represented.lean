import Theseon.Hnsw.Findable
import Theseon.Hnsw.Links
import Theseon.Lib.MapTotal

/-!
# The representation invariant

Insertion, deletion and the clean-up keep the graph in shape: the entry point is on the
top layer, links lead to nodes of their layer, lists are tidy, only nodes are marked as
deleted, and the memory that is tracked is that of the nodes.  So no call and no search
looks for a node or a layer that is not there.
-/

namespace Theseon.Hnsw

open Lib List
open Std (ExtTreeMap ExtTreeSet LawfulEqCmp)

/-! ## Cleaning up -/

/-- Take removed nodes from all lists. -/
def Node.scrub (removed : ExtTreeSet Nat) (node : Node) : Node :=
  { node with
    neighbors := node.neighbors.map fun neighbors => neighbors.filter fun nid => nid ∉ removed }

/-- The greatest level so far, and the first node that was found on it. -/
structure Election where
  newMaxLevel : Nat
  bestEntry : Nat
  bestLevel : Int

namespace Election

def start : Election :=
  ⟨0, 0, -1⟩

def consider (e : Election) (entry : Nat × Node) : Election where
  newMaxLevel := if e.newMaxLevel < entry.2.level then entry.2.level else e.newMaxLevel
  bestEntry := if e.bestLevel < entry.2.level then entry.1 else e.bestEntry
  bestLevel := if e.bestLevel < entry.2.level then entry.2.level else e.bestLevel

end Election

/-- The orders in which a clean-up ranges over its maps. -/
structure CleanupOrder where
  removal : Arrangement Nat
  scan : Arrangement (Nat × Node)

namespace Graph

/-- Delete a node and reclaim its memory. -/
def removeNode (g : Graph) (id : Nat) : Option Graph :=
  (g.nodes[id]?).map fun node =>
    { g with
      nodes := g.nodes.erase id
      memoryBytes := g.memoryBytes - g.estimateNodeMemory node.level }

/-- Take removed nodes from the lists of the others, and forget that they were deleted. -/
def scrubbed (removed : ExtTreeSet Nat) (g : Graph) : Graph :=
  { g with
    nodes := g.nodes.map fun _ node => node.scrub removed
    tombstones := ∅ }

/-- Recalculate the entry point and the top level. -/
def elect (scan : Arrangement (Nat × Node)) (g : Graph) : Graph :=
  if g.nodes.size = 0 then { g with maxLevel := 0, entryPoint := 0 }
  else
    let elected := (scan.arrange g.nodes.toList).foldl Election.consider .start
    { g with maxLevel := elected.newMaxLevel, entryPoint := elected.bestEntry }

/-- Remove the deleted nodes; the result is their number.  A node that is marked but not
there leads to a panic. -/
def cleanup (order : CleanupOrder) (g : Graph) : Option (Nat × Graph) :=
  if g.tombstones.size = 0 then some (0, g)
  else
    ((order.removal.arrange g.tombstones.toList).foldlM removeNode g).map fun removed =>
      (g.tombstones.size, elect order.scan (removed.scrubbed g.tombstones))

/-! ## The invariant -/

/-- The memory of all nodes. -/
def trackedMemory (g : Graph) : Nat :=
  totalOf (fun node => g.estimateNodeMemory node.level) g.nodes

structure Represented (g : Graph) : Prop extends WellFormed g where
  top : ∀ (id : Nat) (node : Node), g.nodes[id]? = some node → node.level ≤ g.maxLevel
  tidy : g.Tidy
  marked : ∀ id ∈ g.tombstones, id ∈ g.nodes
  memory : g.memoryBytes = g.trackedMemory

variable {g next : Graph}

theorem represented_new {opts : Options} (created : Graph.new opts = .ok g) : g.Represented := by
  have wf := wellFormed_new created
  rcases new_eq_ok created with ⟨rfl, _⟩
  refine ⟨wf, ?_, ?_, ?_, rfl⟩
  · rintro id node ⟨⟩
  · rintro id layer neighbors ⟨⟩
  · intro id mem
    exact absurd mem ExtTreeSet.not_mem_empty

theorem Represented.markDeleted (represented : g.Represented) (id : Nat) :
    (g.markDeleted id).Represented := by
  have wf := represented.toWellFormed.markDeleted id
  rw [Graph.markDeleted] at wf ⊢
  split
  · rename_i present
    rw [if_pos present] at wf
    refine ⟨wf, represented.top, represented.tidy.congr rfl rfl, ?_, represented.memory⟩
    intro other mem
    rcases ExtTreeSet.mem_insert.mp mem with same | old
    · rw [← LawfulEqCmp.compare_eq_iff_eq.mp same]
      exact present
    · exact represented.marked other old
  · exact represented

/-! ## Insertion -/

/-- The levels of the nodes. -/
def levels (g : Graph) : ExtTreeMap Nat Nat :=
  g.nodes.map fun _ node => node.level

theorem getElem?_levels (g : Graph) (id : Nat) :
    g.levels[id]? = (g.nodes[id]?).map Node.level := by
  rw [levels, ExtTreeMap.getElem?_map]

theorem mem_levels {id : Nat} : id ∈ g.levels ↔ id ∈ g.nodes := by
  rw [levels, ExtTreeMap.mem_map]

theorem trackedMemory_eq (g : Graph) : g.trackedMemory = totalOf g.estimateNodeMemory g.levels := by
  rw [trackedMemory, levels, totalOf_map]

theorem estimateNodeMemory_eq (same : next.opts = g.opts) :
    next.estimateNodeMemory = g.estimateNodeMemory := by
  funext level
  simp only [estimateNodeMemory, neighborCap_eq same, same]

section

variable {id level : Nat} {externalID : ExternalID} {vec : Vec}
  (nodes : ∀ other : Nat, (next.nodes[other]?).map Node.bare =
    if id = other then some (freshNode id externalID vec level).bare
    else (g.nodes[other]?).map Node.bare)

include nodes

theorem levels_of_bare : next.levels = g.levels.insert id level := by
  apply ExtTreeMap.ext_getElem?
  intro other
  have same := congrArg (Option.map Node.level) (nodes other)
  rw [Option.map_map] at same
  rw [getElem?_levels, getElem?_insert_if, getElem?_levels]
  apply Eq.trans same
  split
  · rfl
  · rw [Option.map_map]
    rfl

/-- The memory of a new node is added. -/
theorem trackedMemory_of_bare (new : id ∉ g.nodes) (opts : next.opts = g.opts) :
    next.trackedMemory = g.trackedMemory + g.estimateNodeMemory level := by
  have absent : id ∉ g.levels := fun mem => new (mem_levels.mp mem)
  rw [trackedMemory_eq, trackedMemory_eq, levels_of_bare nodes, estimateNodeMemory_eq opts,
    totalOf_insert absent]

end

section

variable {D K : Type} [LinearOrder K] {metric : Metric D K}

theorem Represented.insert (represented : g.Represented) {id level : Nat} {externalID : ExternalID}
    {vec : Vec} (ran : g.insert metric id externalID vec level = some (.ok next)) :
    next.Represented := by
  rcases @WellFormed.insert g D K _ metric represented.toWellFormed id externalID vec level with
    ⟨result, ran', inserted⟩
  cases ran.symm.trans ran'
  cases inserted with
  | added _ new wf nodes opts tombstones =>
    rcases represented.tidy.insert represented.toWellFormed ran with ⟨tidy, memory, maxLevel⟩
    have isLevels := levels_of_bare nodes
    refine ⟨wf, ?_, tidy, ?_, ?_⟩
    · intro other node isNode
      have isLevel : next.levels[other]? = some node.level := by
        rw [getElem?_levels, isNode]
        rfl
      rw [isLevels, ExtTreeMap.getElem?_insert] at isLevel
      rw [maxLevel]
      split at isLevel
      · cases isLevel
        split
        · exact le_rfl
        · exact Nat.le_max_right _ _
      rw [getElem?_levels] at isLevel
      rcases Option.map_eq_some_iff.mp isLevel with ⟨old, isOld, oldLevel⟩
      rw [if_neg, ← oldLevel]
      · exact (represented.top other old isOld).trans (Nat.le_max_left _ _)
      intro empty
      rw [ExtTreeMap.eq_empty_iff_size_eq_zero.mpr empty] at isOld
      cases isOld
    · intro other mem
      rw [tombstones] at mem
      rw [← mem_levels, isLevels, ExtTreeMap.mem_insert, mem_levels]
      exact .inr (represented.marked other mem)
    · rw [memory, trackedMemory_of_bare nodes new opts, represented.memory]

end

/-! ## The clean-up -/

/-- What the removal of nodes leaves. -/
structure Removed (g : Graph) (ids : List Nat) (next : Graph) : Prop where
  gone : ∀ id ∈ ids, next.nodes[id]? = none
  kept : ∀ id : Nat, id ∉ ids → next.nodes[id]? = g.nodes[id]?
  opts : next.opts = g.opts
  memory : next.memoryBytes = next.trackedMemory

theorem removeNode_spec {id : Nat} (present : id ∈ g.nodes)
    (memory : g.memoryBytes = g.trackedMemory) :
    ∃ next, g.removeNode id = some next ∧ Removed g [id] next := by
  rcases mem_iff_get?.mp present with ⟨node, isNode⟩
  refine ⟨_, Option.map_eq_some_iff.mpr ⟨node, isNode, rfl⟩, ?_, ?_, rfl, ?_⟩
  · intro other isID
    rw [mem_singleton.mp isID]
    exact ExtTreeMap.getElem?_erase_self
  · intro other notID
    dsimp only
    rw [getElem?_erase_if, if_neg]
    exact fun same => notID (mem_singleton.mpr same.symm)
  · have rest := @totalOf_erase _ _ _ _ _ (fun node => g.estimateNodeMemory node.level) _ _ _ isNode
    dsimp only
    rw [memory, trackedMemory, rest, Nat.add_sub_cancel]
    rfl

theorem foldlM_removeNode {ids : List Nat} (distinct : ids.Nodup)
    (present : ∀ id ∈ ids, id ∈ g.nodes)
    (memory : g.memoryBytes = g.trackedMemory) :
    ∃ next, ids.foldlM removeNode g = some next ∧ Removed g ids next := by
  induction ids generalizing g with
  | nil => exact ⟨g, rfl, fun id mem => absurd mem not_mem_nil, fun _ _ => rfl, rfl, memory⟩
  | cons id rest ih =>
    rw [nodup_cons] at distinct
    rcases removeNode_spec (present id mem_cons_self) memory with ⟨middle, removed, first⟩
    have restPresent : ∀ other ∈ rest, other ∈ middle.nodes := by
      intro other mem
      have notFirst : other ∉ [id] := fun isFirst =>
        distinct.1 (mem_singleton.mp isFirst ▸ mem)
      rw [mem_iff_get?, first.kept other notFirst, ← mem_iff_get?]
      exact present other (mem_cons_of_mem _ mem)
    rcases ih distinct.2 restPresent first.memory with ⟨final, ran, later⟩
    refine ⟨final, ?_, ?_, ?_, later.opts.trans first.opts, later.memory⟩
    · rw [foldlM_cons, removed]
      exact ran
    · intro other mem
      by_cases inRest : other ∈ rest
      · exact later.gone other inRest
      rw [later.kept other inRest]
      rcases mem_cons.mp mem with rfl | isLater
      · exact first.gone other mem_cons_self
      · exact absurd isLater inRest
    · intro other notMem
      rw [mem_cons, not_or] at notMem
      rw [later.kept other notMem.2, first.kept other (mem_singleton.not.mpr notMem.1)]

/-- What an election knows of the nodes that it has seen. -/
structure Leads (seen : List (Nat × Node)) (e : Election) : Prop where
  none : seen = [] → e = .start
  level : seen ≠ [] → e.bestLevel = e.newMaxLevel
  top : ∀ entry ∈ seen, entry.2.level ≤ e.newMaxLevel
  chosen : seen ≠ [] → ∃ entry ∈ seen, entry.1 = e.bestEntry ∧ entry.2.level = e.newMaxLevel

variable {seen : List (Nat × Node)} {e : Election} {gone : ExtTreeSet Nat}

/-- A node is elected if it is the first or higher than all others. -/
theorem Leads.consider_eq (leads : Leads seen e) (entry : Nat × Node) :
    (e.consider entry = ⟨entry.2.level, entry.1, entry.2.level⟩ ∧
        e.newMaxLevel ≤ entry.2.level) ∨
      (e.consider entry = e ∧ seen ≠ [] ∧ entry.2.level ≤ e.newMaxLevel) := by
  rw [Election.consider]
  by_cases first : seen = []
  · cases leads.none first
    have above : (-1 : Int) < entry.2.level := by omega
    left
    rw [Election.start, if_pos above, if_pos above]
    refine ⟨?_, Nat.zero_le _⟩
    split
    · rfl
    · rename_i zero
      rw [Nat.eq_zero_of_not_pos zero]
  rw [leads.level first]
  by_cases higher : e.newMaxLevel < entry.2.level
  · rw [if_pos higher, if_pos (Int.ofNat_lt.mpr higher), if_pos (Int.ofNat_lt.mpr higher)]
    exact .inl ⟨rfl, higher.le⟩
  have notHigher : ¬ (e.newMaxLevel : Int) < entry.2.level := fun above =>
    higher (Int.ofNat_lt.mp above)
  rw [if_neg higher, if_neg notHigher, if_neg notHigher, ← leads.level first]
  exact .inr ⟨rfl, first, Nat.not_lt.mp higher⟩

theorem Leads.consider (leads : Leads seen e) (entry : Nat × Node) :
    Leads (seen ++ [entry]) (e.consider entry) := by
  have some : seen ++ [entry] ≠ [] := append_ne_nil_of_right_ne_nil _ (cons_ne_nil _ _)
  rcases leads.consider_eq entry with ⟨elected, above⟩ | ⟨same, first, below⟩
  · rw [elected]
    refine ⟨fun empty => absurd empty some, fun _ => rfl, ?_, fun _ => ⟨entry, ?_, rfl, rfl⟩⟩
    · intro other mem
      rcases mem_append.mp mem with old | isEntry
      · exact (leads.top other old).trans above
      · rw [mem_singleton.mp isEntry]
    · exact mem_append_right _ mem_cons_self
  rw [same]
  refine ⟨fun empty => absurd empty some, fun _ => leads.level first, ?_, fun _ => ?_⟩
  · intro other mem
    rcases mem_append.mp mem with old | isEntry
    · exact leads.top other old
    · rw [mem_singleton.mp isEntry]
      exact below
  · rcases leads.chosen first with ⟨best, mem, isBest⟩
    exact ⟨best, mem_append_left _ mem, isBest⟩

theorem Leads.foldl (leads : Leads seen e) (entries : List (Nat × Node)) :
    Leads (seen ++ entries) (entries.foldl Election.consider e) := by
  induction entries generalizing seen e with
  | nil =>
    rw [append_nil]
    exact leads
  | cons entry rest ih =>
    rw [append_cons]
    exact ih (leads.consider entry)

theorem leads_start : Leads [] .start :=
  ⟨fun _ => rfl, fun some => absurd rfl some, fun _ mem => absurd mem not_mem_nil,
    fun some => absurd rfl some⟩

/-- The entry point is on the top level. -/
theorem elect_spec (scan : Arrangement (Nat × Node)) (g : Graph) :
    ((∃ id, id ∈ g.nodes) → ∃ node : Node, g.nodes[(elect scan g).entryPoint]? = some node ∧
        node.level = (elect scan g).maxLevel) ∧
      ∀ (id : Nat) (node : Node), g.nodes[id]? = some node →
        node.level ≤ (elect scan g).maxLevel := by
  have listed {id : Nat} {node : Node} : (id, node) ∈ scan.arrange g.nodes.toList ↔
      g.nodes[id]? = some node := by
    rw [scan.mem_arrange, ExtTreeMap.mem_toList_iff_getElem?_eq_some]
  have leads := leads_start.foldl (scan.arrange g.nodes.toList)
  rw [nil_append] at leads
  rw [elect]
  split
  · rename_i empty
    rw [← ExtTreeMap.eq_empty_iff_size_eq_zero] at empty
    constructor
    · rintro ⟨id, mem⟩
      rw [empty] at mem
      exact absurd mem ExtTreeMap.not_mem_empty
    · intro id node isNode
      rw [empty] at isNode
      cases isNode
  constructor
  · rintro ⟨id, mem⟩
    rcases mem_iff_get?.mp mem with ⟨node, isNode⟩
    rcases leads.chosen (ne_nil_of_mem (listed.mpr isNode)) with ⟨best, isBest, name, level⟩
    refine ⟨best.2, ?_, level⟩
    dsimp only
    rw [← name]
    exact listed.mp isBest
  · exact fun id node isNode => leads.top (id, node) (listed.mpr isNode)

theorem elect_same (scan : Arrangement (Nat × Node)) (g : Graph) :
    (elect scan g).nodes = g.nodes ∧ (elect scan g).opts = g.opts ∧
      (elect scan g).tombstones = g.tombstones ∧ (elect scan g).memoryBytes = g.memoryBytes := by
  rw [elect]
  split
  · exact ⟨rfl, rfl, rfl, rfl⟩
  · exact ⟨rfl, rfl, rfl, rfl⟩

theorem getElem?_scrubbed {removed : Graph} {ids : List Nat} (isRemoved : Removed g ids removed)
    (same : ∀ id, id ∈ ids ↔ id ∈ gone) {id : Nat} {node : Node} :
    (removed.scrubbed gone).nodes[id]? = some node ↔
      id ∉ gone ∧ ∃ old, g.nodes[id]? = some old ∧ node = old.scrub gone := by
  rw [scrubbed, ExtTreeMap.getElem?_map, Option.map_eq_some_iff]
  by_cases isGone : id ∈ gone
  · rw [isRemoved.gone id ((same id).mpr isGone)]
    constructor
    · rintro ⟨old, isOld, _⟩
      cases isOld
    · exact fun both => absurd isGone both.1
  rw [isRemoved.kept id fun mem => isGone ((same id).mp mem)]
  constructor
  · rintro ⟨old, isOld, rfl⟩
    exact ⟨isGone, old, isOld, rfl⟩
  · rintro ⟨_, old, isOld, rfl⟩
    exact ⟨old, isOld, rfl⟩

/-- The lists of neighbours without those that are gone. -/
theorem neighborsAt_of_scrubbed {scrubbed : Graph}
    (lookup : ∀ (id : Nat) (node : Node), scrubbed.nodes[id]? = some node ↔
      id ∉ gone ∧ ∃ old, g.nodes[id]? = some old ∧ node = old.scrub gone) {id layer : Nat}
    {neighbors : List Nat} (isNeighbors : scrubbed.neighborsAt id layer = some neighbors) :
    ∃ old, g.neighborsAt id layer = some old ∧ neighbors = old.filter fun nid => nid ∉ gone := by
  rcases Option.bind_eq_some_iff.mp isNeighbors with ⟨node, isNode, isLayer⟩
  rcases (lookup id node).mp isNode with ⟨_, old, isOld, rfl⟩
  rw [Node.scrub, getElem?_map] at isLayer
  rcases Option.map_eq_some_iff.mp isLayer with ⟨list, isList, rfl⟩
  exact ⟨list, Option.bind_eq_some_iff.mpr ⟨old, isOld, isList⟩, rfl⟩

/-- Removing nodes together with the links to them leaves a graph in shape. -/
theorem Represented.elect_scrubbed (represented : g.Represented) {scrubbed : Graph}
    (scan : Arrangement (Nat × Node))
    (lookup : ∀ (id : Nat) (node : Node), scrubbed.nodes[id]? = some node ↔
      id ∉ gone ∧ ∃ old, g.nodes[id]? = some old ∧ node = old.scrub gone)
    (opts : scrubbed.opts = g.opts) (unmarked : scrubbed.tombstones = ∅)
    (memory : scrubbed.memoryBytes = scrubbed.trackedMemory) :
    (elect scan scrubbed).Represented := by
  rcases elect_spec scan scrubbed with ⟨entry, top⟩
  rcases elect_same scan scrubbed with ⟨sameNodes, sameOpts, sameTombstones, sameMemory⟩
  have sameLists (id layer : Nat) :
      (elect scan scrubbed).neighborsAt id layer = scrubbed.neighborsAt id layer := by
    rw [neighborsAt, neighborsAt, sameNodes]
  constructor
  · constructor
    · intro id node isNode
      rw [sameNodes] at isNode
      rcases (lookup id node).mp isNode with ⟨_, old, isOld, rfl⟩
      exact represented.named id old isOld
    · intro id node isNode
      rw [sameNodes] at isNode
      rcases (lookup id node).mp isNode with ⟨_, old, isOld, rfl⟩
      exact (length_map _).trans (represented.layered id old isOld)
    · intro id layer neighbors isNeighbors nid mem
      rw [sameLists] at isNeighbors
      rcases neighborsAt_of_scrubbed lookup isNeighbors with ⟨old, isOld, rfl⟩
      rw [mem_filter, decide_eq_true_eq] at mem
      rcases represented.linked id layer old isOld nid mem.1 with ⟨node, isNode, on⟩
      refine ⟨node.scrub gone, ?_, on⟩
      rw [sameNodes]
      exact (lookup nid _).mpr ⟨mem.2, node, isNode, rfl⟩
    · rw [sameNodes]
      exact entry
    · rw [sameOpts, opts]
      exact represented.beams
  · rw [sameNodes]
    exact top
  · intro id layer neighbors isNeighbors
    rw [sameLists] at isNeighbors
    rcases neighborsAt_of_scrubbed lookup isNeighbors with ⟨old, isOld, rfl⟩
    have tidyList := represented.tidy id layer old isOld
    refine ⟨fun mem => tidyList.irreflexive (mem_of_mem_filter mem),
      tidyList.nodup.filter _, ?_⟩
    rw [neighborCap_eq (sameOpts.trans opts)]
    exact (length_filter_le _ _).trans tidyList.capped
  · intro id mem
    rw [sameTombstones, unmarked] at mem
    exact absurd mem ExtTreeSet.not_mem_empty
  · rw [sameMemory, memory, trackedMemory, trackedMemory, sameNodes, estimateNodeMemory_eq sameOpts]

/-- A clean-up does not look for nodes that are not there. -/
theorem Represented.cleanup (represented : g.Represented) (order : CleanupOrder) :
    ∃ count next, g.cleanup order = some (count, next) ∧ next.Represented := by
  rw [Graph.cleanup]
  split
  · exact ⟨0, g, rfl, represented⟩
  have same (id : Nat) : id ∈ order.removal.arrange g.tombstones.toList ↔ id ∈ g.tombstones := by
    rw [order.removal.mem_arrange, ExtTreeSet.mem_toList]
  have distinct : (order.removal.arrange g.tombstones.toList).Nodup := by
    rw [(order.removal.perm _).nodup_iff]
    apply ExtTreeSet.distinct_toList.imp
    rintro first second different rfl
    exact different Std.ReflCmp.compare_self
  rcases foldlM_removeNode distinct (fun id mem => represented.marked id ((same id).mp mem))
    represented.memory with ⟨removed, ran, isRemoved⟩
  rw [ran]
  refine ⟨_, _, rfl, ?_⟩
  apply represented.elect_scrubbed
  · exact fun id node => getElem?_scrubbed isRemoved same
  · exact isRemoved.opts
  · rfl
  · rw [trackedMemory, scrubbed, totalOf_map]
    exact isRemoved.memory

/-! ## Every graph -/

end Graph

/-- The calls that change a graph, with the clean-up. -/
inductive MaintenanceCall where
  | call (call : GraphCall)
  | cleanup (order : CleanupOrder)

namespace Graph

section

variable {g : Graph} {D K : Type} [LinearOrder K] (metric : Metric D K)

def maintain (g : Graph) : MaintenanceCall → Option Graph
  | .call call => g.step metric call
  | .cleanup order => (g.cleanup order).map Prod.snd

variable {metric}

/-- No call panics, and each keeps the invariant. -/
theorem Represented.maintain (represented : g.Represented) (call : MaintenanceCall) :
    ∃ next, g.maintain metric call = some next ∧ next.Represented := by
  cases call with
  | call call =>
    cases call with
    | insert id externalID vec level =>
      rcases @WellFormed.insert g D K _ metric represented.toWellFormed id externalID vec level
        with ⟨result, ran, _⟩
      rw [Graph.maintain, Graph.step, ran]
      cases result with
      | error err => exact ⟨g, rfl, represented⟩
      | ok next => exact ⟨next, rfl, represented.insert ran⟩
    | markDeleted id => exact ⟨_, rfl, represented.markDeleted id⟩
  | cleanup order =>
    rcases represented.cleanup order with ⟨count, next, ran, nextRepresented⟩
    rw [Graph.maintain, ran]
    exact ⟨next, rfl, nextRepresented⟩

/-- After any insertions, deletions and clean-ups the graph is in shape, and no call and
no search looks for a node or a layer that is not there. -/
theorem graph_represented {opts : Options} {start : Graph} (created : Graph.new opts = .ok start)
    (reached : Reached (maintain metric) (fun _ _ => True) start g) :
    g.Represented ∧ (∀ call, ∃ next, g.maintain metric call = some next) ∧
      ∀ query k efSearch, ∃ result, g.search metric query k efSearch = some result := by
  have represented : g.Represented := by
    apply reached.invariant Represented (represented_new created)
    intro state next call inv _ stepped
    rcases @Represented.maintain state D K _ metric inv call with ⟨next', ran, nextRepresented⟩
    cases stepped.symm.trans ran
    exact nextRepresented
  refine ⟨represented, fun call => ?_, fun query k efSearch => ?_⟩
  · rcases @Represented.maintain g D K _ metric represented call with ⟨next, ran, _⟩
    exact ⟨next, ran⟩
  · exact represented.toWellFormed.search_total query k efSearch

end

/-- The orders in which the maps are stored. -/
def storedOrder : CleanupOrder :=
  ⟨.identity _, .identity _⟩

/-- The entry point is deleted and removed. -/
theorem removed_entry_represented :
    ∃ g, Reached (maintain discrete) (fun _ _ => True) smallGraph g ∧ g.nodes.keys = [2] ∧
      g.Represented ∧ (∀ call, ∃ next, g.maintain discrete call = some next) ∧
      ∀ query k efSearch, ∃ result, g.search discrete query k efSearch = some result := by
  have evaluated : ∃ g ∈ runAllowed (maintain discrete) (fun _ _ => True) smallGraph
      [.call (.insert 1 [] [5] 1), .call (.insert 2 [] [7] 0), .call (.markDeleted 1),
        .cleanup storedOrder], g.nodes.keys = [2] := by
    decide +kernel
  rcases Reached.of_evaluated evaluated with ⟨g, reached, keys⟩
  have created : Graph.new smallOptions = .ok smallGraph := rfl
  exact ⟨g, reached, keys, graph_represented created reached⟩

end Graph

end Theseon.Hnsw
