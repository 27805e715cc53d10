import Theseon.Hnsw.Layer

/-!
# Insertion keeps the graph well formed

A new node is linked to nodes that a beam search has found on the layer, and their
lists of neighbours are extended or cut, so every link leads to a node of its layer.
Apart from the neighbours, the nodes stay as they are.
-/

namespace Theseon.Hnsw

open Lib List
open Std (ExtTreeMap)

/-- The node without its links. -/
def Node.bare (node : Node) : Node :=
  { node with neighbors := [] }

theorem Node.level_eq_of_bare {first second : Node} (same : first.bare = second.bare) :
    first.level = second.level := by
  have level := congrArg Node.level same
  exact level

namespace Graph

/-- Only the neighbours of nodes differ. -/
structure Relinks (g next : Graph) : Prop where
  nodes : ∀ id : Nat, (next.nodes[id]?).map Node.bare = (g.nodes[id]?).map Node.bare
  entryPoint : next.entryPoint = g.entryPoint
  maxLevel : next.maxLevel = g.maxLevel
  opts : next.opts = g.opts
  tombstones : next.tombstones = g.tombstones

variable {g next : Graph} {layer : Nat}

theorem Relinks.refl (g : Graph) : Relinks g g :=
  ⟨fun _ => rfl, rfl, rfl, rfl, rfl⟩

theorem Relinks.trans {middle : Graph} (first : Relinks g middle) (second : Relinks middle next) :
    Relinks g next where
  nodes id := (second.nodes id).trans (first.nodes id)
  entryPoint := second.entryPoint.trans first.entryPoint
  maxLevel := second.maxLevel.trans first.maxLevel
  opts := second.opts.trans first.opts
  tombstones := second.tombstones.trans first.tombstones

/-- A node is found on both sides, up to its neighbours. -/
theorem Relinks.found (relinks : Relinks g next) {id : Nat} {node : Node}
    (isNode : g.nodes[id]? = some node) :
    ∃ other : Node, next.nodes[id]? = some other ∧ other.bare = node.bare := by
  have same := relinks.nodes id
  rw [isNode] at same
  exact Option.map_eq_some_iff.mp same

theorem Relinks.present (relinks : Relinks g next) {id : Nat} (present : g.Present layer id) :
    next.Present layer id := by
  rcases present with ⟨node, isNode, on⟩
  rcases relinks.found isNode with ⟨other, isOther, same⟩
  exact ⟨other, isOther, (Node.level_eq_of_bare same).symm ▸ on⟩

/-! ## One list of neighbours -/

variable {neighbors : List Nat}

/-- A node gets new neighbours on a layer, which are on that layer. -/
theorem WellFormed.setNeighbors (wf : g.WellFormed) {id : Nat} (present : g.Present layer id)
    (linked : ∀ nid ∈ neighbors, g.Present layer nid) :
    ∃ next, g.setNeighbors id layer neighbors = some next ∧ next.WellFormed ∧ Relinks g next := by
  rcases present with ⟨node, isNode, on⟩
  have lookup : ∀ other : Nat,
      (g.nodes.insert id (node.setNeighbors layer neighbors))[other]? =
        if id = other then some (node.setNeighbors layer neighbors) else g.nodes[other]? := by
    intro other
    rw [getElem?_insert_if]
  have relinks : Relinks g
      { g with nodes := g.nodes.insert id (node.setNeighbors layer neighbors) } := by
    refine ⟨fun other => ?_, rfl, rfl, rfl, rfl⟩
    dsimp only
    rw [lookup other]
    split
    · rename_i same
      rw [← same, isNode]
      rfl
    · rfl
  refine ⟨_, Option.map_eq_some_iff.mpr ⟨node, isNode, rfl⟩, ?_, relinks⟩
  constructor
  · exact forall_insert wf.named (wf.named id node isNode)
  · exact forall_insert wf.layered (length_set.trans (wf.layered id node isNode))
  · intro other otherLayer others isOthers nid mem
    apply relinks.present
    rcases Option.bind_eq_some_iff.mp isOthers with ⟨found, isFound, isLayer⟩
    dsimp only at isFound
    rw [lookup other] at isFound
    split at isFound
    · cases isFound
      rw [Node.setNeighbors, getElem?_set] at isLayer
      split at isLayer
      · rename_i sameLayer
        split at isLayer
        · cases isLayer
          exact sameLayer ▸ linked nid mem
        · cases isLayer
      · exact wf.linked id otherLayer others (Option.bind_eq_some_iff.mpr ⟨node, isNode, isLayer⟩)
          nid mem
    · exact wf.linked other otherLayer others
        (Option.bind_eq_some_iff.mpr ⟨found, isFound, isLayer⟩) nid mem
  · rintro ⟨other, mem⟩
    have before : ∃ other, other ∈ g.nodes := by
      rcases ExtTreeMap.mem_insert.mp mem with same | old
      · exact ⟨id, mem_iff_get?.mpr ⟨node, isNode⟩⟩
      · exact ⟨other, old⟩
    rcases wf.entry before with ⟨entry, isEntry, level⟩
    rcases relinks.found isEntry with ⟨now, isNow, same⟩
    exact ⟨now, isNow, (Node.level_eq_of_bare same).trans level⟩
  · exact wf.beams

section

variable {D K : Type} [LinearOrder K] {metric : Metric D K}

/-! ## Selection -/

theorem allM_ne_none {α : Type} {p : α → Option Bool} {items : List α}
    (defined : ∀ item ∈ items, ∃ b, p item = some b) : ∃ b, items.allM p = some b := by
  induction items with
  | nil => exact ⟨true, rfl⟩
  | cons item rest ih =>
    rcases defined item mem_cons_self with ⟨b, isB⟩
    rcases ih fun other mem => defined other (mem_cons_of_mem _ mem) with ⟨all, isAll⟩
    rw [List.allM, isB]
    cases b with
    | false => exact ⟨false, rfl⟩
    | true => exact ⟨all, isAll⟩

theorem selectDiverse_subset {maxN : Nat} {selected candidates : List (HeapItem D)}
    (known : ∀ c ∈ selected ++ candidates, c.id ∈ g.nodes) :
    ∃ chosen, g.selectDiverse metric maxN selected candidates = some chosen ∧
      ∀ c ∈ chosen, c ∈ selected ++ candidates := by
  induction candidates generalizing selected with
  | nil =>
    rw [append_nil]
    exact ⟨selected, rfl, fun _ mem => mem⟩
  | cons c rest ih =>
    rw [selectDiverse]
    split
    · exact ⟨selected, rfl, fun _ mem => mem_append_left _ mem⟩
    have isNode := known c (mem_append_right _ mem_cons_self)
    rcases mem_iff_get?.mp isNode with ⟨cNode, found⟩
    rw [found, Option.bind_some]
    have defined : ∀ s ∈ selected, ∃ b, ((g.nodes[s.id]?).map fun sNode : Node =>
        !metric.less (metric.dist cNode.vector sNode.vector) c.dist) = some b := by
      intro s mem
      rcases mem_iff_get?.mp (known s (mem_append_left _ mem)) with
        ⟨sNode, isS⟩
      rw [isS]
      exact ⟨_, rfl⟩
    rcases allM_ne_none defined with ⟨good, isGood⟩
    rw [isGood, Option.bind_some]
    have smaller : ∀ other ∈ (if good then selected ++ [c] else selected) ++ rest,
        other ∈ selected ++ c :: rest := by
      intro other mem
      cases good with
      | true =>
        rw [if_pos rfl, append_assoc, singleton_append] at mem
        exact mem
      | false =>
        rcases mem_append.mp mem with old | later
        · exact mem_append_left _ old
        · exact mem_append_right _ (mem_cons_of_mem _ later)
    rcases ih fun other mem => known other (smaller other mem) with ⟨chosen, ran, subset⟩
    exact ⟨chosen, ran, fun other mem => smaller other (subset other mem)⟩

theorem keepPruned_subset {maxN : Nat} {chosen : List Nat}
    {selected candidates : List (HeapItem D)} :
    ∀ c ∈ keepPruned maxN chosen selected candidates, c ∈ selected ++ candidates := by
  induction candidates generalizing selected with
  | nil =>
    rw [append_nil]
    exact fun _ mem => mem
  | cons c rest ih =>
    intro other mem
    rw [keepPruned] at mem
    split at mem
    · exact mem_append_left _ mem
    have among := ih other mem
    split at among
    · rcases mem_append.mp among with old | later
      · exact mem_append_left _ old
      · exact mem_append_right _ (mem_cons_of_mem _ later)
    · rw [append_assoc, singleton_append] at among
      exact among

theorem selectNeighborsHeuristic_subset {maxN : Nat} {candidates : List (HeapItem D)}
    (known : ∀ c ∈ candidates, c.id ∈ g.nodes) :
    ∃ chosen, g.selectNeighborsHeuristic metric candidates maxN = some chosen ∧
      ∀ c ∈ chosen, c ∈ candidates := by
  rcases @selectDiverse_subset g D K _ metric maxN [] candidates known with
    ⟨diverse, ran, subset⟩
  refine ⟨_, Option.map_eq_some_iff.mpr ⟨diverse, ran, rfl⟩, fun c mem => ?_⟩
  rcases mem_append.mp (keepPruned_subset c mem) with isDiverse | isCandidate
  · exact subset c isDiverse
  · exact isCandidate

theorem mem_of_mem_shrinkNeighbors {vector : Vec} {maxN nid : Nat}
    (mem : nid ∈ g.shrinkNeighbors metric vector neighbors maxN) : nid ∈ neighbors := by
  rcases mem_map.mp mem with ⟨item, isTaken, rfl⟩
  have isRanked := metric.sorter.mem_sort.mp (mem_of_mem_take isTaken)
  rcases mem_filterMap.mp isRanked with ⟨other, isNeighbor, ranked⟩
  rcases Option.map_eq_some_iff.mp ranked with ⟨node, _, rfl⟩
  exact isNeighbor

/-! ## Connecting a node -/

theorem WellFormed.addReverse (wf : g.WellFormed) {id : Nat} (present : g.Present layer id)
    {n : HeapItem D} (other : g.Present layer n.id) :
    ∃ next, g.addReverse metric id layer n = some next ∧ next.WellFormed ∧ Relinks g next := by
  rcases wf.neighborsAt_of_present other with ⟨neighbors, isNeighbors⟩
  rcases Option.bind_eq_some_iff.mp isNeighbors with ⟨neighbor, isNeighbor, isLayer⟩
  have linked : ∀ nid ∈ neighbors ++ [id], g.Present layer nid := by
    intro nid mem
    rcases mem_append.mp mem with old | isNew
    · exact wf.linked _ _ _ isNeighbors nid old
    · rw [mem_singleton.mp isNew]
      exact present
  rw [Graph.addReverse, isNeighbor, Option.bind_some, isLayer, Option.bind_some]
  apply wf.setNeighbors other
  intro nid mem
  split at mem
  · exact linked nid (mem_of_mem_shrinkNeighbors mem)
  · exact linked nid mem

theorem WellFormed.foldlM_addReverse (wf : g.WellFormed) {id : Nat} (present : g.Present layer id)
    {neighbors : List (HeapItem D)} (others : ∀ n ∈ neighbors, g.Present layer n.id) :
    ∃ next, neighbors.foldlM (Graph.addReverse metric id layer) g = some next ∧
      next.WellFormed ∧ Relinks g next := by
  induction neighbors generalizing g with
  | nil => exact ⟨g, rfl, wf, .refl g⟩
  | cons n rest ih =>
    rcases @WellFormed.addReverse g layer D K _ metric wf id present n
      (others n mem_cons_self) with ⟨middle, added, middleWf, relinks⟩
    rcases ih middleWf (relinks.present present)
      (fun other mem => relinks.present (others other (mem_cons_of_mem _ mem))) with
      ⟨final, ran, finalWf, later⟩
    refine ⟨final, ?_, finalWf, relinks.trans later⟩
    rw [foldlM_cons, added]
    exact ran

theorem WellFormed.connectLayer (wf : g.WellFormed) {id : Nat} (present : g.Present layer id)
    {vec : Vec} {entryIDs : List Nat} (entries : ∀ entry ∈ entryIDs, g.Present layer entry) :
    ∃ next found, g.connectLayer metric id vec layer entryIDs = some (next, found) ∧
      next.WellFormed ∧ Relinks g next ∧ ∀ entry ∈ found, next.Present layer entry := by
  rcases @searchLayer_spec g layer D K _ metric vec g.opts.efConstruct wf wf.beams.1 entryIDs
    (fun entry mem => (entries entry mem).mem) with ⟨items, searched, finding⟩
  have candidates : ∀ c ∈ metric.sorter.sort items, g.Present layer c.id := by
    intro c mem
    rcases finding.sound c (metric.sorter.mem_sort.mp mem) with ⟨_, _, source, isSource, reaches⟩
    exact wf.present_of_reaches (entries source isSource) reaches
  rcases @selectNeighborsHeuristic_subset g D K _ metric (g.neighborCap layer) _
    (fun c mem => (candidates c mem).mem) with ⟨neighbors, selected, subset⟩
  have others : ∀ n ∈ neighbors, g.Present layer n.id := fun n mem => candidates n (subset n mem)
  have linked : ∀ nid ∈ neighbors.map HeapItem.id, g.Present layer nid := by
    intro nid mem
    rcases mem_map.mp mem with ⟨n, isNeighbor, rfl⟩
    exact others n isNeighbor
  rcases wf.setNeighbors present linked with ⟨middle, set, middleWf, relinks⟩
  rcases @WellFormed.foldlM_addReverse middle layer D K _ metric middleWf id
    (relinks.present present) neighbors (fun n mem => relinks.present (others n mem)) with
    ⟨final, ran, finalWf, later⟩
  refine ⟨final, (metric.sorter.sort items).map HeapItem.id, ?_, finalWf, relinks.trans later, ?_⟩
  · rw [Graph.connectLayer, searched, Option.bind_some]
    dsimp only
    rw [selected, Option.bind_some, set, Option.bind_some, ran]
    rfl
  intro entry mem
  rcases mem_map.mp mem with ⟨c, isCandidate, rfl⟩
  exact (relinks.trans later).present (candidates c isCandidate)

theorem WellFormed.connectLayers (wf : g.WellFormed) {id count : Nat} {vec : Vec}
    {entryIDs : List Nat} (present : ∀ layer < count, g.Present layer id)
    (entries : ∀ entry ∈ entryIDs, g.Present (count - 1) entry) :
    ∃ next, Graph.connectLayers metric id vec count g entryIDs = some next ∧ next.WellFormed ∧
      Relinks g next := by
  induction count generalizing g entryIDs with
  | zero => exact ⟨g, rfl, wf, .refl g⟩
  | succ count ih =>
    rcases @WellFormed.connectLayer g count D K _ metric wf id (present count (Nat.lt_succ_self _))
      vec entryIDs entries with ⟨middle, found, connected, middleWf, relinks, foundPresent⟩
    have lower : ∀ entry ∈ found, middle.Present (count - 1) entry := by
      intro entry mem
      rcases foundPresent entry mem with ⟨node, isNode, on⟩
      exact ⟨node, isNode, (Nat.sub_le _ _).trans on⟩
    rcases ih middleWf
      (fun layer below => relinks.present (present layer (Nat.lt_succ_of_lt below))) lower with
      ⟨final, ran, finalWf, later⟩
    refine ⟨final, ?_, finalWf, relinks.trans later⟩
    rw [Graph.connectLayers, connected, Option.bind_some]
    exact ran

/-! ## Insertion -/

theorem getElem?_addNode (g : Graph) (node : Node) (id : Nat) :
    (g.addNode node).nodes[id]? = if node.id = id then some node else g.nodes[id]? := by
  rw [addNode, getElem?_insert_if]

theorem freshNode_neighbors {id level : Nat} {externalID : ExternalID} {vec : Vec}
    (isLayer : (freshNode id externalID vec level).neighbors[layer]? =
      some neighbors) : neighbors = [] := by
  rw [freshNode, getElem?_replicate] at isLayer
  split at isLayer
  · exact (Option.some.inj isLayer).symm
  · cases isLayer

/-- A node without links is added.  The entry point stays where it is, or becomes the new
node. -/
theorem WellFormed.addNode (wf : g.WellFormed) {id level entry top : Nat} {externalID : ExternalID}
    {vec : Vec} (new : id ∉ g.nodes)
    (isEntry : ∃ node : Node, (g.addNode (freshNode id externalID vec level)).nodes[entry]? =
      some node ∧ node.level = top) :
    WellFormed
      { g.addNode (freshNode id externalID vec level) with
        entryPoint := entry, maxLevel := top } := by
  have lookup := getElem?_addNode g (freshNode id externalID vec level)
  have older : ∀ {layer other : Nat}, g.Present layer other →
      Present
        { g.addNode (freshNode id externalID vec level) with entryPoint := entry, maxLevel := top }
        layer other := by
    rintro layer other ⟨node, isNode, on⟩
    refine ⟨node, ?_, on⟩
    dsimp only
    rw [lookup other, if_neg]
    · exact isNode
    · rintro rfl
      exact new (mem_iff_get?.mpr ⟨node, isNode⟩)
  constructor
  · exact forall_insert wf.named rfl
  · exact forall_insert wf.layered length_replicate
  · intro other layer neighbors isNeighbors nid mem
    rcases Option.bind_eq_some_iff.mp isNeighbors with ⟨node, isNode, isLayer⟩
    dsimp only at isNode
    rw [lookup other] at isNode
    split at isNode
    · cases isNode
      rw [freshNode_neighbors isLayer] at mem
      cases mem
    · exact older (wf.linked other layer neighbors
        (Option.bind_eq_some_iff.mpr ⟨node, isNode, isLayer⟩) nid mem)
  · exact fun _ => isEntry
  · exact wf.beams

theorem WellFormed.raise (wf : g.WellFormed) {id level : Nat}
    (isNode : ∃ node : Node, g.nodes[id]? = some node ∧ node.level = level) :
    (g.raise id level).WellFormed := by
  rw [Graph.raise]
  split
  · exact ⟨wf.named, wf.layered, wf.linked, fun _ => isNode, wf.beams⟩
  · exact wf

/-- The nodes, the options and the deleted nodes stay. -/
theorem raise_same (g : Graph) (id level : Nat) :
    (g.raise id level).nodes = g.nodes ∧ (g.raise id level).opts = g.opts ∧
      (g.raise id level).tombstones = g.tombstones := by
  rw [Graph.raise]
  split
  · exact ⟨rfl, rfl, rfl⟩
  · exact ⟨rfl, rfl, rfl⟩

/-- What an insertion can do. -/
inductive Inserted (g : Graph) (id : Nat) (externalID : ExternalID) (vec : Vec) (level : Nat) :
    Except GraphError Graph → Prop where
  | dimensionMismatch (mismatch : vec.length ≠ g.opts.dim) :
      Inserted g id externalID vec level (.error .dimensionMismatch)
  | duplicateID (duplicate : id ∈ g.nodes) :
      Inserted g id externalID vec level (.error .duplicateID)
  | memoryLimitExceeded (limited : 0 < g.opts.maxMemoryBytes) :
      Inserted g id externalID vec level (.error .memoryLimitExceeded)
  | added {next : Graph} (fits : vec.length = g.opts.dim) (new : id ∉ g.nodes)
      (wf : next.WellFormed)
      (nodes : ∀ other : Nat, (next.nodes[other]?).map Node.bare =
        if id = other then some (freshNode id externalID vec level).bare
        else (g.nodes[other]?).map Node.bare)
      (opts : next.opts = g.opts) (tombstones : next.tombstones = g.tombstones) :
      Inserted g id externalID vec level (.ok next)

theorem bare_addNode (g : Graph) (node : Node) (id : Nat) :
    ((g.addNode node).nodes[id]?).map Node.bare =
      if node.id = id then some node.bare else (g.nodes[id]?).map Node.bare := by
  rw [getElem?_addNode]
  split
  · rfl
  · rfl

theorem exists_mem_of_size_ne_zero (notEmpty : g.nodes.size ≠ 0) : ∃ id, id ∈ g.nodes := by
  by_contra none
  apply notEmpty
  rw [← ExtTreeMap.eq_empty_iff_size_eq_zero, ExtTreeMap.eq_empty_iff_forall_not_mem]
  exact fun id mem => none ⟨id, mem⟩

section

variable {id level : Nat} {externalID : ExternalID} {vec : Vec}

/-- A graph that is not empty keeps its entry point when a node without links is added. -/
theorem WellFormed.addFresh (wf : g.WellFormed) (new : id ∉ g.nodes)
    (isSome : ∃ other, other ∈ g.nodes) :
    (g.addNode (freshNode id externalID vec level)).WellFormed ∧
      ∃ entry : Node, (g.addNode (freshNode id externalID vec level)).nodes[g.entryPoint]? =
        some entry ∧ entry.level = g.maxLevel := by
  rcases wf.entry isSome with ⟨entry, isEntry, entryLevel⟩
  have entryKept : (g.addNode (freshNode id externalID vec level)).nodes[g.entryPoint]? =
      some entry := by
    rw [getElem?_addNode, if_neg]
    · exact isEntry
    intro same
    change id = g.entryPoint at same
    exact new (mem_iff_get?.mpr ⟨entry, same ▸ isEntry⟩)
  exact ⟨wf.addNode new ⟨entry, entryKept, entryLevel⟩, entry, entryKept, entryLevel⟩

theorem getElem?_addFresh (g : Graph) :
    (g.addNode (freshNode id externalID vec level)).nodes[id]? =
      some (freshNode id externalID vec level) := by
  rw [getElem?_addNode]
  exact if_pos rfl

/-- The descent ends on the topmost layer that the new node shares with the graph. -/
theorem WellFormed.descend_fresh (wf : g.WellFormed) (new : id ∉ g.nodes)
    (isSome : ∃ other, other ∈ g.nodes) :
    ∃ ep, (g.addNode (freshNode id externalID vec level)).descend metric vec level
        (g.maxLevel - level) g.entryPoint = some ep ∧
      (g.addNode (freshNode id externalID vec level)).Present (min level g.maxLevel) ep := by
  rcases @WellFormed.addFresh g id level externalID vec wf new isSome with
    ⟨addedWf, entry, entryKept, entryLevel⟩
  rcases Nat.le_total level g.maxLevel with below | above
  · rw [Nat.min_eq_left below]
    apply descend_present addedWf
    exact ⟨entry, entryKept, by omega⟩
  · rw [Nat.min_eq_right above, Nat.sub_eq_zero_of_le above]
    exact ⟨_, rfl, entry, entryKept, entryLevel.ge⟩

/-- The new node is on all layers on which it is connected. -/
theorem present_fresh {top layer : Nat} (below : layer < min level top + 1) :
    (g.addNode (freshNode id externalID vec level)).Present layer id :=
  ⟨_, getElem?_addFresh g, Nat.le_trans (Nat.le_of_lt_succ below) (Nat.min_le_left _ _)⟩

end

/-- An insertion never fails to end, never looks for what is not there, and keeps the
graph well formed. -/
theorem WellFormed.insert (wf : g.WellFormed) (id : Nat) (externalID : ExternalID) (vec : Vec)
    (level : Nat) :
    ∃ result, g.insert metric id externalID vec level = some result ∧
      Inserted g id externalID vec level result := by
  rw [Graph.insert]
  split
  · rename_i mismatch
    exact ⟨_, rfl, .dimensionMismatch mismatch⟩
  rename_i fits
  split
  · rename_i duplicate
    exact ⟨_, rfl, .duplicateID duplicate⟩
  rename_i new
  split
  · rename_i full
    exact ⟨_, rfl, .memoryLimitExceeded full.1⟩
  have lookup := bare_addNode g (freshNode id externalID vec level)
  dsimp only
  split
  · refine ⟨_, rfl, .added (not_ne_iff.mp fits) new ?_ lookup rfl rfl⟩
    exact wf.addNode new ⟨_, getElem?_addFresh g, rfl⟩
  rename_i notEmpty
  have isSome := exists_mem_of_size_ne_zero notEmpty
  rcases @WellFormed.addFresh g id level externalID vec wf new isSome with ⟨addedWf, _⟩
  rcases @WellFormed.descend_fresh g D K _ metric id level externalID vec wf new isSome with
    ⟨ep, isEp, epPresent⟩
  rcases @WellFormed.connectLayers _ D K _ metric addedWf id _ vec [ep]
    (fun layer below => present_fresh below)
    (fun entry mem => mem_singleton.mp mem ▸ epPresent) with
    ⟨connected, ran, connectedWf, relinks⟩
  rw [isEp, Option.bind_some, ran]
  rcases relinks.found (getElem?_addFresh g) with ⟨node, isNode, bare⟩
  rcases raise_same connected id level with ⟨nodes, opts, tombstones⟩
  refine ⟨_, rfl, .added (not_ne_iff.mp fits) new ?_ ?_ ?_ ?_⟩
  · exact connectedWf.raise ⟨node, isNode, Node.level_eq_of_bare bare⟩
  · intro other
    rw [nodes, relinks.nodes]
    exact lookup other
  · exact opts.trans relinks.opts
  · exact tombstones.trans relinks.tombstones

end

end Graph

end Theseon.Hnsw
