import Theseon.Hnsw.Insert

/-!
# The lists of neighbours

No node lists itself or lists a neighbour twice, and no list is longer than the
capacity of its layer.  A new node is on no list of a layer until it is connected there,
so the search of that layer does not find it, and it is added at most once to the list
of each of its neighbours.
-/

namespace Theseon.Hnsw.Graph

open Lib List

variable {g next : Graph} {layer : Nat}

/-- A list of neighbours as the list of a node on a layer. -/
structure TidyList (g : Graph) (id layer : Nat) (neighbors : List Nat) : Prop where
  irreflexive : id ∉ neighbors
  nodup : neighbors.Nodup
  capped : neighbors.length ≤ g.neighborCap layer

def Tidy (g : Graph) : Prop :=
  ∀ id layer neighbors, g.neighborsAt id layer = some neighbors → g.TidyList id layer neighbors

/-- The node is on no list of the layer. -/
def Unlisted (g : Graph) (id layer : Nat) : Prop :=
  ∀ other neighbors, g.neighborsAt other layer = some neighbors → id ∉ neighbors

/-- Only lists of one layer differ. -/
structure Rewires (g next : Graph) (layer : Nat) : Prop where
  opts : next.opts = g.opts
  memoryBytes : next.memoryBytes = g.memoryBytes
  elsewhere : ∀ other otherLayer, otherLayer ≠ layer →
    next.neighborsAt other otherLayer = g.neighborsAt other otherLayer

theorem Rewires.refl (g : Graph) (layer : Nat) : Rewires g g layer :=
  ⟨rfl, rfl, fun _ _ _ => rfl⟩

theorem Rewires.trans {middle : Graph} (first : Rewires g middle layer)
    (second : Rewires middle next layer) : Rewires g next layer where
  opts := second.opts.trans first.opts
  memoryBytes := second.memoryBytes.trans first.memoryBytes
  elsewhere other otherLayer different :=
    (second.elsewhere other otherLayer different).trans
      (first.elsewhere other otherLayer different)

theorem neighborCap_eq (same : next.opts = g.opts) (layer : Nat) :
    next.neighborCap layer = g.neighborCap layer := by
  rw [neighborCap, neighborCap, same]

theorem TidyList.congr {id : Nat} {neighbors : List Nat} (tidyList : g.TidyList id layer neighbors)
    (opts : next.opts = g.opts) : next.TidyList id layer neighbors :=
  ⟨tidyList.irreflexive, tidyList.nodup, (neighborCap_eq opts _).symm ▸ tidyList.capped⟩

/-- The entry point and the deleted nodes do not matter. -/
theorem Tidy.congr (tidy : g.Tidy) (nodes : next.nodes = g.nodes) (opts : next.opts = g.opts) :
    next.Tidy := by
  intro id layer neighbors isNeighbors
  rw [neighborsAt, nodes] at isNeighbors
  exact (tidy id layer neighbors isNeighbors).congr opts

/-! ## One list of neighbours -/

section

variable {id : Nat} {neighbors : List Nat}

/-- The list is replaced if there is one. -/
theorem neighborsAt_setNeighbors (set : g.setNeighbors id layer neighbors = some next)
    (other otherLayer : Nat) :
    next.neighborsAt other otherLayer =
      if id = other ∧ layer = otherLayer then (g.neighborsAt id layer).map fun _ => neighbors
      else g.neighborsAt other otherLayer := by
  rcases Option.map_eq_some_iff.mp set with ⟨node, isNode, rfl⟩
  rw [neighborsAt, getElem?_insert_if]
  by_cases sameNode : id = other
  · subst sameNode
    rw [if_pos rfl, Option.bind_some, Node.setNeighbors, getElem?_set, neighborsAt, isNode]
    by_cases sameLayer : layer = otherLayer
    · subst sameLayer
      rw [if_pos rfl, if_pos (And.intro rfl rfl), Option.bind_some]
      split
      · rename_i within
        rw [getElem?_eq_getElem within]
        rfl
      rename_i beyond
      rw [getElem?_eq_none (Nat.not_lt.mp beyond)]
      rfl
    · rw [if_neg sameLayer, if_neg fun both => sameLayer both.2, neighborsAt, isNode]
      rfl
  · rw [if_neg sameNode, if_neg fun both => sameNode both.1]
    rfl

theorem rewires_setNeighbors (set : g.setNeighbors id layer neighbors = some next) :
    Rewires g next layer := by
  have lists := neighborsAt_setNeighbors set
  rcases Option.map_eq_some_iff.mp set with ⟨node, _, rfl⟩
  refine ⟨rfl, rfl, fun other otherLayer different => ?_⟩
  rw [lists, if_neg fun both => different both.2.symm]

theorem Tidy.setNeighbors (tidy : g.Tidy) (tidyList : g.TidyList id layer neighbors)
    (set : g.setNeighbors id layer neighbors = some next) : next.Tidy := by
  have opts := (rewires_setNeighbors set).opts
  intro other otherLayer others isOthers
  rw [neighborsAt_setNeighbors set] at isOthers
  split at isOthers
  · rename_i same
    rcases same with ⟨rfl, rfl⟩
    rcases Option.map_eq_some_iff.mp isOthers with ⟨_, _, rfl⟩
    exact tidyList.congr opts
  · exact (tidy other otherLayer others isOthers).congr opts

end

section

variable {D K : Type} [LinearOrder K] {metric : Metric D K} {query : Vec}

variable {entryIDs : List Nat} {maxN : Nat} {selected candidates : List (HeapItem D)}

/-! ## Selection -/

theorem selectDiverse_sublist {chosen : List (HeapItem D)}
    (ran : g.selectDiverse metric maxN selected candidates = some chosen) :
    chosen.Sublist (selected ++ candidates) ∧
      (selected.length ≤ maxN → chosen.length ≤ maxN) := by
  induction candidates generalizing selected with
  | nil =>
    cases ran
    rw [append_nil]
    exact ⟨List.Sublist.refl _, id⟩
  | cons c rest ih =>
    rw [selectDiverse] at ran
    split at ran
    · cases ran
      exact ⟨sublist_append_left _ _, id⟩
    rename_i room
    rcases Option.bind_eq_some_iff.mp ran with ⟨cNode, _, ran⟩
    rcases Option.bind_eq_some_iff.mp ran with ⟨good, _, ran⟩
    rcases ih ran with ⟨sublist, short⟩
    cases good with
    | true =>
      rw [if_pos rfl] at sublist short
      rw [append_assoc, singleton_append] at sublist
      refine ⟨sublist, fun _ => short ?_⟩
      rw [length_append, length_singleton]
      exact Nat.lt_of_not_le room
    | false =>
      refine ⟨sublist.trans ?_, short⟩
      exact (List.Sublist.refl _).append (sublist_cons_self _ _)

/-- What is added to the selection is not among the names chosen before. -/
theorem keepPruned_nodup {chosen : List Nat} (distinct : (selected.map HeapItem.id).Nodup)
    (candidatesDistinct : (candidates.map HeapItem.id).Nodup)
    (apart : ∀ c ∈ candidates, c.id ∉ chosen → c.id ∉ selected.map HeapItem.id) :
    ((keepPruned maxN chosen selected candidates).map HeapItem.id).Nodup := by
  induction candidates generalizing selected with
  | nil => exact distinct
  | cons c rest ih =>
    rw [keepPruned]
    rw [map_cons, nodup_cons] at candidatesDistinct
    split
    · exact distinct
    split
    · exact ih distinct candidatesDistinct.2 fun other mem =>
        apart other (mem_cons_of_mem _ mem)
    rename_i notChosen
    apply ih
    · rw [map_append, map_singleton]
      apply distinct.append (nodup_singleton _)
      rw [disjoint_singleton]
      exact apart c mem_cons_self notChosen
    · exact candidatesDistinct.2
    · intro other mem otherNotChosen
      rw [map_append, mem_append, map_singleton, mem_singleton]
      rintro (old | same)
      · exact apart other (mem_cons_of_mem _ mem) otherNotChosen old
      · exact candidatesDistinct.1 (same ▸ mem_map_of_mem mem)

theorem length_keepPruned_le {chosen : List Nat} (short : selected.length ≤ maxN) :
    (keepPruned maxN chosen selected candidates).length ≤ maxN := by
  induction candidates generalizing selected with
  | nil => exact short
  | cons c rest ih =>
    rw [keepPruned]
    split
    · exact short
    rename_i room
    apply ih
    split
    · exact short
    · rw [length_append, length_singleton]
      exact Nat.lt_of_not_le room

theorem selectNeighborsHeuristic_tidy {chosen : List (HeapItem D)}
    (distinct : (candidates.map HeapItem.id).Nodup)
    (ran : g.selectNeighborsHeuristic metric candidates maxN = some chosen) :
    (chosen.map HeapItem.id).Nodup ∧ chosen.length ≤ maxN := by
  rcases Option.map_eq_some_iff.mp ran with ⟨diverse, isDiverse, rfl⟩
  rcases selectDiverse_sublist isDiverse with ⟨sublist, short⟩
  constructor
  · apply keepPruned_nodup
    · exact distinct.sublist (sublist.map HeapItem.id)
    · exact distinct
    · exact fun _ _ notChosen => notChosen
  · exact length_keepPruned_le (short (Nat.zero_le _))

theorem shrinkNeighbors_tidy {vector : Vec} {neighbors : List Nat} (distinct : neighbors.Nodup)
    (maxN : Nat) :
    (g.shrinkNeighbors metric vector neighbors maxN).Nodup ∧
      (g.shrinkNeighbors metric vector neighbors maxN).length ≤ maxN := by
  constructor
  · have ranked : ((neighbors.filterMap fun nid => (g.nodes[nid]?).map fun n : Node =>
        (⟨nid, metric.dist vector n.vector⟩ : HeapItem D)).map HeapItem.id).Nodup := by
      rw [map_filterMap]
      apply distinct.filterMap
      intro nid other id isFirst isSecond
      simp only [Option.map_map, Option.mem_def, Option.map_eq_some_iff] at isFirst isSecond
      rcases isFirst with ⟨_, _, rfl⟩
      rcases isSecond with ⟨_, _, same⟩
      exact same.symm
    rw [← ((metric.sorter.perm _).map HeapItem.id).nodup_iff] at ranked
    rw [shrinkNeighbors]
    exact ranked.sublist ((take_sublist _ _).map HeapItem.id)
  · rw [shrinkNeighbors, length_map]
    exact length_take_le _ _

/-! ## Connecting a node -/

theorem Tidy.addReverse (tidy : g.Tidy) {id : Nat} {n : HeapItem D} (other : n.id ≠ id)
    (unlisted : ∀ neighbors, g.neighborsAt n.id layer = some neighbors → id ∉ neighbors)
    (ran : g.addReverse metric id layer n = some next) :
    next.Tidy ∧ Rewires g next layer ∧
      ∀ m, m ≠ n.id → next.neighborsAt m layer = g.neighborsAt m layer := by
  rcases Option.bind_eq_some_iff.mp ran with ⟨neighbor, isNeighbor, ran⟩
  rcases Option.bind_eq_some_iff.mp ran with ⟨neighbors, isLayer, set⟩
  have isNeighbors : g.neighborsAt n.id layer = some neighbors :=
    Option.bind_eq_some_iff.mpr ⟨neighbor, isNeighbor, isLayer⟩
  have old := tidy n.id layer neighbors isNeighbors
  have extended : (neighbors ++ [id]).Nodup := by
    apply old.nodup.append (nodup_singleton _)
    rw [disjoint_singleton]
    exact unlisted neighbors isNeighbors
  have notSelf : n.id ∉ neighbors ++ [id] := by
    rw [mem_append, mem_singleton, not_or]
    exact ⟨old.irreflexive, other⟩
  refine ⟨tidy.setNeighbors ?_ set, rewires_setNeighbors set, fun m different => ?_⟩
  · split
    · have shrunk := @shrinkNeighbors_tidy g D K _ metric neighbor.vector _ extended
        (g.neighborCap layer)
      exact ⟨fun mem => notSelf (mem_of_mem_shrinkNeighbors mem), shrunk.1, shrunk.2⟩
    · rename_i fits
      exact ⟨notSelf, extended, Nat.not_lt.mp fits⟩
  · rw [neighborsAt_setNeighbors set, if_neg fun both => different both.1.symm]

theorem Tidy.foldlM_addReverse (tidy : g.Tidy) {id : Nat} {neighbors : List (HeapItem D)}
    (distinct : (neighbors.map HeapItem.id).Nodup) (others : ∀ n ∈ neighbors, n.id ≠ id)
    (unlisted : ∀ n ∈ neighbors, ∀ list, g.neighborsAt n.id layer = some list → id ∉ list)
    (ran : neighbors.foldlM (Graph.addReverse metric id layer) g = some next) :
    next.Tidy ∧ Rewires g next layer := by
  induction neighbors generalizing g with
  | nil =>
    cases ran
    exact ⟨tidy, .refl _ layer⟩
  | cons n rest ih =>
    rw [foldlM_cons] at ran
    rcases Option.bind_eq_some_iff.mp ran with ⟨middle, added, ran⟩
    rw [map_cons, nodup_cons] at distinct
    rcases tidy.addReverse (others n mem_cons_self) (unlisted n mem_cons_self) added with
      ⟨middleTidy, rewires, same⟩
    have later : ∀ m ∈ rest, ∀ list, middle.neighborsAt m.id layer = some list → id ∉ list := by
      intro m mem list isList
      rw [same m.id fun equal => distinct.1 (equal ▸ mem_map_of_mem mem)] at isList
      exact unlisted m (mem_cons_of_mem _ mem) list isList
    rcases ih middleTidy distinct.2 (fun m mem => others m (mem_cons_of_mem _ mem)) later ran
      with ⟨finalTidy, laterRewires⟩
    exact ⟨finalTidy, rewires.trans laterRewires⟩

/-- A node that is on no list is only reached from itself. -/
theorem Unlisted.ne_of_reaches {id source target : Nat} (unlisted : g.Unlisted id layer)
    (different : source ≠ id) (reaches : g.Reaches layer source target) : target ≠ id := by
  cases reaches with
  | refl => exact different
  | tail _ link =>
    rintro rfl
    rcases link with ⟨neighbors, isNeighbors, mem⟩
    exact unlisted _ neighbors isNeighbors mem

/-- The steps that connect a node on a layer where it is on no list yet.  The search does
not find it. -/
structure Connecting (g : Graph) (metric : Metric D K) (id : Nat) (vec : Vec) (layer : Nat)
    (entryIDs : List Nat) (items neighbors : List (HeapItem D)) (linked next : Graph) : Prop where
  finding : Finding g metric vec layer g.opts.efConstruct entryIDs items
  selected : g.selectNeighborsHeuristic metric (metric.sorter.sort items) (g.neighborCap layer) =
    some neighbors
  set : g.setNeighbors id layer (neighbors.map HeapItem.id) = some linked
  added : neighbors.foldlM (Graph.addReverse metric id layer) linked = some next
  notFound : ∀ item ∈ items, item.id ≠ id
  subset : ∀ n ∈ neighbors, n ∈ items
  distinct : (neighbors.map HeapItem.id).Nodup
  short : neighbors.length ≤ g.neighborCap layer

/-- A node that is about to be connected on the layers below `count`. -/
structure Joining (g : Graph) (id count : Nat) (entryIDs : List Nat) : Prop where
  wf : g.WellFormed
  tidy : g.Tidy
  bare : ∀ layer < count, g.neighborsAt id layer = some []
  unlisted : ∀ layer < count, g.Unlisted id layer
  entries : ∀ entry ∈ entryIDs, g.Present (count - 1) entry
  others : id ∉ entryIDs

theorem WellFormed.present_of_neighborsAt (wf : g.WellFormed) {id : Nat} {neighbors : List Nat}
    (isNeighbors : g.neighborsAt id layer = some neighbors) : g.Present layer id := by
  rcases Option.bind_eq_some_iff.mp isNeighbors with ⟨node, isNode, isLayer⟩
  have within := (List.getElem?_eq_some_iff.mp isLayer).1
  rw [wf.layered id node isNode] at within
  exact ⟨node, isNode, Nat.le_of_lt_succ within⟩

variable {id count : Nat} {vec : Vec} {found : List Nat}

theorem Joining.connecting (joining : Joining g id (count + 1) entryIDs)
    (ran : g.connectLayer metric id vec count entryIDs = some (next, found)) :
    ∃ items neighbors linked,
      Connecting g metric id vec count entryIDs items neighbors linked next ∧
      found = (metric.sorter.sort items).map HeapItem.id := by
  rcases Option.bind_eq_some_iff.mp ran with ⟨items, searched, ran⟩
  rcases Option.bind_eq_some_iff.mp ran with ⟨neighbors, selected, ran⟩
  rcases Option.bind_eq_some_iff.mp ran with ⟨linked, set, ran⟩
  rcases Option.map_eq_some_iff.mp ran with ⟨connected, added, same⟩
  cases same
  rcases @searchLayer_spec g count D K _ metric vec g.opts.efConstruct joining.wf
    joining.wf.beams.1 entryIDs (fun entry mem => (joining.entries entry mem).mem) with
    ⟨items', searched', finding⟩
  cases searched.symm.trans searched'
  have candidatesDistinct : ((metric.sorter.sort items).map HeapItem.id).Nodup := by
    rw [((metric.sorter.perm items).map HeapItem.id).nodup_iff]
    exact finding.distinct
  rcases selectNeighborsHeuristic_tidy candidatesDistinct selected with ⟨distinct, short⟩
  refine ⟨items, neighbors, linked, ⟨finding, selected, set, added, ?_, ?_, distinct, short⟩, rfl⟩
  · intro item mem
    rcases (finding.sound item mem).2.2 with ⟨source, isSource, reaches⟩
    exact (joining.unlisted count (Nat.lt_succ_self _)).ne_of_reaches
      (fun equal => joining.others (equal ▸ isSource)) reaches
  · rcases Option.map_eq_some_iff.mp selected with ⟨diverse, isDiverse, rfl⟩
    intro n mem
    rcases mem_append.mp (keepPruned_subset n mem) with isDiverse' | isCandidate
    · exact metric.sorter.mem_sort.mp ((selectDiverse_sublist isDiverse).1.subset isDiverse')
    · exact metric.sorter.mem_sort.mp isCandidate

/-- The list of the new node is tidy, and it is on no list of its neighbours. -/
theorem Joining.linked (joining : Joining g id (count + 1) entryIDs)
    {items neighbors : List (HeapItem D)} {linked : Graph}
    (connecting : Connecting g metric id vec count entryIDs items neighbors linked next) :
    linked.Tidy ∧ (∀ n ∈ neighbors, n.id ≠ id) ∧ ∀ n ∈ neighbors, ∀ list,
      linked.neighborsAt n.id count = some list → id ∉ list := by
  have others : ∀ n ∈ neighbors, n.id ≠ id :=
    fun n mem => connecting.notFound n (connecting.subset n mem)
  refine ⟨joining.tidy.setNeighbors ⟨fun mem => ?_, connecting.distinct, ?_⟩ connecting.set,
    others, ?_⟩
  · rcases mem_map.mp mem with ⟨n, isNeighbor, same⟩
    exact others n isNeighbor same
  · rw [length_map]
    exact connecting.short
  · intro n mem list isList
    rw [neighborsAt_setNeighbors connecting.set, if_neg fun both => others n mem both.1.symm]
      at isList
    exact joining.unlisted count (Nat.lt_succ_self _) n.id list isList

theorem Joining.connectLayer (joining : Joining g id (count + 1) entryIDs)
    (ran : g.connectLayer metric id vec count entryIDs = some (next, found)) :
    Joining next id count found ∧ Relinks g next ∧ Rewires g next count := by
  have present := joining.wf.present_of_neighborsAt (joining.bare count (Nat.lt_succ_self _))
  rcases @WellFormed.connectLayer g count D K _ metric joining.wf id present vec entryIDs
    joining.entries with ⟨next', found', ran', nextWf, relinks, foundPresent⟩
  cases ran.symm.trans ran'
  rcases joining.connecting ran with ⟨items, neighbors, linked, connecting, isFound⟩
  rcases joining.linked connecting with ⟨linkedTidy, others, unlisted⟩
  rcases linkedTidy.foldlM_addReverse connecting.distinct others unlisted connecting.added with
    ⟨nextTidy, later⟩
  have rewires := (rewires_setNeighbors connecting.set).trans later
  refine ⟨⟨nextWf, nextTidy, ?_, ?_, ?_, ?_⟩, relinks, rewires⟩
  · intro layer below
    rw [rewires.elsewhere id layer below.ne]
    exact joining.bare layer (Nat.lt_succ_of_lt below)
  · intro layer below other list isList
    rw [rewires.elsewhere other layer below.ne] at isList
    exact joining.unlisted layer (Nat.lt_succ_of_lt below) other list isList
  · intro entry mem
    rcases foundPresent entry mem with ⟨node, isNode, on⟩
    exact ⟨node, isNode, (Nat.sub_le _ _).trans on⟩
  · intro mem
    rw [isFound] at mem
    rcases mem_map.mp mem with ⟨c, isCandidate, same⟩
    exact connecting.notFound c (metric.sorter.mem_sort.mp isCandidate) same

theorem Joining.connectLayers (joining : Joining g id count entryIDs)
    (ran : Graph.connectLayers metric id vec count g entryIDs = some next) :
    next.WellFormed ∧ next.Tidy ∧ Relinks g next ∧ next.memoryBytes = g.memoryBytes := by
  induction count generalizing g entryIDs with
  | zero =>
    cases ran
    exact ⟨joining.wf, joining.tidy, .refl _, rfl⟩
  | succ count ih =>
    rcases Option.bind_eq_some_iff.mp ran with ⟨⟨middle, found⟩, connected, ran⟩
    rcases joining.connectLayer connected with ⟨middleJoining, relinks, rewires⟩
    rcases ih middleJoining ran with ⟨wf, tidy, later, memory⟩
    exact ⟨wf, tidy, relinks.trans later, memory.trans rewires.memoryBytes⟩

/-! ## Insertion -/

section

variable {id level : Nat} {externalID : ExternalID} {vec : Vec}

/-- The lists after a node without links has been added. -/
theorem neighborsAt_addFresh {other : Nat} {neighbors : List Nat}
    (isNeighbors : (g.addNode (freshNode id externalID vec level)).neighborsAt other layer =
      some neighbors) : neighbors = [] ∨ g.neighborsAt other layer = some neighbors := by
  rcases Option.bind_eq_some_iff.mp isNeighbors with ⟨node, isNode, isLayer⟩
  rw [getElem?_addNode] at isNode
  split at isNode
  · cases isNode
    exact .inl (freshNode_neighbors isLayer)
  · exact .inr (Option.bind_eq_some_iff.mpr ⟨node, isNode, isLayer⟩)

theorem Tidy.addFresh (tidy : g.Tidy) : (g.addNode (freshNode id externalID vec level)).Tidy := by
  intro other layer neighbors isNeighbors
  rcases neighborsAt_addFresh isNeighbors with rfl | old
  · exact ⟨not_mem_nil, nodup_nil, Nat.zero_le _⟩
  · exact (tidy other layer neighbors old).congr rfl

/-- All names on lists are names of nodes, so a new one is not among them. -/
theorem WellFormed.unlisted_fresh (wf : g.WellFormed) (new : id ∉ g.nodes) (layer : Nat) :
    (g.addNode (freshNode id externalID vec level)).Unlisted id layer := by
  intro other neighbors isNeighbors mem
  rcases neighborsAt_addFresh isNeighbors with rfl | old
  · cases mem
  · exact new (wf.linked other layer neighbors old id mem).mem

theorem descend_ne (wf : g.WellFormed) (unlisted : ∀ layer, g.Unlisted id layer)
    {base count ep best : Nat} (present : g.Present (base + count) ep) (different : ep ≠ id)
    (ran : g.descend metric query base count ep = some best) : best ≠ id := by
  induction count generalizing ep with
  | zero =>
    cases ran
    exact different
  | succ count ih =>
    rw [← Nat.add_assoc] at present
    rcases Option.bind_eq_some_iff.mp ran with ⟨middle, isMiddle, ran⟩
    rcases @greedyClosest_reaches g _ D K _ metric query wf ep present with
      ⟨middle', isMiddle', reaches⟩
    cases isMiddle.symm.trans isMiddle'
    rcases wf.present_of_reaches present reaches with ⟨node, found, on⟩
    exact ih ⟨node, found, Nat.le_of_succ_le on⟩ ((unlisted _).ne_of_reaches different reaches) ran

/-- What an insertion that succeeds has done. -/
theorem insert_eq_ok (ran : g.insert metric id externalID vec level = some (.ok next)) :
    id ∉ g.nodes ∧
      ((g.nodes.size = 0 ∧ next = { g.addNode (freshNode id externalID vec level) with
          entryPoint := id
          maxLevel := level }) ∨
        (g.nodes.size ≠ 0 ∧ ∃ ep connected,
          (g.addNode (freshNode id externalID vec level)).descend metric vec level
            (g.maxLevel - level) g.entryPoint = some ep ∧
          connectLayers metric id vec (min level g.maxLevel + 1)
            (g.addNode (freshNode id externalID vec level)) [ep] = some connected ∧
          next = connected.raise id level)) := by
  rw [Graph.insert] at ran
  split at ran
  · cases ran
  split at ran
  · cases ran
  rename_i new
  split at ran
  · cases ran
  dsimp only at ran
  split at ran
  · rename_i empty
    cases ran
    exact ⟨new, .inl ⟨empty, rfl⟩⟩
  rename_i notEmpty
  rcases Option.bind_eq_some_iff.mp ran with ⟨ep, isEp, ran⟩
  rcases Option.map_eq_some_iff.mp ran with ⟨connected, isConnected, same⟩
  cases same
  exact ⟨new, .inr ⟨notEmpty, ep, connected, isEp, isConnected, rfl⟩⟩

theorem raise_tidy (tidy : g.Tidy) (id level : Nat) :
    (g.raise id level).Tidy ∧ (g.raise id level).memoryBytes = g.memoryBytes ∧
      (g.raise id level).maxLevel = max g.maxLevel level := by
  rw [raise]
  split
  · rename_i higher
    exact ⟨tidy.congr rfl rfl, rfl, (Nat.max_eq_right higher.le).symm⟩
  · rename_i notHigher
    exact ⟨tidy, rfl, (Nat.max_eq_left (Nat.not_lt.mp notHigher)).symm⟩

/-- The new node joins at the node where the descent ends. -/
theorem Tidy.joining (tidy : g.Tidy) (wf : g.WellFormed) (new : id ∉ g.nodes)
    (isSome : ∃ other, other ∈ g.nodes) {ep : Nat}
    (isEp : (g.addNode (freshNode id externalID vec level)).descend metric vec level
      (g.maxLevel - level) g.entryPoint = some ep) :
    Joining (g.addNode (freshNode id externalID vec level)) id (min level g.maxLevel + 1) [ep] := by
  have unlisted := @WellFormed.unlisted_fresh g id level externalID vec wf new
  rcases @WellFormed.addFresh g id level externalID vec wf new isSome with
    ⟨addedWf, entry, isEntry, entryLevel⟩
  rcases @WellFormed.descend_fresh g D K _ metric id level externalID vec wf new isSome with
    ⟨ep', isEp', epPresent⟩
  cases isEp.symm.trans isEp'
  have entryOld : g.entryPoint ≠ id := by
    rcases wf.entry isSome with ⟨node, isNode, _⟩
    rintro same
    exact new (same ▸ mem_iff_get?.mpr ⟨node, isNode⟩)
  have epOld : ep ≠ id := by
    rcases Nat.le_total level g.maxLevel with below | above
    · apply descend_ne addedWf unlisted _ entryOld isEp
      exact ⟨entry, isEntry, by omega⟩
    rw [Nat.sub_eq_zero_of_le above] at isEp
    cases isEp
    exact entryOld
  refine ⟨addedWf, tidy.addFresh, fun layer below => ?_, fun layer _ => unlisted layer,
    fun entry mem => mem_singleton.mp mem ▸ epPresent, fun mem => epOld (mem_singleton.mp mem).symm⟩
  rw [neighborsAt, getElem?_addFresh, Option.bind_some, freshNode, getElem?_replicate, if_pos]
  omega

/-- An insertion keeps the lists tidy.  It counts the memory of the node, and its level. -/
theorem Tidy.insert (tidy : g.Tidy) (wf : g.WellFormed)
    (ran : g.insert metric id externalID vec level = some (.ok next)) :
    next.Tidy ∧ next.memoryBytes = g.memoryBytes + g.estimateNodeMemory level ∧
      next.maxLevel = if g.nodes.size = 0 then level else max g.maxLevel level := by
  rcases insert_eq_ok ran with
    ⟨new, ⟨empty, rfl⟩ | ⟨notEmpty, ep, connected, isEp, isConnected, rfl⟩⟩
  · rw [if_pos empty]
    exact ⟨tidy.addFresh.congr rfl rfl, rfl, rfl⟩
  have joining := tidy.joining wf new (exists_mem_of_size_ne_zero notEmpty) isEp
  rcases joining.connectLayers isConnected with ⟨_, connectedTidy, relinks, memory⟩
  rcases raise_tidy connectedTidy id level with ⟨nextTidy, nextMemory, nextLevel⟩
  refine ⟨nextTidy, nextMemory.trans memory, ?_⟩
  rw [if_neg notEmpty, nextLevel, relinks.maxLevel]
  rfl

end

end

end Theseon.Hnsw.Graph
