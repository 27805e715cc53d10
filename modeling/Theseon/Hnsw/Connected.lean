import Theseon.Hnsw.Represented

/-!
# Live vectors in reach

As long as no list of neighbours can overflow, links are only added.  If every new node
then finds a live node on the topmost layer that it shares with the others, it is linked
in both directions on all its layers below, and any two nodes of a layer stay connected.
So wherever a search lands, it reaches every live node.

A node that is inserted when everything else has been deleted gets no links, and unless
it becomes the entry point no search will ever reach it.
-/

namespace Theseon.Hnsw.Graph

open Lib List
open Std (ExtTreeMap)

variable {g next : Graph} {layer : Nat}

/-- The nodes of a layer. -/
def onLayer (g : Graph) (layer : Nat) : Finset Nat :=
  g.ids.filter fun id => (g.nodes[id]?).any fun node => layer ≤ node.level

theorem mem_onLayer {id : Nat} : id ∈ g.onLayer layer ↔ g.Present layer id := by
  rw [onLayer, Finset.mem_filter, mem_ids, Option.any_eq_true]
  constructor
  · rintro ⟨_, node, isNode, on⟩
    exact ⟨node, isNode, of_decide_eq_true on⟩
  · rintro ⟨node, isNode, on⟩
    exact ⟨mem_iff_get?.mpr ⟨node, isNode⟩, node, isNode, decide_eq_true on⟩

/-- Any two nodes of a layer reach each other there. -/
def Connected (g : Graph) : Prop :=
  ∀ layer first second, g.Present layer first → g.Present layer second →
    g.Reaches layer first second

/-- No link is lost. -/
def Extends (g next : Graph) : Prop :=
  ∀ layer first second, g.Linked layer first second → next.Linked layer first second

theorem Extends.trans {middle : Graph} (first : Extends g middle) (second : Extends middle next) :
    Extends g next :=
  fun layer a b link => second layer a b (first layer a b link)

theorem Extends.reaches (more : Extends g next) {first second : Nat}
    (reaches : g.Reaches layer first second) : next.Reaches layer first second :=
  Relation.ReflTransGen.mono (more layer) _ _ reaches

theorem extends_setNeighbors {id : Nat} {neighbors : List Nat}
    (set : g.setNeighbors id layer neighbors = some next)
    (more : ∀ old, g.neighborsAt id layer = some old → old ⊆ neighbors) : Extends g next := by
  rintro otherLayer first second ⟨list, isList, mem⟩
  rw [Linked, neighborsAt_setNeighbors set]
  split
  · rename_i same
    rcases same with ⟨rfl, rfl⟩
    rw [isList]
    exact ⟨neighbors, rfl, more list isList mem⟩
  · exact ⟨list, isList, mem⟩

theorem Relinks.onLayer_eq (relinks : Relinks g next) (layer : Nat) :
    next.onLayer layer = g.onLayer layer := by
  have back : Relinks next g :=
    ⟨fun id => (relinks.nodes id).symm, relinks.entryPoint.symm, relinks.maxLevel.symm,
      relinks.opts.symm, relinks.tombstones.symm⟩
  ext id
  rw [mem_onLayer, mem_onLayer]
  exact ⟨back.present, relinks.present⟩

section

variable {D K : Type} [LinearOrder K] {metric : Metric D K} {id count level : Nat} {vec : Vec}
  {entryIDs found : List Nat} {externalID : ExternalID}

/-! ## Connecting a node -/

/-- The list of the neighbour does not overflow: it names other nodes of the layer, each
once. -/
theorem Tidy.addReverse_links (tidy : g.Tidy) (wf : g.WellFormed) {n : HeapItem D}
    (present : g.Present layer id) (otherPresent : g.Present layer n.id) (other : n.id ≠ id)
    (unlisted : ∀ list, g.neighborsAt n.id layer = some list → id ∉ list)
    (few : (g.onLayer layer).card ≤ g.neighborCap layer + 1)
    (ran : g.addReverse metric id layer n = some next) :
    Extends g next ∧ next.Linked layer n.id id := by
  rcases Option.bind_eq_some_iff.mp ran with ⟨neighbor, isNeighbor, ran⟩
  rcases Option.bind_eq_some_iff.mp ran with ⟨list, isLayer, set⟩
  have isList : g.neighborsAt n.id layer = some list :=
    Option.bind_eq_some_iff.mpr ⟨neighbor, isNeighbor, isLayer⟩
  have old := tidy n.id layer list isList
  have distinct : (n.id :: id :: list).Nodup := by
    rw [nodup_cons, nodup_cons, mem_cons, not_or]
    exact ⟨⟨other, old.irreflexive⟩, unlisted list isList, old.nodup⟩
  have within : (n.id :: id :: list).toFinset ⊆ g.onLayer layer := by
    intro nid mem
    rw [mem_toFinset, mem_cons, mem_cons] at mem
    rw [mem_onLayer]
    rcases mem with rfl | rfl | mem
    · exact otherPresent
    · exact present
    · exact wf.linked n.id layer list isList nid mem
  have short : list.length + 2 ≤ g.neighborCap layer + 1 := by
    have counted := Finset.card_le_card within
    rw [toFinset_card_of_nodup distinct] at counted
    exact counted.trans few
  have fits : ¬g.neighborCap layer < (list ++ [id]).length := by
    rw [length_append, length_singleton]
    omega
  dsimp only at set
  rw [if_neg fits] at set
  refine ⟨extends_setNeighbors set fun old isOld => ?_, list ++ [id], ?_, ?_⟩
  · cases isList.symm.trans isOld
    exact subset_append_left _ _
  · rw [neighborsAt_setNeighbors set, if_pos ⟨rfl, rfl⟩, isList]
    rfl
  · exact mem_append_right _ mem_cons_self

theorem Tidy.foldlM_addReverse_links (tidy : g.Tidy) (wf : g.WellFormed)
    {neighbors : List (HeapItem D)} (present : g.Present layer id)
    (distinct : (neighbors.map HeapItem.id).Nodup)
    (othersPresent : ∀ n ∈ neighbors, g.Present layer n.id) (others : ∀ n ∈ neighbors, n.id ≠ id)
    (unlisted : ∀ n ∈ neighbors, ∀ list, g.neighborsAt n.id layer = some list → id ∉ list)
    (few : (g.onLayer layer).card ≤ g.neighborCap layer + 1)
    (ran : neighbors.foldlM (Graph.addReverse metric id layer) g = some next) :
    Extends g next ∧ ∀ n ∈ neighbors, next.Linked layer n.id id := by
  induction neighbors generalizing g with
  | nil =>
    cases ran
    exact ⟨fun _ _ _ link => link, forall_mem_nil _⟩
  | cons n rest ih =>
    rw [foldlM_cons] at ran
    rcases Option.bind_eq_some_iff.mp ran with ⟨middle, added, ran⟩
    rw [map_cons, nodup_cons] at distinct
    rw [forall_mem_cons] at othersPresent others unlisted
    rcases @WellFormed.addReverse g layer D K _ metric wf id present n othersPresent.1 with
      ⟨middle', added', middleWf, relinks⟩
    cases added.symm.trans added'
    rcases tidy.addReverse others.1 unlisted.1 added with ⟨middleTidy, rewires, same⟩
    rcases tidy.addReverse_links wf present othersPresent.1 others.1 unlisted.1 few added with
      ⟨first, link⟩
    rcases ih middleTidy middleWf (relinks.present present) distinct.2
      (fun m mem => relinks.present (othersPresent.2 m mem)) others.2
      (fun m mem list isList => by
        rw [same m.id fun equal => distinct.1 (equal ▸ mem_map_of_mem mem)] at isList
        exact unlisted.2 m mem list isList)
      (by rw [relinks.onLayer_eq, neighborCap_eq rewires.opts]; exact few) ran with ⟨later, links⟩
    exact ⟨first.trans later, forall_mem_cons.mpr ⟨later _ _ _ link, links⟩⟩

theorem keepPruned_ne_nil {maxN : Nat} {chosen : List Nat} {selected : List (HeapItem D)}
    (some : selected ≠ []) (candidates : List (HeapItem D)) :
    keepPruned maxN chosen selected candidates ≠ [] := by
  induction candidates generalizing selected with
  | nil => exact some
  | cons c rest ih =>
    rw [keepPruned]
    split
    · exact some
    apply ih
    split
    · exact some
    · exact append_ne_nil_of_left_ne_nil some _

/-- If there are candidates, then some are selected. -/
theorem selectNeighborsHeuristic_ne_nil {maxN : Nat} {candidates chosen : List (HeapItem D)}
    (pos : 1 ≤ maxN) (some : candidates ≠ [])
    (ran : g.selectNeighborsHeuristic metric candidates maxN = Option.some chosen) :
    chosen ≠ [] := by
  rcases Option.map_eq_some_iff.mp ran with ⟨diverse, _, rfl⟩
  by_cases none : diverse = []
  · rcases exists_cons_of_ne_nil some with ⟨c, rest, rfl⟩
    rw [none, keepPruned, length_nil, if_neg (Nat.not_le.mpr pos), map_nil, if_neg not_mem_nil]
    exact keepPruned_ne_nil (cons_ne_nil _ _) rest
  · exact keepPruned_ne_nil none candidates

/-- The node is linked to a node of the layer, in both directions. -/
def LinkedBoth (g : Graph) (layer id : Nat) : Prop :=
  ∃ n, g.Linked layer id n ∧ g.Linked layer n id

/-- A node that has not been deleted can be reached from the entry points. -/
def LiveFrom (g : Graph) (layer : Nat) (entryIDs : List Nat) : Prop :=
  ∃ source ∈ entryIDs, ∃ target, g.Reaches layer source target ∧ target ∉ g.tombstones

theorem Joining.connectLayer_links (joining : Joining g id (count + 1) entryIDs)
    (capacity : 1 ≤ g.neighborCap count)
    (few : (g.onLayer count).card ≤ g.neighborCap count + 1) (live : g.LiveFrom count entryIDs)
    (ran : g.connectLayer metric id vec count entryIDs = some (next, found)) :
    Extends g next ∧ next.LinkedBoth count id ∧ ∃ entry ∈ found, entry ∉ g.tombstones := by
  have bare := joining.bare count (Nat.lt_succ_self _)
  have present := joining.wf.present_of_neighborsAt bare
  rcases joining.connecting ran with ⟨items, neighbors, linked, connecting, rfl⟩
  rcases joining.linked connecting with ⟨linkedTidy, others, unlisted⟩
  have onLayer : ∀ n ∈ neighbors, g.Present count n.id := by
    intro n mem
    rcases (connecting.finding.sound n (connecting.subset n mem)).2.2 with
      ⟨source, isSource, reaches⟩
    exact joining.wf.present_of_reaches (joining.entries source isSource) reaches
  have named : ∀ nid ∈ neighbors.map HeapItem.id, g.Present count nid :=
    forall_mem_map.mpr onLayer
  rcases joining.wf.setNeighbors present named with ⟨linked', set, linkedWf, relinks⟩
  cases connecting.set.symm.trans set
  rcases linkedTidy.foldlM_addReverse_links linkedWf (relinks.present present)
    connecting.distinct (fun n mem => relinks.present (onLayer n mem)) others unlisted
    (by rw [relinks.onLayer_eq, neighborCap_eq relinks.opts]; exact few) connecting.added with
    ⟨later, links⟩
  have first : Extends g linked := by
    apply extends_setNeighbors set
    intro old isOld
    cases bare.symm.trans isOld
    exact nil_subset _
  -- the search finds something, because a live node is there to be found
  have someItem : items ≠ [] := by
    rintro rfl
    rcases live with ⟨source, isSource, target, reaches, notDeleted⟩
    rcases connecting.finding.complete joining.wf.beams.1 source isSource target reaches with
      deleted | isFound
    · exact notDeleted deleted
    · cases isFound
  have someCandidate : metric.sorter.sort items ≠ [] := by
    rcases exists_mem_of_ne_nil _ someItem with ⟨item, mem⟩
    exact ne_nil_of_mem (metric.sorter.mem_sort.mpr mem)
  rcases exists_mem_of_ne_nil _
    (selectNeighborsHeuristic_ne_nil capacity someCandidate connecting.selected) with ⟨n, mem⟩
  refine ⟨first.trans later,
    ⟨n.id, later _ _ _ ⟨neighbors.map HeapItem.id, ?_, ?_⟩, links n mem⟩, ?_⟩
  · rw [neighborsAt_setNeighbors set, if_pos ⟨rfl, rfl⟩, bare]
    rfl
  · exact mem_map_of_mem mem
  · rcases exists_mem_of_ne_nil _ someItem with ⟨item, isItem⟩
    exact ⟨item.id, mem_map_of_mem (metric.sorter.mem_sort.mpr isItem),
      (connecting.finding.sound item isItem).1⟩

/-- What the search of a layer finds is live, so the layers below have a live node to link
to as well. -/
theorem Joining.connectLayers_links (joining : Joining g id count entryIDs)
    (capacity : ∀ layer, 1 ≤ g.neighborCap layer)
    (few : ∀ layer < count, (g.onLayer layer).card ≤ g.neighborCap layer + 1)
    (live : 0 < count → g.LiveFrom (count - 1) entryIDs)
    (ran : Graph.connectLayers metric id vec count g entryIDs = some next) :
    Extends g next ∧ ∀ layer < count, next.LinkedBoth layer id := by
  induction count generalizing g entryIDs with
  | zero =>
    cases ran
    exact ⟨fun _ _ _ link => link, fun _ below => absurd below (Nat.not_lt_zero _)⟩
  | succ count ih =>
    rcases Option.bind_eq_some_iff.mp ran with ⟨⟨middle, found⟩, connected, ran⟩
    rcases joining.connectLayer connected with ⟨middleJoining, relinks, rewires⟩
    rcases joining.connectLayer_links (capacity count) (few count (Nat.lt_succ_self _))
      (live (Nat.succ_pos _)) connected with ⟨first, ⟨n, there, back⟩, entry, isFound, notDeleted⟩
    have caps := neighborCap_eq rewires.opts
    rcases ih middleJoining (fun layer => (caps layer).symm ▸ capacity layer)
      (fun layer below => by
        rw [relinks.onLayer_eq, caps]
        exact few layer (Nat.lt_succ_of_lt below))
      (fun _ => ⟨entry, isFound, entry, .refl, relinks.tombstones.symm ▸ notDeleted⟩) ran with
      ⟨later, links⟩
    refine ⟨first.trans later, fun layer below => ?_⟩
    rcases Nat.lt_succ_iff_lt_or_eq.mp below with lower | rfl
    · exact links layer lower
    · exact ⟨n, later _ _ _ there, later _ _ _ back⟩

/-! ## Insertion -/

/-- The call finds room and company: no layer on which the new node is linked has more
nodes than a list may name, and on the topmost of them some node has not been deleted. -/
def Linkable (g : Graph) : GraphCall → Prop
  | .insert _ _ _ level =>
    (∀ layer ≤ min level g.maxLevel, (g.onLayer layer).card ≤ g.neighborCap layer) ∧
      (g.nodes.size = 0 ∨ ∃ id ∈ g.onLayer (min level g.maxLevel), id ∉ g.tombstones)
  | .markDeleted _ => True

instance linkableDecidable (g : Graph) : (call : GraphCall) → Decidable (g.Linkable call)
  | .insert _ _ _ _ => inferInstanceAs (Decidable (_ ∧ _))
  | .markDeleted _ => inferInstanceAs (Decidable True)

theorem present_addFresh {other : Nat}
    (present : (g.addNode (freshNode id externalID vec level)).Present layer other) :
    (other = id ∧ layer ≤ level) ∨ g.Present layer other := by
  rcases present with ⟨node, isNode, on⟩
  rw [getElem?_addNode] at isNode
  split at isNode
  · rename_i same
    cases isNode
    exact .inl ⟨same.symm, on⟩
  · exact .inr ⟨node, isNode, on⟩

theorem card_onLayer_addFresh (layer : Nat) :
    ((g.addNode (freshNode id externalID vec level)).onLayer layer).card ≤
      (g.onLayer layer).card + 1 := by
  refine (Finset.card_le_card fun other mem => ?_).trans (Finset.card_insert_le id _)
  rw [Finset.mem_insert, mem_onLayer]
  rcases present_addFresh (mem_onLayer.mp mem) with ⟨same, _⟩ | old
  · exact .inl same
  · exact .inr old

/-- The first node is the only one. -/
theorem eq_of_present_addFresh (empty : g.nodes.size = 0) {other : Nat}
    (present : (g.addNode (freshNode id externalID vec level)).Present layer other) :
    other = id := by
  rcases present_addFresh present with ⟨same, _⟩ | ⟨node, isNode, _⟩
  · exact same
  · rw [ExtTreeMap.eq_empty_iff_size_eq_zero.mpr empty] at isNode
    cases isNode

theorem extends_addFresh (new : id ∉ g.nodes) :
    Extends g (g.addNode (freshNode id externalID vec level)) := by
  rintro layer first second ⟨list, isList, mem⟩
  refine ⟨list, ?_, mem⟩
  rcases Option.bind_eq_some_iff.mp isList with ⟨node, isNode, isLayer⟩
  rw [neighborsAt, getElem?_addNode, if_neg, isNode]
  · exact isLayer
  · rintro rfl
    exact new (mem_iff_get?.mpr ⟨node, isNode⟩)

theorem Connected.insert (connected : g.Connected) (represented : g.Represented)
    (capacity : ∀ layer, 1 ≤ g.neighborCap layer)
    (linkable : g.Linkable (.insert id externalID vec level))
    (ran : g.insert metric id externalID vec level = some (.ok next)) : next.Connected := by
  rcases insert_eq_ok ran with ⟨new, ⟨empty, rfl⟩ | ⟨notEmpty, ep, joined, isEp, isJoined, rfl⟩⟩
  · intro layer first second isFirst isSecond
    rw [eq_of_present_addFresh empty isFirst, eq_of_present_addFresh empty isSecond]
    exact .refl
  have joining := represented.tidy.joining represented.toWellFormed new
    (exists_mem_of_size_ne_zero notEmpty) isEp
  rcases joining.connectLayers isJoined with ⟨joinedWf, joinedTidy, relinks, _⟩
  have oldReach : ∀ {layer first second}, g.Present layer first → g.Present layer second →
      (g.addNode (freshNode id externalID vec level)).Reaches layer first second :=
    fun isFirst isSecond => (extends_addFresh new).reaches (connected _ _ _ isFirst isSecond)
  have live : (g.addNode (freshNode id externalID vec level)).LiveFrom (min level g.maxLevel)
      [ep] := by
    rcases linkable.2 with empty | ⟨target, isTarget, notDeleted⟩
    · exact absurd empty notEmpty
    refine ⟨ep, mem_cons_self, target, oldReach ?_ (mem_onLayer.mp isTarget), notDeleted⟩
    rcases present_addFresh (joining.entries ep mem_cons_self) with ⟨same, _⟩ | old
    · exact absurd (same ▸ mem_cons_self) joining.others
    · exact old
  rcases joining.connectLayers_links capacity
    (fun layer below => (card_onLayer_addFresh layer).trans
      (Nat.succ_le_succ (linkable.1 layer (Nat.le_of_lt_succ below))))
    (fun _ => live) isJoined with ⟨more, links⟩
  have split : ∀ {layer other}, joined.Present layer other →
      (other = id ∧ layer ≤ level) ∨ g.Present layer other := by
    intro layer other present
    rw [← mem_onLayer, relinks.onLayer_eq, mem_onLayer] at present
    exact present_addFresh present
  -- the new node and an old one share a layer only if it was connected there
  have hub : ∀ {layer other}, layer ≤ level → g.Present layer other →
      joined.Reaches layer id other ∧ joined.Reaches layer other id := by
    intro layer other below old
    have shared : layer < min level g.maxLevel + 1 := by
      rcases old with ⟨node, isNode, on⟩
      have top := represented.top other node isNode
      omega
    rcases links layer shared with ⟨n, there, back⟩
    have oldHub : g.Present layer n := by
      rcases there with ⟨list, isList, mem⟩
      rcases split (joinedWf.linked id layer list isList n mem) with ⟨rfl, _⟩ | isOld
      · exact absurd mem (joinedTidy n layer list isList).irreflexive
      · exact isOld
    exact ⟨.head there (more.reaches (oldReach oldHub old)),
      .tail (more.reaches (oldReach old oldHub)) back⟩
  have joinedConnected : joined.Connected := by
    intro layer first second isFirst isSecond
    rcases split isFirst with ⟨rfl, below⟩ | oldFirst
    · rcases split isSecond with ⟨rfl, _⟩ | oldSecond
      · exact .refl
      · exact (hub below oldSecond).1
    · rcases split isSecond with ⟨rfl, below⟩ | oldSecond
      · exact (hub below oldFirst).2
      · exact more.reaches (oldReach oldFirst oldSecond)
  rw [raise]
  split
  · exact joinedConnected
  · exact joinedConnected

/-! ## Runs -/

theorem Represented.step (represented : g.Represented) {call : GraphCall}
    (stepped : g.step metric call = some next) : next.Represented := by
  rcases @Represented.maintain g D K _ metric represented (.call call) with
    ⟨next', ran, nextRepresented⟩
  cases stepped.symm.trans ran
  exact nextRepresented

theorem Connected.step (connected : g.Connected) (represented : g.Represented)
    (capacity : ∀ layer, 1 ≤ g.neighborCap layer) {call : GraphCall} (linkable : g.Linkable call)
    (stepped : g.step metric call = some next) : next.Connected := by
  cases call with
  | insert id externalID vec level =>
    rcases Option.map_eq_some_iff.mp stepped with ⟨result, ran, rfl⟩
    cases result with
    | error err => exact connected
    | ok next => exact connected.insert represented capacity linkable ran
  | markDeleted id =>
    cases stepped
    rw [Graph.markDeleted]
    split
    · exact connected
    · exact connected

/-- A search of a connected graph finds something if there is anything to find. -/
theorem Connected.finds (connected : g.Connected) (wf : g.WellFormed) {query : Vec}
    (fits : query.length = g.opts.dim) {k : Nat} (pos : 1 ≤ k) (efSearch : Nat) {target : Nat}
    (live : g.Live target) : g.Finds metric query k efSearch := by
  rw [wf.finds_iff fits pos efSearch ⟨target, live.1⟩]
  rcases @landing_present g D K _ metric query wf ⟨target, live.1⟩ with ⟨ep, landed, present⟩
  rcases mem_iff_get?.mp live.1 with ⟨node, isNode⟩
  exact ⟨ep, landed, target, connected 0 ep target present ⟨node, isNode, Nat.zero_le _⟩, live⟩

end

end Theseon.Hnsw.Graph
