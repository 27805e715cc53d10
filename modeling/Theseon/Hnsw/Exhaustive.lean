import Theseon.Hnsw.Findable

/-!
# Exhaustive searches

A beam search that may return as many nodes as there are live ones within reach returns
all of them: it stops early, or passes a neighbour over, only when it has as many results
as it may have.  The comparison with the farthest result needs one, so a beam of width
zero fails on entry points that have all been deleted.
-/

namespace Theseon.Hnsw.Graph

open Lib List
open Std (ExtTreeMap)

/-- The live nodes that are reachable from the entry points. -/
noncomputable def liveFrom (g : Graph) (layer : Nat) (entryIDs : List Nat) : Finset Nat :=
  open Classical in
  g.ids.filter fun id => id ∉ g.tombstones ∧ ∃ source ∈ entryIDs, g.Reaches layer source id

variable {g : Graph} {layer : Nat} {entryIDs : List Nat}

theorem mem_liveFrom {id : Nat} : id ∈ g.liveFrom layer entryIDs ↔
    id ∈ g.nodes ∧ id ∉ g.tombstones ∧ ∃ source ∈ entryIDs, g.Reaches layer source id := by
  simp only [liveFrom, Finset.mem_filter, mem_ids]

theorem card_liveFrom_le : (g.liveFrom layer entryIDs).card ≤ g.nodes.size := by
  have sub : g.liveFrom layer entryIDs ⊆ g.ids := fun id mem =>
    mem_ids.mpr (mem_liveFrom.mp mem).1
  exact (Finset.card_le_card sub).trans card_ids_le

section

variable {D K : Type} [LinearOrder K] {metric : Metric D K} {query : Vec} {ef : Nat}
  {items : List (HeapItem D)}

theorem Measured.mem {item : HeapItem D} (measured : g.Measured metric query item) :
    item.id ∈ g.nodes := by
  rcases measured with ⟨node, isNode, _⟩
  exact mem_iff_get?.mpr ⟨node, isNode⟩

theorem Finding.mem_liveFrom (finding : Finding g metric query layer ef entryIDs items)
    {item : HeapItem D} (mem : item ∈ items) : item.id ∈ g.liveFrom layer entryIDs := by
  rcases finding.sound item mem with ⟨live, measured, reached⟩
  exact Graph.mem_liveFrom.mpr ⟨measured.mem, live, reached⟩

theorem Finding.card (finding : Finding g metric query layer ef entryIDs items) :
    (items.map HeapItem.id).toFinset.card = items.length := by
  rw [toFinset_card_of_nodup finding.distinct, length_map]

/-- With room for all of them, all live nodes within reach are found. -/
theorem Finding.exhaustive (finding : Finding g metric query layer ef entryIDs items)
    (enough : (g.liveFrom layer entryIDs).card ≤ ef) :
    (items.map HeapItem.id).toFinset = g.liveFrom layer entryIDs := by
  have sound : (items.map HeapItem.id).toFinset ⊆ g.liveFrom layer entryIDs := by
    intro id mem
    rcases mem_map.mp (mem_toFinset.mp mem) with ⟨item, isItem, rfl⟩
    exact finding.mem_liveFrom isItem
  by_cases room : items.length < ef
  · apply sound.antisymm
    intro id mem
    rcases Graph.mem_liveFrom.mp mem with ⟨_, live, source, isSource, reaches⟩
    rcases finding.complete room source isSource id reaches with deleted | found
    · exact absurd deleted live
    · exact mem_toFinset.mpr found
  apply Finset.eq_of_subset_of_card_le sound
  rw [finding.card]
  exact enough.trans (Nat.not_lt.mp room)

/-- The results are the nearest `k` of some nodes, in ascending distance. -/
structure Nearest (g : Graph) (metric : Metric D K) (query : Vec) (k : Nat) (among : Finset Nat)
    (results : List (SearchResult D)) : Prop where
  length : results.length = min k among.card
  distinct : (results.map SearchResult.id).Nodup
  measured : ∀ r ∈ results, r.id ∈ among ∧ ∃ node : Node, g.nodes[r.id]? = some node ∧
    r.externalID = node.externalID ∧ r.distance = metric.dist query node.vector
  ascending : results.Pairwise fun first second =>
    metric.rank first.distance ≤ metric.rank second.distance
  nearest : ∀ r ∈ results, ∀ id ∈ among, id ∉ results.map SearchResult.id →
    ∀ node : Node, g.nodes[id]? = some node →
      metric.rank r.distance ≤ metric.rank (metric.dist query node.vector)

variable {results : List (SearchResult D)} {taken : List (HeapItem D)}

/-- Reports keep the node and the distance. -/
theorem map_of_reports (reports : List.Forall₂ g.Reports taken results) :
    results.map (fun r => (⟨r.id, r.distance⟩ : HeapItem D)) = taken := by
  induction reports with
  | nil => rfl
  | cons report _ ih =>
    rcases report with ⟨node, _, rfl⟩
    rw [map_cons, ih]

theorem mem_of_reports (reports : List.Forall₂ g.Reports taken results) {r : SearchResult D}
    (mem : r ∈ results) :
    ∃ item ∈ taken, g.Reports item r := by
  induction reports with
  | nil => cases mem
  | @cons item _ _ _ report _ ih =>
    rcases mem_cons.mp mem with rfl | later
    · exact ⟨item, mem_cons_self, report⟩
    · rcases ih later with ⟨other, isTaken, isReport⟩
      exact ⟨other, mem_cons_of_mem _ isTaken, isReport⟩

theorem ids_of_reports (reports : List.Forall₂ g.Reports taken results) :
    results.map SearchResult.id = taken.map HeapItem.id := by
  rw [← map_of_reports reports, map_map]
  rfl

theorem Finding.reported (finding : Finding g metric query layer ef entryIDs items) {k : Nat}
    (reports : List.Forall₂ g.Reports ((metric.sorter.sort items).take k) results) :
    (results.map SearchResult.id).Nodup ∧ ∀ r ∈ results, r.id ∉ g.tombstones ∧
      ∃ node : Node, g.nodes[r.id]? = some node ∧ r.externalID = node.externalID ∧
        r.distance = metric.dist query node.vector := by
  constructor
  · rw [ids_of_reports reports]
    have distinct := ((metric.sorter.perm items).map HeapItem.id).nodup_iff.mpr finding.distinct
    exact distinct.sublist ((take_sublist _ _).map _)
  · intro r mem
    rcases mem_of_reports reports mem with ⟨item, isTaken, node, isNode, rfl⟩
    rcases finding.sound item (metric.sorter.mem_sort.mp (mem_of_mem_take isTaken)) with
      ⟨live, ⟨other, isOther, dist⟩, _⟩
    rw [isNode] at isOther
    cases isOther
    exact ⟨live, node, isNode, rfl, dist⟩

theorem Finding.nearest (finding : Finding g metric query layer ef entryIDs items)
    (enough : (g.liveFrom layer entryIDs).card ≤ ef) {k : Nat}
    (reports : List.Forall₂ g.Reports ((metric.sorter.sort items).take k) results) :
    Nearest g metric query k (g.liveFrom layer entryIDs) results := by
  have all := finding.exhaustive enough
  have reported := finding.reported reports
  have taken := map_of_reports reports
  constructor
  · rw [← reports.length_eq, length_take, (metric.sorter.perm items).length_eq, ← all,
      finding.card]
  · exact reported.1
  · intro r mem
    rcases mem_of_reports reports mem with ⟨item, isTaken, _, _, rfl⟩
    have isItem := metric.sorter.mem_sort.mp (mem_of_mem_take isTaken)
    exact ⟨finding.mem_liveFrom isItem, (reported.2 _ mem).2⟩
  · have sorted := (metric.sorter.sorted items).sublist (take_sublist k _)
    rw [← taken, pairwise_map] at sorted
    exact sorted
  · intro r mem id isLive left node isNode
    rw [← all, mem_toFinset] at isLive
    rcases mem_map.mp isLive with ⟨other, isOther, rfl⟩
    rcases (finding.sound other isOther).2.1 with ⟨node', isNode', dist⟩
    rw [isNode] at isNode'
    cases isNode'
    rcases mem_of_reports reports mem with ⟨item, isTaken, _, _, rfl⟩
    rw [← dist]
    apply metric.sorter.key_le_of_take isTaken isOther
    intro otherTaken
    rw [ids_of_reports reports] at left
    exact left (mem_map_of_mem otherTaken)

end

/-- A beam search returns live nodes within reach, with their distances, and all of them
if it may; a search then returns the nearest. -/
theorem beam_search_exact {D K : Type} [LinearOrder K] (metric : Metric D K) (g : Graph)
    (wf : g.WellFormed) (query : Vec) :
    (∀ (layer ef : Nat) (entryIDs : List Nat), 1 ≤ ef → (∀ id ∈ entryIDs, id ∈ g.nodes) →
      ∃ items, g.searchLayer metric query entryIDs ef layer = some items ∧
        (items.map HeapItem.id).Nodup ∧
        (∀ item ∈ items, item.id ∈ g.liveFrom layer entryIDs ∧ g.Measured metric query item) ∧
        items.length ≤ max ef entryIDs.dedup.length ∧
        ((g.liveFrom layer entryIDs).card ≤ ef →
          (items.map HeapItem.id).toFinset = g.liveFrom layer entryIDs)) ∧
      ∀ k efSearch, query.length = g.opts.dim → (∃ id, id ∈ g.nodes) →
        ∃ ep results, g.landing metric query = some ep ∧
          g.search metric query k efSearch = some (.ok results) ∧
          ((g.liveFrom 0 [ep]).card ≤ g.beamWidth k efSearch →
            Nearest g metric query k (g.liveFrom 0 [ep]) results) := by
  constructor
  · intro layer ef entryIDs pos nodes
    rcases @searchLayer_spec g layer D K _ metric query ef wf pos entryIDs nodes with
      ⟨items, searched, finding⟩
    refine ⟨items, searched, finding.distinct, ?_, finding.bounded, finding.exhaustive⟩
    exact fun item mem => ⟨finding.mem_liveFrom mem, (finding.sound item mem).2.1⟩
  · intro k efSearch fits some
    rcases @WellFormed.search_eq g D K _ metric wf query fits k efSearch some with
      ⟨ep, items, results, landed, _, finding, ran, reports⟩
    exact ⟨ep, results, landed, ran, fun enough => finding.nearest enough reports⟩

/-! ## Small graphs -/

theorem wellFormed_of_run {calls : List GraphCall}
    (ran : runAllowed (Graph.step discrete) (fun _ _ => True) smallGraph calls = some g) :
    g.WellFormed := by
  have reached : Reached (Graph.step discrete) (fun _ _ => True) smallGraph g :=
    Reached.start.runAllowed ran
  apply reached.invariant Graph.WellFormed
    (wellFormed_new (show Graph.new smallOptions = _ from rfl))
  intro state next call wf _ stepped
  exact (wf.step stepped).1

/-- The greedy descent ends, at a node of the layer that is reachable from the start, not
farther from the query, and closer than all its neighbours. -/
theorem greedy_descent_settles {D K : Type} [LinearOrder K] (metric : Metric D K) (g : Graph)
    (wf : g.WellFormed) (query : Vec) (layer start : Nat) (node : Node)
    (found : g.nodes[start]? = some node) (on : layer ≤ node.level) :
    ∃ best, g.greedyClosest metric query start layer = some best ∧ g.Present layer best ∧
      g.Reaches layer start best ∧
      g.LocallyClosest metric query layer (metric.dist query node.vector) best := by
  rcases @greedyClosest_settles g layer D K _ metric query wf start node found on with
    ⟨best, ran, reaches, settled⟩
  exact ⟨best, ran, wf.present_of_reaches ⟨node, found, on⟩ reaches, reaches, settled⟩

/-- From the first of two vectors to the one that is sought. -/
theorem second_vector_reached :
    ∃ g : Graph, g.WellFormed ∧ g.greedyClosest discrete [7] 1 0 = some 2 ∧
      g.LocallyClosest discrete [7] 0 1 2 := by
  have evaluated : ∃ g ∈ runAllowed (Graph.step discrete) (fun _ _ => True) smallGraph
      [.insert 1 [] [5] 0, .insert 2 [] [7] 0], g.greedyClosest discrete [7] 1 0 = some 2 ∧
        ∃ node ∈ g.nodes[1]?, node.vector = [5] ∧ node.level = 0 := by
    decide +kernel
  rcases evaluated with ⟨g, ran, closest, node, found, vector, level⟩
  rcases greedy_descent_settles discrete g (wellFormed_of_run ran) [7] 0 1 node found
    level.ge with ⟨best, isBest, _, _, settled⟩
  cases closest.symm.trans isBest
  rw [vector] at settled
  exact ⟨g, wellFormed_of_run ran, closest, settled⟩

/-- Two vectors are found from the first one. -/
theorem two_vectors_found :
    ∃ g : Graph, g.WellFormed ∧
      (∃ items, g.searchLayer discrete [7] [1] 2 0 = some items ∧
        (items.map HeapItem.id).toFinset = g.liveFrom 0 [1]) ∧
      ∃ ep results, g.search discrete [7] 2 0 = some (.ok results) ∧
        Nearest g discrete [7] 2 (g.liveFrom 0 [ep]) results := by
  have evaluated : ∃ g ∈ runAllowed (Graph.step discrete) (fun _ _ => True) smallGraph
      [.insert 1 [] [5] 0, .insert 2 [] [7] 0],
        g.nodes.size = 2 ∧ 1 ∈ g.nodes ∧ g.opts.dim = 1 := by
    decide +kernel
  rcases evaluated with ⟨g, ran, size, isNode, dim⟩
  have wf := wellFormed_of_run ran
  have few : ∀ entryIDs, (g.liveFrom 0 entryIDs).card ≤ 2 := fun _ =>
    size ▸ card_liveFrom_le
  rcases beam_search_exact discrete g wf [7] with ⟨searchLayer, search⟩
  refine ⟨g, wf, ?_, ?_⟩
  · rcases searchLayer 0 2 [1] (by decide) (fun id mem => mem_singleton.mp mem ▸ isNode) with
      ⟨items, searched, _, _, _, exhaustive⟩
    exact ⟨items, searched, exhaustive (few _)⟩
  · rcases search 2 0 dim.symm ⟨1, isNode⟩ with ⟨ep, results, _, searched, nearest⟩
    exact ⟨ep, results, searched, nearest ((few _).trans (le_max_right _ _))⟩

/-- A beam of width zero fails on a deleted node, where nothing was to be found. -/
theorem empty_beam_fails :
    ∃ g : Graph, g.WellFormed ∧ 1 ∈ g.nodes ∧ (g.liveFrom 0 [1]).card ≤ 0 ∧
      g.searchLayer discrete [7] [1] 0 0 = none := by
  have evaluated : ∃ g ∈ runAllowed (Graph.step discrete) (fun _ _ => True) smallGraph
      [.insert 1 [] [5] 0, .markDeleted 1], g.nodes.keys = [1] ∧ 1 ∈ g.tombstones ∧
        g.searchLayer discrete [7] [1] 0 0 = none := by
    decide +kernel
  rcases evaluated with ⟨g, ran, keys, deleted, fails⟩
  have only : ∀ id, id ∈ g.nodes ↔ id = 1 := by
    intro id
    rw [← ExtTreeMap.mem_keys, keys, mem_singleton]
  refine ⟨g, wellFormed_of_run ran, (only 1).mpr rfl, ?_, fails⟩
  rw [Nat.le_zero, Finset.card_eq_zero, Finset.eq_empty_iff_forall_notMem]
  intro id mem
  rcases mem_liveFrom.mp mem with ⟨isNode, live, _⟩
  rw [(only id).mp isNode] at live
  exact live deleted

end Theseon.Hnsw.Graph
