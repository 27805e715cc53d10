import Mathlib.Data.Finset.Card
import Theseon.Hnsw.Graph
import Theseon.Lib.KeyedMap

/-!
# Walking through a layer

On a graph whose links lead to nodes of their layer, the descent and the beam search
never look for a node or a layer that is not there, and they end within their bounds.
A beam search finds live nodes that are reachable from its entry points, each of them
once, and if it finds fewer than it may, then it has found all of them.
-/

namespace Theseon.Hnsw.Graph

open Lib List
open Std (ExtTreeMap)

/-- The graph has the node, and the node is on the layer. -/
def Present (g : Graph) (layer id : Nat) : Prop :=
  ∃ node : Node, g.nodes[id]? = some node ∧ layer ≤ node.level

structure WellFormed (g : Graph) : Prop where
  named : ∀ (id : Nat) (node : Node), g.nodes[id]? = some node → node.id = id
  layered : ∀ (id : Nat) (node : Node), g.nodes[id]? = some node →
    node.neighbors.length = node.level + 1
  linked : ∀ id layer neighbors, g.neighborsAt id layer = some neighbors →
    ∀ nid ∈ neighbors, g.Present layer nid
  entry : (∃ id, id ∈ g.nodes) →
    ∃ node : Node, g.nodes[g.entryPoint]? = some node ∧ node.level = g.maxLevel
  beams : 1 ≤ g.opts.efConstruct ∧ 1 ≤ g.opts.efSearch

/-- A link on a layer. -/
def Linked (g : Graph) (layer first second : Nat) : Prop :=
  ∃ neighbors, g.neighborsAt first layer = some neighbors ∧ second ∈ neighbors

/-- There is a path of links on the layer. -/
def Reaches (g : Graph) (layer : Nat) : Nat → Nat → Prop :=
  Relation.ReflTransGen (g.Linked layer)

/-- The node is in the graph and has not been deleted. -/
def Live (g : Graph) (id : Nat) : Prop :=
  id ∈ g.nodes ∧ id ∉ g.tombstones

instance liveDecidable (g : Graph) (id : Nat) : Decidable (g.Live id) :=
  inferInstanceAs (Decidable (_ ∧ _))

/-- The names of the nodes. -/
def ids (g : Graph) : Finset Nat :=
  g.nodes.keys.toFinset

variable {g : Graph} {layer : Nat} {id : Nat}

theorem mem_ids : id ∈ g.ids ↔ id ∈ g.nodes := by
  rw [ids, mem_toFinset, ExtTreeMap.mem_keys]

theorem card_ids_le : g.ids.card ≤ g.nodes.size := by
  rw [← ExtTreeMap.length_keys]
  exact toFinset_card_le _

theorem Present.mem (present : g.Present layer id) : id ∈ g.nodes := by
  rcases present with ⟨node, found, _⟩
  exact mem_iff_get?.mpr ⟨node, found⟩

theorem WellFormed.neighborsAt_of_present (wf : g.WellFormed) (present : g.Present layer id) :
    ∃ neighbors, g.neighborsAt id layer = some neighbors := by
  rcases present with ⟨node, found, on⟩
  have within : layer < node.neighbors.length := by
    rw [wf.layered id node found]
    exact Nat.lt_succ_of_le on
  use node.neighbors[layer]
  rw [neighborsAt, found]
  exact getElem?_eq_getElem within

theorem WellFormed.present_of_reaches (wf : g.WellFormed) {first second : Nat}
    (present : g.Present layer first) (reaches : g.Reaches layer first second) :
    g.Present layer second := by
  induction reaches with
  | refl => exact present
  | tail _ link _ =>
    rcases link with ⟨neighbors, isNeighbors, mem⟩
    exact wf.linked _ _ _ isNeighbors _ mem

theorem WellFormed.mem_of_reaches (wf : g.WellFormed) {first second : Nat}
    (mem : first ∈ g.nodes) (reaches : g.Reaches layer first second) : second ∈ g.nodes := by
  cases reaches with
  | refl => exact mem
  | tail _ link =>
    rcases link with ⟨neighbors, isNeighbors, isNeighbor⟩
    exact (wf.linked _ _ _ isNeighbors _ isNeighbor).mem

/-- A node that is not on the layer has no links there. -/
theorem mem_getD_neighbors {id nid : Nat} {node : Node} (found : g.nodes[id]? = some node) :
    nid ∈ node.neighbors.getD layer [] ↔ g.Linked layer id nid := by
  rw [Linked, neighborsAt, found, Option.bind_some, getD_eq_getElem?_getD]
  cases node.neighbors[layer]? with
  | none => simp
  | some neighbors => simp

section

variable {D K : Type} [LinearOrder K] {metric : Metric D K} {query : Vec}

/-! ## Greedy descent -/

/-- The closest node after a round over some neighbours: the one before, or a neighbour
that is closer. -/
inductive Round (g : Graph) (metric : Metric D K) (query : Vec) (neighbors : List Nat)
    (start : Best D) : Best D → Prop where
  | still : Round g metric query neighbors start start
  | moved {nid : Nat} {node : Node} (mem : nid ∈ neighbors) (found : g.nodes[nid]? = some node)
      (closer : metric.rank (metric.dist query node.vector) < metric.rank start.dist) :
      Round g metric query neighbors start ⟨nid, metric.dist query node.vector, true⟩

theorem round_improve (best : Best D) (nid : Nat) :
    Round g metric query [nid] best (g.improve metric query best nid) := by
  rw [improve]
  split
  · exact .still
  rename_i node found
  split
  · rename_i less
    exact .moved mem_cons_self found (metric.rank_lt_of_less less)
  · exact .still

theorem round_foldl (neighbors : List Nat) (best : Best D) :
    Round g metric query neighbors best (neighbors.foldl (g.improve metric query) best) := by
  induction neighbors generalizing best with
  | nil => exact .still
  | cons nid rest ih =>
    rw [foldl_cons]
    have later := ih (g.improve metric query best nid)
    generalize rest.foldl (g.improve metric query) (g.improve metric query best nid) = final
      at later
    have first := @round_improve g D K _ metric query best nid
    generalize g.improve metric query best nid = next at first later
    cases first with
    | still =>
      cases later with
      | still => exact .still
      | moved mem found closer => exact .moved (mem_cons_of_mem _ mem) found closer
    | moved mem found closer =>
      cases later with
      | still =>
        rw [mem_singleton] at mem
        exact .moved (mem ▸ mem_cons_self) found closer
      | moved mem' found' closer' =>
        exact .moved (mem_cons_of_mem _ mem') found' (closer'.trans closer)

/-- The nodes that are closer to the query than a distance. -/
noncomputable def closerIDs (g : Graph) (metric : Metric D K) (query : Vec) (dist : D) :
    Finset Nat :=
  open Classical in
  g.ids.filter fun id => ∃ node : Node, g.nodes[id]? = some node ∧
    metric.rank (metric.dist query node.vector) < metric.rank dist

/-- Every round that moves leaves fewer nodes that are closer. -/
theorem card_closerIDs_lt {node : Node} {dist : D} (found : g.nodes[id]? = some node)
    (closer : metric.rank (metric.dist query node.vector) < metric.rank dist) :
    (g.closerIDs metric query (metric.dist query node.vector)).card <
      (g.closerIDs metric query dist).card := by
  apply Finset.card_lt_card
  rw [Finset.ssubset_iff_of_subset]
  · use id
    constructor
    · rw [closerIDs, Finset.mem_filter, mem_ids, mem_iff_get?]
      exact ⟨⟨node, found⟩, node, found, closer⟩
    · rw [closerIDs, Finset.mem_filter]
      rintro ⟨_, other, isOther, below⟩
      rw [found] at isOther
      cases isOther
      exact lt_irrefl _ below
  intro other mem
  rw [closerIDs, Finset.mem_filter] at mem ⊢
  rcases mem with ⟨isID, otherNode, isOther, below⟩
  exact ⟨isID, otherNode, isOther, below.trans closer⟩

/-- A round that has found nothing has looked at all neighbours. -/
theorem less_of_not_improved {neighbors : List Nat} {best : Best D}
    (found : (neighbors.foldl (g.improve metric query) best).improved = false) :
    neighbors.foldl (g.improve metric query) best = best ∧ ∀ nid ∈ neighbors, ∀ node : Node,
      g.nodes[nid]? = some node →
        metric.less (metric.dist query node.vector) best.dist = false := by
  induction neighbors generalizing best with
  | nil => exact ⟨rfl, forall_mem_nil _⟩
  | cons nid rest ih =>
    rcases ih found with ⟨same, others⟩
    rw [foldl_cons, same] at found
    have still : g.improve metric query best nid = best ∧ ∀ node : Node,
        g.nodes[nid]? = some node →
          metric.less (metric.dist query node.vector) best.dist = false := by
      cases isNode : g.nodes[nid]? with
      | none => simp [improve, isNode]
      | some n =>
        cases less : metric.less (metric.dist query n.vector) best.dist with
        | true => simp [improve, isNode, less] at found
        | false => simp [improve, isNode, less]
    rw [still.1] at same others
    rw [foldl_cons, still.1]
    exact ⟨same, forall_mem_cons.mpr ⟨still.2, others⟩⟩

/-- The node is not farther from the query than `dist`, and none of its neighbours on the
layer is closer. -/
def LocallyClosest (g : Graph) (metric : Metric D K) (query : Vec) (layer : Nat) (dist : D)
    (id : Nat) : Prop :=
  ∃ node : Node, g.nodes[id]? = some node ∧
    metric.rank (metric.dist query node.vector) ≤ metric.rank dist ∧
      ∀ (nid : Nat) (neighbor : Node), g.Linked layer id nid → g.nodes[nid]? = some neighbor →
        metric.less (metric.dist query neighbor.vector) (metric.dist query node.vector) = false

/-- The rounds end at a node that is reachable from the start and closer than its
neighbours. -/
theorem greedyRounds_settles (wf : g.WellFormed) {bound id : Nat} {node : Node}
    (found : g.nodes[id]? = some node) (on : layer ≤ node.level)
    (enough : (g.closerIDs metric query (metric.dist query node.vector)).card < bound) :
    ∃ best, g.greedyRounds metric query layer bound id (metric.dist query node.vector) =
        some best ∧ g.Reaches layer id best ∧
      g.LocallyClosest metric query layer (metric.dist query node.vector) best := by
  induction bound generalizing id node with
  | zero => exact absurd enough (Nat.not_lt_zero _)
  | succ bound ih =>
    rcases wf.neighborsAt_of_present ⟨node, found, on⟩ with ⟨neighbors, isNeighbors⟩
    simp only [greedyRounds, isNeighbors]
    have round := @round_foldl g D K _ metric query neighbors
      ⟨id, metric.dist query node.vector, false⟩
    have looked := @less_of_not_improved g D K _ metric query neighbors
      ⟨id, metric.dist query node.vector, false⟩
    generalize neighbors.foldl (g.improve metric query)
      ⟨id, metric.dist query node.vector, false⟩ = best at round looked
    cases round with
    | still =>
      refine ⟨id, rfl, .refl, node, found, le_rfl, ?_⟩
      rintro nid neighbor ⟨others, isOthers, mem⟩ isNeighbor
      cases isNeighbors.symm.trans isOthers
      exact (looked rfl).2 nid mem neighbor isNeighbor
    | @moved nid next mem isNext closer =>
      have fewer := (card_closerIDs_lt isNext closer).trans_le (Nat.le_of_lt_succ enough)
      have link : g.Linked layer id nid := ⟨neighbors, isNeighbors, mem⟩
      rcases wf.linked _ _ _ isNeighbors nid mem with ⟨same, isSame, onSame⟩
      cases isNext.symm.trans isSame
      rcases ih isNext onSame fewer with ⟨best, ran, reaches, last, isLast, below, least⟩
      exact ⟨best, ran, reaches.head link, last, isLast, below.trans closer.le, least⟩

theorem greedyClosest_settles (wf : g.WellFormed) {ep : Nat} {node : Node}
    (found : g.nodes[ep]? = some node) (on : layer ≤ node.level) :
    ∃ best, g.greedyClosest metric query ep layer = some best ∧ g.Reaches layer ep best ∧
      g.LocallyClosest metric query layer (metric.dist query node.vector) best := by
  rw [greedyClosest, found]
  apply greedyRounds_settles wf found on
  apply Nat.lt_succ_of_le
  apply (Finset.card_le_card _).trans card_ids_le
  rw [closerIDs]
  exact Finset.filter_subset _ _

theorem greedyClosest_reaches (wf : g.WellFormed) {ep : Nat} (present : g.Present layer ep) :
    ∃ best, g.greedyClosest metric query ep layer = some best ∧ g.Reaches layer ep best := by
  rcases present with ⟨node, found, on⟩
  rcases @greedyClosest_settles g layer D K _ metric query wf ep node found on with
    ⟨best, ran, reaches, _⟩
  exact ⟨best, ran, reaches⟩

/-- The descent ends at a node of the layer below. -/
theorem descend_present (wf : g.WellFormed) {base count ep : Nat}
    (present : g.Present (base + count) ep) :
    ∃ best, g.descend metric query base count ep = some best ∧ g.Present base best := by
  induction count generalizing ep with
  | zero => exact ⟨ep, rfl, present⟩
  | succ count ih =>
    rw [← Nat.add_assoc] at present
    rcases @greedyClosest_reaches g _ D K _ metric query wf ep present with
      ⟨next, isNext, reaches⟩
    rw [descend, isNext]
    rcases wf.present_of_reaches present reaches with ⟨node, found, on⟩
    exact ih ⟨node, found, Nat.le_of_succ_le on⟩

/-- The descent of a search ends at a node. -/
theorem landing_present (wf : g.WellFormed) (nonempty : ∃ id, id ∈ g.nodes) :
    ∃ ep, g.landing metric query = some ep ∧ g.Present 0 ep := by
  rcases wf.entry nonempty with ⟨node, found, level⟩
  apply descend_present wf
  rw [Nat.zero_add]
  exact ⟨node, found, level.ge⟩

/-! ## Beam search -/

/-- The nodes that a beam has not visited. -/
def unvisited (g : Graph) (beam : Beam D) : Nat :=
  (g.ids.filter fun id => id ∉ beam.visited).card

/-- The number of candidates and of those that may still become candidates. -/
def remaining (g : Graph) (beam : Beam D) : Nat :=
  beam.candidates.toList.length + g.unvisited beam

theorem unvisited_cons {visited : List Nat}
    {candidates candidates' results results' : Array (HeapItem D)}
    {id : Nat} (new : id ∉ visited) (mem : id ∈ g.nodes) :
    g.unvisited ⟨id :: visited, candidates', results'⟩ + 1 =
      g.unvisited ⟨visited, candidates, results⟩ := by
  have isFiltered : id ∈ g.ids.filter fun other => other ∉ visited :=
    Finset.mem_filter.mpr ⟨mem_ids.mpr mem, new⟩
  have erased : (g.ids.filter fun other => other ∉ id :: visited) =
      (g.ids.filter fun other => other ∉ visited).erase id := by
    ext other
    simp only [Finset.mem_filter, Finset.mem_erase, mem_cons, not_or]
    tauto
  rw [unvisited, unvisited, erased, Finset.card_erase_of_mem isFiltered]
  exact Nat.succ_pred_eq_of_pos (Finset.card_pos.mpr ⟨id, isFiltered⟩)

/-- The item is a node with its distance from the query. -/
def Measured (g : Graph) (metric : Metric D K) (query : Vec) (item : HeapItem D) : Prop :=
  ∃ node : Node, g.nodes[item.id]? = some node ∧ item.dist = metric.dist query node.vector

/-- How a node is added to the results: another one is dropped only if there are enough. -/
structure Grows (ef : Nat) (item : HeapItem D) (before after : List (HeapItem D)) : Prop where
  among : after.Subperm (item :: before)
  larger : before.length ≤ after.length
  kept : after.length < ef → after.Perm (item :: before)

theorem grows_push (ef : Nat) (results : Array (HeapItem D)) (item : HeapItem D) :
    Grows ef item results.toList (BinaryHeap.push (farther metric) results item).toList := by
  have pushed := @BinaryHeap.push_perm _ (farther metric) results item
  exact ⟨pushed.subperm, by rw [pushed.length_eq]; exact Nat.le_succ _, fun _ => pushed⟩

theorem grows_addResult (ef : Nat) (results : Array (HeapItem D)) (item : HeapItem D) :
    Grows ef item results.toList (addResult metric ef results item).toList ∧
      (addResult metric ef results item).size ≤ max ef results.size := by
  have pushed := @grows_push D K _ metric ef results item
  have length : (BinaryHeap.push (farther metric) results item).toList.length =
      results.toList.length + 1 := BinaryHeap.length_push _ _
  simp only [← Array.length_toList, addResult]
  split
  · rename_i many
    split
    · rename_i popped
      have rest := BinaryHeap.pop_perm popped
      have same := rest.length_eq
      rw [length_cons] at same
      refine ⟨⟨?_, by omega, by omega⟩, by omega⟩
      exact (sublist_cons_self _ _).subperm.trans (rest.subperm.trans pushed.among)
    rename_i none
    have empty := BinaryHeap.pop_eq_none_iff.mp none
    rw [empty, length_nil] at length
    omega
  · exact ⟨pushed, by omega⟩

/-- What looking at a node does to the beam. -/
inductive Visited (g : Graph) (metric : Metric D K) (query : Vec) (ef : Nat) (beam : Beam D)
    (nid : Nat) : Beam D → Prop where
  | seen (old : nid ∈ beam.visited) : Visited g metric query ef beam nid beam
  | passed (new : nid ∉ beam.visited) (full : ef ≤ beam.results.size) :
      Visited g metric query ef beam nid { beam with visited := nid :: beam.visited }
  | added {item : HeapItem D} {results : Array (HeapItem D)} (new : nid ∉ beam.visited)
      (named : item.id = nid) (measured : g.Measured metric query item)
      (deleted : nid ∈ g.tombstones → results = beam.results)
      (live : nid ∉ g.tombstones → Grows ef item beam.results.toList results.toList) :
      Visited g metric query ef beam nid
        ⟨nid :: beam.visited, BinaryHeap.push (closer metric) beam.candidates item, results⟩

theorem visited_visit {ef nid : Nat} (mem : nid ∈ g.nodes) (beam : Beam D) :
    Visited g metric query ef beam nid (g.visit metric query ef beam nid) ∧
      (g.visit metric query ef beam nid).results.size ≤ max ef beam.results.size := by
  rcases mem_iff_get?.mp mem with ⟨node, found⟩
  rw [visit]
  split
  · rename_i old
    exact ⟨.seen old, le_max_right _ _⟩
  rename_i new
  rw [found]
  dsimp only
  split
  · by_cases deleted : nid ∈ g.tombstones
    · rw [if_pos deleted]
      exact ⟨.added new rfl ⟨node, found, rfl⟩ (fun _ => rfl) (absurd deleted), le_max_right _ _⟩
    · rw [if_neg deleted]
      rcases @grows_addResult D K _ metric ef beam.results
        ⟨nid, metric.dist query node.vector⟩ with ⟨grows, bounded⟩
      exact ⟨.added new rfl ⟨node, found, rfl⟩ (fun isDeleted => absurd isDeleted deleted)
        fun _ => grows, bounded⟩
  · rename_i full
    exact ⟨.passed new (Nat.not_lt.mp fun room => full (.inl room)), le_max_right _ _⟩

theorem visited_enter {nid : Nat} (mem : nid ∈ g.nodes) (beam : Beam D) :
    ∃ next, g.enter metric query beam nid = some next ∧
      ∀ ef, Visited g metric query ef beam nid next := by
  rcases mem_iff_get?.mp mem with ⟨node, found⟩
  rw [enter]
  split
  · rename_i old
    exact ⟨beam, rfl, fun _ => .seen old⟩
  rename_i new
  rw [found]
  refine ⟨_, rfl, fun ef => .added new rfl ⟨node, found, rfl⟩ ?_ ?_⟩
  · intro deleted
    rw [if_pos deleted]
  intro live
  rw [if_neg live]
  exact grows_push ef _ _

section

variable {beam next : Beam D} {ef nid : Nat} {sources : List Nat}

theorem Visited.mem_visited (step : Visited g metric query ef beam nid next) :
    id ∈ next.visited ↔ id = nid ∨ id ∈ beam.visited := by
  cases step with
  | seen old =>
    constructor
    · exact .inr
    · rintro (rfl | mem)
      · exact old
      · exact mem
  | passed new full => exact mem_cons
  | added new named measured deleted live => exact mem_cons

/-- A node that becomes a candidate is no longer one that may become a candidate. -/
theorem Visited.remaining_le (step : Visited g metric query ef beam nid next)
    (mem : nid ∈ g.nodes) : g.remaining next ≤ g.remaining beam := by
  cases step with
  | seen old => exact le_refl _
  | passed new full =>
    have fewer := @unvisited_cons g D beam.visited beam.candidates beam.candidates beam.results
      beam.results nid new mem
    exact Nat.add_le_add_left (Nat.le_of_succ_le fewer.le) _
  | @added item results new named measured deleted live =>
    have fewer := @unvisited_cons g D beam.visited beam.candidates
      (BinaryHeap.push (closer metric) beam.candidates item) beam.results results nid new mem
    rw [remaining, remaining, BinaryHeap.length_push, ← fewer]
    omega

/-- What a beam holds comes from the entry points. -/
structure Sound (g : Graph) (metric : Metric D K) (query : Vec) (layer : Nat)
    (sources : List Nat) (beam : Beam D) : Prop where
  visited : ∀ id ∈ beam.visited, ∃ source ∈ sources, g.Reaches layer source id
  candidates : ∀ item ∈ beam.candidates.toList, item.id ∈ beam.visited
  results : ∀ item ∈ beam.results.toList,
    item.id ∈ beam.visited ∧ item.id ∉ g.tombstones ∧ g.Measured metric query item
  distinct : (beam.results.toList.map HeapItem.id).Nodup

/-- New results are old ones and a node that had not been visited. -/
theorem Sound.nodup_of_subperm (sound : Sound g metric query layer sources beam)
    {item : HeapItem D} (new : item.id ∉ beam.visited) {results : List (HeapItem D)}
    (among : results.Subperm (item :: beam.results.toList)) : (results.map HeapItem.id).Nodup := by
  have ids : ((item :: beam.results.toList).map HeapItem.id).Nodup := by
    rw [map_cons, nodup_cons]
    refine ⟨fun mem => ?_, sound.distinct⟩
    rcases mem_map.mp mem with ⟨other, isResult, same⟩
    exact new (same ▸ (sound.results other isResult).1)
  rcases among with ⟨ordered, perm, sublist⟩
  rw [← (perm.map HeapItem.id).nodup_iff]
  exact ids.sublist (sublist.map HeapItem.id)

theorem Sound.visited_step (sound : Sound g metric query layer sources beam)
    (step : Visited g metric query ef beam nid next)
    (reached : ∃ source ∈ sources, g.Reaches layer source nid) :
    Sound g metric query layer sources next := by
  have visited :
      Sound g metric query layer sources { beam with visited := nid :: beam.visited } := by
    refine ⟨forall_mem_cons.mpr ⟨reached, sound.visited⟩, ?_, ?_, sound.distinct⟩
    · exact fun item mem => mem_cons_of_mem _ (sound.candidates item mem)
    · exact fun item mem => (sound.results item mem).imp_left (mem_cons_of_mem _)
  cases step with
  | seen old => exact sound
  | passed new full => exact visited
  | @added item results new named measured deleted live =>
    have candidates : ∀ other ∈ (BinaryHeap.push (closer metric) beam.candidates item).toList,
        other.id ∈ nid :: beam.visited := by
      intro other mem
      rcases BinaryHeap.mem_push.mp mem with rfl | before
      · exact named ▸ mem_cons_self
      · exact visited.candidates other before
    by_cases isDeleted : nid ∈ g.tombstones
    · rw [deleted isDeleted]
      exact { visited with candidates }
    refine { visited with candidates, results := ?_, distinct := ?_ }
    · intro other mem
      rcases mem_cons.mp ((live isDeleted).among.subset mem) with rfl | before
      · exact ⟨named ▸ mem_cons_self, named ▸ isDeleted, measured⟩
      · exact visited.results other before
    · exact sound.nodup_of_subperm (named ▸ new) (live isDeleted).among

/-- The node has been deleted or is among the results. -/
def Settled (g : Graph) (beam : Beam D) (id : Nat) : Prop :=
  id ∈ g.tombstones ∨ id ∈ beam.results.toList.map HeapItem.id

/-- As long as there is room for results, everything live that has been visited is one,
and its links have been followed unless it is still a candidate or being looked at. -/
def Complete (g : Graph) (layer ef : Nat) (busy : Nat → Prop) (beam : Beam D) : Prop :=
  beam.results.toList.length < ef → ∀ id ∈ beam.visited, g.Settled beam id ∧
    ((∃ item ∈ beam.candidates.toList, item.id = id) ∨ busy id ∨
      ∀ nid, g.Linked layer id nid → nid ∈ beam.visited)

variable {busy : Nat → Prop}

theorem Complete.visited_step (complete : Complete g layer ef busy beam)
    (step : Visited g metric query ef beam nid next) : Complete g layer ef busy next := by
  cases step with
  | seen old => exact complete
  | passed new full =>
    -- nothing is passed over while there is room
    intro room
    exact absurd (Array.length_toList ▸ room) (Nat.not_lt.mpr full)
  | @added item results new named measured deleted live =>
    intro room
    have before : beam.results.toList.length < ef ∧ (nid ∈ g.tombstones ∨
        results.toList.Perm (item :: beam.results.toList)) ∧
          beam.results.toList ⊆ results.toList := by
      by_cases isDeleted : nid ∈ g.tombstones
      · rw [deleted isDeleted] at room ⊢
        exact ⟨room, .inl isDeleted, List.Subset.refl _⟩
      have grows := live isDeleted
      have perm := grows.kept room
      exact ⟨grows.larger.trans_lt room, .inr perm,
        fun other mem => perm.mem_iff.mpr (mem_cons_of_mem _ mem)⟩
    rcases before with ⟨roomBefore, isNew, subset⟩
    intro id mem
    rcases mem_cons.mp mem with rfl | old
    · refine ⟨isNew.imp_right fun perm => ?_,
        .inl ⟨item, BinaryHeap.mem_push.mpr (.inl rfl), named⟩⟩
      exact mem_map.mpr ⟨item, perm.mem_iff.mpr mem_cons_self, named⟩
    rcases complete roomBefore id old with ⟨settled, progress⟩
    refine ⟨settled.imp_right fun isResult => map_subset _ subset isResult, ?_⟩
    rcases progress with ⟨other, isOther, rfl⟩ | isBusy | followed
    · exact .inl ⟨other, BinaryHeap.mem_push.mpr (.inr isOther), rfl⟩
    · exact .inr (.inl isBusy)
    · exact .inr (.inr fun nid link => mem_cons_of_mem _ (followed nid link))

/-- What holds of a beam between two steps of a search. -/
structure Searching (g : Graph) (metric : Metric D K) (query : Vec) (layer ef : Nat)
    (sources : List Nat) (busy : Nat → Prop) (beam : Beam D) : Prop where
  sound : Sound g metric query layer sources beam
  complete : Complete g layer ef busy beam

theorem Searching.visited_step (searching : Searching g metric query layer ef sources busy beam)
    (step : Visited g metric query ef beam nid next)
    (reached : ∃ source ∈ sources, g.Reaches layer source nid) :
    Searching g metric query layer ef sources busy next :=
  ⟨searching.sound.visited_step step reached, searching.complete.visited_step step⟩

/-- The neighbours of a node are looked at one after the other. -/
theorem Searching.foldl_visit (neighbors : List Nat)
    (searching : Searching g metric query layer ef sources busy beam)
    (mem : ∀ nid ∈ neighbors, nid ∈ g.nodes)
    (reached : ∀ nid ∈ neighbors, ∃ source ∈ sources, g.Reaches layer source nid) :
    ∃ next, neighbors.foldl (g.visit metric query ef) beam = next ∧
      Searching g metric query layer ef sources busy next ∧
      (∀ id, id ∈ next.visited ↔ id ∈ beam.visited ∨ id ∈ neighbors) ∧
      g.remaining next ≤ g.remaining beam ∧ next.results.size ≤ max ef beam.results.size := by
  induction neighbors generalizing beam with
  | nil => exact ⟨beam, rfl, searching, by simp, le_refl _, le_max_right _ _⟩
  | cons nid rest ih =>
    have isNode := mem nid mem_cons_self
    rcases @visited_visit g D K _ metric query ef nid isNode beam with ⟨step, bounded⟩
    rcases ih (searching.visited_step step (reached nid mem_cons_self))
      (fun other isOther => mem other (mem_cons_of_mem _ isOther))
      (fun other isOther => reached other (mem_cons_of_mem _ isOther)) with
      ⟨next, ran, later, known, fewer, bounded'⟩
    refine ⟨next, ran, later, fun id => ?_, fewer.trans (step.remaining_le isNode), by omega⟩
    rw [known, step.mem_visited, mem_cons, or_left_comm, or_assoc]

/-- Nothing is being looked at. -/
def idle (_ : Nat) : Prop :=
  False

/-- Unless there are enough results, everything live that has been visited is one, and all
links from there have been followed. -/
def Closed (g : Graph) (layer ef : Nat) (beam : Beam D) : Prop :=
  beam.results.toList.length < ef → ∀ id ∈ beam.visited, g.Settled beam id ∧
    ∀ nid, g.Linked layer id nid → nid ∈ beam.visited

theorem Complete.closed (complete : Complete g layer ef idle beam)
    (done : beam.candidates.toList = []) : Closed g layer ef beam := by
  intro room id mem
  rcases complete room id mem with ⟨settled, ⟨item, isCandidate, _⟩ | isBusy | followed⟩
  · rw [done] at isCandidate
    cases isCandidate
  · cases isBusy
  · exact ⟨settled, followed⟩

/-- A candidate is taken from the heap to be looked at. -/
theorem Searching.pop (searching : Searching g metric query layer ef sources idle beam)
    {item : HeapItem D} {rest : Array (HeapItem D)}
    (popped : BinaryHeap.pop (closer metric) beam.candidates = some (item, rest)) :
    Searching g metric query layer ef sources (fun id => id = item.id)
      { beam with candidates := rest } := by
  have perm := BinaryHeap.pop_perm popped
  constructor
  · refine { searching.sound with candidates := fun other mem => ?_ }
    exact searching.sound.candidates other (perm.mem_iff.mp (mem_cons_of_mem _ mem))
  · intro room id mem
    rcases searching.complete room id mem with ⟨settled, ⟨other, isOther, rfl⟩ | isBusy | followed⟩
    · rcases mem_cons.mp (perm.mem_iff.mpr isOther) with rfl | later
      · exact ⟨settled, .inr (.inl rfl)⟩
      · exact ⟨settled, .inl ⟨other, later, rfl⟩⟩
    · cases isBusy
    · exact ⟨settled, .inr (.inr followed)⟩

/-- All neighbours of the node that was looked at have been visited. -/
theorem Searching.finish
    (searching : Searching g metric query layer ef sources (fun other => other = id) beam)
    (known : ∀ nid, g.Linked layer id nid → nid ∈ beam.visited) :
    Searching g metric query layer ef sources idle beam := by
  constructor
  · exact searching.sound
  · intro room other mem
    rcases searching.complete room other mem with ⟨settled, candidate | rfl | followed⟩
    · exact ⟨settled, .inl candidate⟩
    · exact ⟨settled, .inr (.inr known)⟩
    · exact ⟨settled, .inr (.inr followed)⟩

/-- With a beam, the farthest result is there whenever it is asked for. -/
theorem exists_exhausted (pos : 1 ≤ ef) (results : Array (HeapItem D)) (dist : D) :
    ∃ stop, exhausted metric ef results dist = some stop ∧ (stop = true → ef ≤ results.size) := by
  rw [exhausted]
  split
  · rename_i full
    rw [Array.getElem?_eq_getElem (pos.trans full)]
    exact ⟨_, rfl, fun _ => full⟩
  · exact ⟨false, rfl, fun stop => absurd stop Bool.false_ne_true⟩

/-- The exploration ends within its bound. -/
theorem Searching.explore (wf : g.WellFormed) (pos : 1 ≤ ef)
    (nodes : ∀ source ∈ sources, source ∈ g.nodes) {bound : Nat}
    (searching : Searching g metric query layer ef sources idle beam)
    (enough : g.remaining beam ≤ bound) :
    ∃ final, g.explore metric query ef layer bound beam = some final ∧
      Sound g metric query layer sources final ∧ Closed g layer ef final ∧
      (∀ id ∈ beam.visited, id ∈ final.visited) ∧
      final.results.size ≤ max ef beam.results.size := by
  induction bound generalizing beam with
  | zero =>
    have none : beam.candidates.toList = [] := by
      rw [← length_eq_zero_iff]
      rw [remaining] at enough
      omega
    rw [Graph.explore, if_pos (Array.isEmpty_iff.mpr (Array.toList_eq_nil_iff.mp none))]
    exact ⟨beam, rfl, searching.sound, searching.complete.closed none, fun _ mem => mem,
      le_max_right _ _⟩
  | succ bound ih =>
    rw [Graph.explore]
    split
    · rename_i none
      have done := BinaryHeap.pop_eq_none_iff.mp none
      exact ⟨beam, rfl, searching.sound, searching.complete.closed done, fun _ mem => mem,
        le_max_right _ _⟩
    rename_i item rest popped
    have looking := searching.pop popped
    rcases @exists_exhausted D K _ metric ef pos beam.results item.dist with ⟨stop, isStop, full⟩
    rw [isStop]
    cases stop with
    | true =>
      refine ⟨_, rfl, looking.sound, ?_, fun _ mem => mem, le_max_right _ _⟩
      -- the search only stops early when there are enough results
      intro room
      exact absurd (Array.length_toList ▸ room) (Nat.not_lt.mpr (full rfl))
    | false =>
      have isCandidate : item ∈ beam.candidates.toList :=
        (BinaryHeap.pop_perm popped).mem_iff.mp mem_cons_self
      rcases searching.sound.visited item.id (searching.sound.candidates item isCandidate) with
        ⟨source, isSource, reaches⟩
      have isNode := wf.mem_of_reaches (nodes source isSource) reaches
      rcases mem_iff_get?.mp isNode with ⟨node, found⟩
      dsimp only
      rw [found]
      dsimp only
      rcases looking.foldl_visit (node.neighbors.getD layer [])
          (fun nid mem => wf.mem_of_reaches isNode (.single ((mem_getD_neighbors found).mp mem)))
          (fun nid mem => ⟨source, isSource, reaches.tail ((mem_getD_neighbors found).mp mem)⟩) with
        ⟨next, isNext, visited, known, fewer, bounded⟩
      have left : g.remaining ({ beam with candidates := rest } : Beam D) + 1 ≤
          g.remaining beam := by
        have length := (BinaryHeap.pop_perm popped).length_eq
        rw [length_cons] at length
        rw [remaining, remaining, ← length]
        exact (Nat.succ_add _ _).ge
      rw [isNext]
      have followed : ∀ nid, g.Linked layer item.id nid → nid ∈ next.visited := fun nid link =>
        (known nid).mpr (.inr ((mem_getD_neighbors found).mpr link))
      rcases ih (visited.finish followed) (by omega) with
        ⟨final, ran, sound, closed, subset, bounded'⟩
      exact ⟨final, ran, sound, closed, fun id mem => subset id ((known id).mpr (.inl mem)),
        by dsimp only at bounded; omega⟩

/-- The entry points are entered one after the other. -/
theorem Searching.foldlM_enter (entryIDs : List Nat)
    (searching : Searching g metric query layer ef sources idle beam)
    (mem : ∀ id ∈ entryIDs, id ∈ g.nodes) (among : ∀ id ∈ entryIDs, id ∈ sources) :
    ∃ next, entryIDs.foldlM (g.enter metric query) beam = some next ∧
      Searching g metric query layer ef sources idle next ∧
      (∀ id, id ∈ next.visited ↔ id ∈ beam.visited ∨ id ∈ entryIDs) ∧
      g.remaining next ≤ g.remaining beam := by
  induction entryIDs generalizing beam with
  | nil => exact ⟨beam, rfl, searching, by simp, le_refl _⟩
  | cons entry rest ih =>
    have isNode := mem entry mem_cons_self
    rcases @visited_enter g D K _ metric query entry isNode beam with ⟨next, entered, step⟩
    have reached : ∃ source ∈ sources, g.Reaches layer source entry :=
      ⟨entry, among entry mem_cons_self, .refl⟩
    rcases ih (searching.visited_step (step ef) reached)
      (fun other isOther => mem other (mem_cons_of_mem _ isOther))
      (fun other isOther => among other (mem_cons_of_mem _ isOther)) with
      ⟨final, ran, later, known, fewer⟩
    refine ⟨final, ?_, later, fun id => ?_, fewer.trans ((step ef).remaining_le isNode)⟩
    · rw [foldlM_cons, entered]
      exact ran
    · rw [known, (step ef).mem_visited, mem_cons, or_left_comm, or_assoc]

/-- What a beam search finds: live nodes that are reachable from its entry points, and
all of them if there is room. -/
structure Finding (g : Graph) (metric : Metric D K) (query : Vec) (layer ef : Nat)
    (entryIDs : List Nat) (items : List (HeapItem D)) : Prop where
  distinct : (items.map HeapItem.id).Nodup
  bounded : items.length ≤ max ef entryIDs.dedup.length
  sound : ∀ item ∈ items, item.id ∉ g.tombstones ∧ g.Measured metric query item ∧
    ∃ source ∈ entryIDs, g.Reaches layer source item.id
  complete : items.length < ef → ∀ source ∈ entryIDs, ∀ id, g.Reaches layer source id →
    id ∈ g.tombstones ∨ id ∈ items.map HeapItem.id

theorem searchLayer_spec (wf : g.WellFormed) (pos : 1 ≤ ef) {entryIDs : List Nat}
    (nodes : ∀ id ∈ entryIDs, id ∈ g.nodes) :
    ∃ items, g.searchLayer metric query entryIDs ef layer = some items ∧
      Finding g metric query layer ef entryIDs items := by
  have start : Searching g metric query layer ef entryIDs idle (⟨[], #[], #[]⟩ : Beam D) := by
    constructor
    · exact ⟨forall_mem_nil _, forall_mem_nil _, forall_mem_nil _, nodup_nil⟩
    · exact fun _ => forall_mem_nil _
  rcases start.foldlM_enter entryIDs nodes (fun _ mem => mem) with
    ⟨beam, entered, searching, known, fewer⟩
  have enough : g.remaining beam ≤ g.nodes.size := by
    apply fewer.trans
    rw [remaining, unvisited]
    simp only [length_nil, Nat.zero_add]
    exact (Finset.card_le_card (Finset.filter_subset _ _)).trans card_ids_le
  have entries : beam.results.size ≤ entryIDs.dedup.length := by
    rw [← Array.length_toList, ← length_map HeapItem.id]
    apply (subperm_of_subset searching.sound.distinct _).length_le
    intro id mem
    rcases mem_map.mp mem with ⟨item, isResult, rfl⟩
    rcases (known item.id).mp (searching.sound.results item isResult).1 with before | isEntry
    · cases before
    · exact mem_dedup.mpr isEntry
  rcases searching.explore wf pos nodes enough with ⟨final, ran, sound, closed, subset, bounded⟩
  refine ⟨final.results.toList, ?_, ?_, ?_, ?_, ?_⟩
  · rw [searchLayer, entered]
    exact Option.map_eq_some_iff.mpr ⟨final, ran, rfl⟩
  · exact sound.distinct
  · rw [Array.length_toList]
    omega
  · intro item mem
    rcases sound.results item mem with ⟨seen, live, measured⟩
    exact ⟨live, measured, sound.visited item.id seen⟩
  · intro room source isSource id reaches
    have isVisited : id ∈ final.visited := by
      induction reaches with
      | refl => exact subset source ((known source).mpr (.inr isSource))
      | tail _ link ih => exact (closed room _ ih).2 _ link
    exact (closed room id isVisited).1

end

end

end Theseon.Hnsw.Graph
