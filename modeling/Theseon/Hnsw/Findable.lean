import Theseon.Hnsw.Insert
import Theseon.Lib.Machine

/-!
# Finding live vectors

A search returns something exactly when a live node is within reach: reachable on the
lowest layer from the node where the descent through the upper layers ends.
-/

namespace Theseon.Hnsw

open Lib List
open Std (ExtTreeMap)

/-- The calls that change a graph. -/
inductive GraphCall where
  | insert (id : Nat) (externalID : ExternalID) (vec : Vec) (level : Nat)
  | markDeleted (id : Nat)
  deriving DecidableEq, Repr

namespace Graph

section

variable {D K : Type} [LinearOrder K] (metric : Metric D K)

/-- One call.  An insertion that is refused changes nothing. -/
def step (g : Graph) : GraphCall → Option Graph
  | .insert id externalID vec level =>
    (g.insert metric id externalID vec level).map fun
      | .ok next => next
      | .error _ => g
  | .markDeleted id => some (g.markDeleted id)

/-- A search returns at least one result. -/
def Finds (g : Graph) (query : Vec) (k efSearch : Nat) : Prop :=
  ∃ results, g.search metric query k efSearch = some (.ok results) ∧ results ≠ []

/-- A live node can be reached on the lowest layer from where the descent ends. -/
def LiveWithinReach (g : Graph) (query : Vec) : Prop :=
  ∃ ep, g.landing metric query = some ep ∧ ∃ id, g.Reaches 0 ep id ∧ g.Live id

end

variable {g next : Graph}

/-! ## Every graph is well formed -/

theorem new_eq_ok {opts : Options} (created : Graph.new opts = .ok g) :
    g = ⟨∅, 0, 0, opts, ∅, 0⟩ ∧ (1 ≤ opts.efConstruct ∧ 1 ≤ opts.efSearch) ∧ 2 ≤ opts.m := by
  rw [Graph.new] at created
  split at created
  · cases created
  split at created
  · cases created
  rename_i atLeast
  split at created
  · cases created
  rename_i construct
  split at created
  · cases created
  rename_i search
  cases created
  exact ⟨rfl, ⟨Nat.not_lt.mp construct, Nat.not_lt.mp search⟩, Nat.not_lt.mp atLeast⟩

theorem wellFormed_new {opts : Options} (created : Graph.new opts = .ok g) : g.WellFormed := by
  rcases new_eq_ok created with ⟨rfl, beams, _⟩
  constructor
  · intro id node isNode
    cases isNode
  · intro id node isNode
    cases isNode
  · intro id layer neighbors isNeighbors
    cases isNeighbors
  · rintro ⟨id, mem⟩
    exact absurd mem ExtTreeMap.not_mem_empty
  · exact beams

theorem WellFormed.markDeleted (wf : g.WellFormed) (id : Nat) : (g.markDeleted id).WellFormed := by
  rw [Graph.markDeleted]
  split
  · exact ⟨wf.named, wf.layered, wf.linked, wf.entry, wf.beams⟩
  · exact wf

section

variable {D K : Type} [LinearOrder K] {metric : Metric D K}

theorem WellFormed.step (wf : g.WellFormed) {call : GraphCall}
    (stepped : g.step metric call = some next) : next.WellFormed ∧ next.opts = g.opts := by
  cases call with
  | insert id externalID vec level =>
    rcases @WellFormed.insert g D K _ metric wf id externalID vec level with
      ⟨result, ran, inserted⟩
    rw [Graph.step, ran] at stepped
    cases inserted with
    | dimensionMismatch _ =>
      cases stepped
      exact ⟨wf, rfl⟩
    | duplicateID _ =>
      cases stepped
      exact ⟨wf, rfl⟩
    | memoryLimitExceeded _ =>
      cases stepped
      exact ⟨wf, rfl⟩
    | added _ _ nextWf _ opts _ =>
      cases stepped
      exact ⟨nextWf, opts⟩
  | markDeleted id =>
    cases stepped
    refine ⟨wf.markDeleted id, ?_⟩
    rw [Graph.markDeleted]
    split
    · rfl
    · rfl

/-! ## What a search returns -/

/-- The result for a node of the graph. -/
def Reports (g : Graph) (item : HeapItem D) (result : SearchResult D) : Prop :=
  ∃ node : Node, g.nodes[item.id]? = some node ∧
    result = ⟨item.id, node.externalID, item.dist⟩

theorem closestResults_eq_some {candidates : List (HeapItem D)} (k : Nat)
    (known : ∀ c ∈ candidates, c.id ∈ g.nodes) :
    ∃ results, g.closestResults metric candidates k = some results ∧
      List.Forall₂ g.Reports ((metric.sorter.sort candidates).take k) results := by
  have taken : ∀ c ∈ (metric.sorter.sort candidates).take k, c.id ∈ g.nodes :=
    fun c mem => known c (metric.sorter.mem_sort.mp (mem_of_mem_take mem))
  rw [closestResults]
  generalize (metric.sorter.sort candidates).take k = closest at taken
  induction closest with
  | nil => exact ⟨[], rfl, .nil⟩
  | cons c rest ih =>
    rcases mem_iff_get?.mp (taken c mem_cons_self) with ⟨node, isNode⟩
    rcases ih fun other mem => taken other (mem_cons_of_mem _ mem) with
      ⟨results, ran, reports⟩
    refine ⟨⟨c.id, node.externalID, c.dist⟩ :: results, ?_, .cons ⟨node, isNode, rfl⟩ reports⟩
    rw [mapM_cons, isNode, ran]
    rfl

/-- A search of a graph with nodes returns as many of the nodes that the lowest layer
gives as are asked for, the closest ones. -/
theorem WellFormed.search_eq (wf : g.WellFormed) {query : Vec} (fits : query.length = g.opts.dim)
    (k efSearch : Nat) (some : ∃ id, id ∈ g.nodes) :
    ∃ (ep : Nat) (items : List (HeapItem D)) (results : List (SearchResult D)),
      g.landing metric query = Option.some ep ∧ 1 ≤ g.beamWidth k efSearch ∧
      Finding g metric query 0 (g.beamWidth k efSearch) [ep] items ∧
      g.search metric query k efSearch = Option.some (.ok results) ∧
      List.Forall₂ g.Reports ((metric.sorter.sort items).take k) results := by
  rcases @landing_present g D K _ metric query wf some with ⟨ep, landed, present⟩
  have wide : 1 ≤ g.beamWidth k efSearch := by
    apply le_trans _ (Nat.le_max_left _ _)
    split
    · assumption
    · exact wf.beams.2
  rcases @searchLayer_spec g 0 D K _ metric query (g.beamWidth k efSearch) wf wide [ep]
    (fun id mem => mem_singleton.mp mem ▸ present.mem) with ⟨items, searched, finding⟩
  have known : ∀ item ∈ items, item.id ∈ g.nodes := by
    intro item mem
    rcases (finding.sound item mem).2.1 with ⟨node, isNode, _⟩
    exact mem_iff_get?.mpr ⟨node, isNode⟩
  rcases @closestResults_eq_some g D K _ metric items k known with ⟨results, closest, reports⟩
  have notEmpty : g.nodes.size ≠ 0 := by
    intro empty
    rcases some with ⟨id, mem⟩
    rw [← ExtTreeMap.eq_empty_iff_size_eq_zero] at empty
    rw [empty] at mem
    exact ExtTreeMap.not_mem_empty mem
  refine ⟨ep, items, results, landed, wide, finding, ?_, reports⟩
  rw [Graph.search, if_neg (not_not_intro fits), if_neg notEmpty, landed, Option.bind_some,
    searched, Option.bind_some, closest]
  rfl

/-- On a graph with a live node, a search finds something if and only if a live node is
within reach. -/
theorem WellFormed.finds_iff (wf : g.WellFormed) {query : Vec} (fits : query.length = g.opts.dim)
    {k : Nat} (pos : 1 ≤ k) (efSearch : Nat) (some : ∃ id, id ∈ g.nodes) :
    g.Finds metric query k efSearch ↔ g.LiveWithinReach metric query := by
  rcases @WellFormed.search_eq g D K _ metric wf query fits k efSearch some with
    ⟨ep, items, results, landed, wide, finding, ran, reports⟩
  have someItem : results ≠ [] ↔ items ≠ [] := by
    rw [← length_pos_iff, ← length_pos_iff, ← reports.length_eq, length_take,
      (metric.sorter.perm items).length_eq]
    omega
  constructor
  · rintro ⟨others, isSearch, nonempty⟩
    rw [ran] at isSearch
    cases isSearch
    rcases exists_mem_of_ne_nil _ (someItem.mp nonempty) with ⟨item, mem⟩
    rcases finding.sound item mem with ⟨live, ⟨node, isNode, _⟩, source, isSource, reaches⟩
    rw [mem_singleton.mp isSource] at reaches
    exact ⟨ep, landed, item.id, reaches, mem_iff_get?.mpr ⟨node, isNode⟩, live⟩
  · rintro ⟨other, isLanding, id, reaches, live⟩
    rw [landed] at isLanding
    cases isLanding
    refine ⟨results, ran, someItem.mpr ?_⟩
    rintro rfl
    rcases finding.complete wide ep mem_cons_self id reaches with deleted | found
    · exact live.2 deleted
    · cases found

/-- A search never looks for what is not there. -/
theorem WellFormed.search_total (wf : g.WellFormed) (query : Vec) (k efSearch : Nat) :
    ∃ result, g.search metric query k efSearch = some result := by
  by_cases fits : query.length = g.opts.dim
  · by_cases empty : g.nodes.size = 0
    · rw [Graph.search, if_neg (not_not_intro fits), if_pos empty]
      exact ⟨_, rfl⟩
    · rcases @WellFormed.search_eq g D K _ metric wf query fits k efSearch
        (exists_mem_of_size_ne_zero empty) with ⟨_, _, results, _, _, _, ran, _⟩
      exact ⟨_, ran⟩
  · rw [Graph.search, if_pos fits]
    exact ⟨_, rfl⟩

end

/-! ## Two vectors -/

/-- Different vectors have distance one. -/
def discrete : Metric Nat Nat where
  dist first second := if first = second then 0 else 1
  less first second := first < second
  rank := id
  rank_lt_of_less less := of_decide_eq_true less
  sorter := .insertion _

def smallOptions : Options :=
  ⟨2, 1, 1, 1, 0⟩

/-- An empty graph with these options. -/
def smallGraph : Graph :=
  ⟨∅, 0, 0, smallOptions, ∅, 0⟩

end Graph

end Theseon.Hnsw
