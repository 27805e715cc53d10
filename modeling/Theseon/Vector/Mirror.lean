import Theseon.Hnsw.Findable
import Theseon.Vector.Store

/-!
# The index mirrors the key-value store

In every state that calls of the store lead to, an identifier is indexed exactly if its
entry is live, its node carries the vector of the entry, and no other live node carries
the identifier.
-/

namespace Theseon.Hnsw.Graph

open Std (ExtTreeMap ExtTreeSet)

variable {g next : Graph}

/-- The identifier and the vector of a node. -/
def label (g : Graph) (n : Nat) : Option (ExternalID × Vec) :=
  (g.nodes[n]?).map fun node => (node.externalID, node.vector)

theorem label_eq_bare (g : Graph) (n : Nat) :
    g.label n = ((g.nodes[n]?).map Node.bare).map fun node => (node.externalID, node.vector) := by
  rw [label, Option.map_map]
  rfl

variable {n : Nat}

theorem label_eq_none_iff : g.label n = none ↔ n ∉ g.nodes := by
  rw [label, Option.map_eq_none_iff, Lib.mem_iff_get?, Option.eq_none_iff_forall_ne_some]
  push Not
  rfl

theorem mem_nodes_of_label {carried : ExternalID × Vec} (labelled : g.label n = some carried) :
    n ∈ g.nodes := by
  by_contra absent
  rw [label_eq_none_iff.mpr absent] at labelled
  cases labelled

theorem label_of_bare {id level : Nat} {externalID : ExternalID} {vec : Vec}
    (nodes : ∀ other : Nat, (next.nodes[other]?).map Node.bare =
      if id = other then some (freshNode id externalID vec level).bare
      else (g.nodes[other]?).map Node.bare) (n : Nat) :
    next.label n = if id = n then some (externalID, vec) else g.label n := by
  rw [label_eq_bare, nodes, label_eq_bare]
  split
  · rfl
  · rfl

@[simp]
theorem label_markDeleted (g : Graph) (old n : Nat) : (g.markDeleted old).label n = g.label n := by
  rw [markDeleted]
  split
  · rfl
  · rfl

@[simp]
theorem opts_markDeleted (g : Graph) (old : Nat) : (g.markDeleted old).opts = g.opts := by
  rw [markDeleted]
  split
  · rfl
  · rfl

theorem mem_tombstones_markDeleted {old : Nat} :
    n ∈ (g.markDeleted old).tombstones ↔ n ∈ g.tombstones ∨ (old = n ∧ old ∈ g.nodes) := by
  rw [markDeleted]
  split
  · rename_i present
    rw [ExtTreeSet.mem_insert, Std.LawfulEqCmp.compare_eq_iff_eq, or_comm, and_iff_left present]
  · rename_i absent
    simp only [absent, and_false, or_false]

end Theseon.Hnsw.Graph

namespace Theseon.Vector

open Lib Hnsw
open Std (ExtTreeMap ExtTreeSet LawfulEqCmp)

/-! ## Keys do not clash -/

section Keys

variable {collection other : Bytes} {id id' : ExternalID}

theorem littleEndian_two_append_inj {first second rest rest' : Bytes}
    (same : littleEndian 2 first.length ++ rest = littleEndian 2 second.length ++ rest') :
    first.length % 2 ^ 16 = second.length % 2 ^ 16 ∧ rest = rest' := by
  have lengths : (littleEndian 2 first.length).length = (littleEndian 2 second.length).length := by
    rw [littleEndian_length, littleEndian_length]
  rcases List.append_inj same lengths with ⟨lens, rests⟩
  constructor
  · have numbers := congrArg ofLittleEndian lens
    rwa [ofLittleEndian_littleEndian, ofLittleEndian_littleEndian] at numbers
  · exact rests

theorem makeVectorKey_inj (sameLength : id.length = id'.length)
    (same : makeVectorKey collection id = makeVectorKey other id') :
    collection = other ∧ id = id' := by
  rw [makeVectorKey, makeVectorKey, collectionPrefix, collectionPrefix, List.cons_append,
    List.cons_append, List.append_assoc, List.append_assoc] at same
  rcases littleEndian_two_append_inj (List.cons.inj same).2 with ⟨_, rests⟩
  have lengths : collection.length = other.length := by
    have total := congrArg List.length rests
    simp only [List.length_append, List.length_cons] at total
    omega
  rcases List.append_inj rests lengths with ⟨names, tails⟩
  exact ⟨names, (List.cons.inj tails).2⟩

theorem makeVectorKey_same_inj (same : makeVectorKey collection id = makeVectorKey collection id') :
    id = id' := by
  rw [makeVectorKey, makeVectorKey] at same
  exact (List.cons.inj (List.append_cancel_left same)).2

theorem makeCollectionConfigKey_inj
    (same : makeCollectionConfigKey collection = makeCollectionConfigKey other) :
    collection = other := by
  have prefixes := List.append_cancel_right same
  exact (littleEndian_two_append_inj (List.cons.inj prefixes).2).2

theorem configKey_ne_vectorKey (sixteen : id.length = 16) :
    makeCollectionConfigKey collection ≠ makeVectorKey other id := by
  intro same
  rw [makeVectorKey, makeCollectionConfigKey, collectionPrefix, collectionPrefix,
    List.cons_append, List.cons_append, List.append_assoc, List.append_assoc] at same
  rcases littleEndian_two_append_inj (List.cons.inj same).2 with ⟨residues, rests⟩
  have total := congrArg List.length rests
  simp only [List.length_append, List.length_cons, List.length_nil, sixteen] at total
  omega

end Keys

namespace KVStore

theorem getElem?_write (kv : KVStore) (key other : Bytes) (value : Option Bytes) :
    (kv.write key value).entries[other]? =
      if key = other then some (kv.seq + 1, value) else kv.entries[other]? := by
  rw [write, getElem?_insert_if]

theorem seq_compact (kv : KVStore) (key : Bytes) : (kv.compact key).seq = kv.seq := by
  rw [compact]
  split <;> rfl

theorem getElem?_compact (kv : KVStore) (key other : Bytes) :
    (kv.compact key).entries[other]? =
      if key = other ∧ kv.get key = some none then none else kv.entries[other]? := by
  rw [compact]
  by_cases tombstone : kv.get key = some none
  · rw [if_pos tombstone, getElem?_erase_if]
    simp only [tombstone, and_true]
  · rw [if_neg tombstone, if_neg fun both => tombstone both.2]

variable {kv : KVStore} {key other : Bytes}

/-- What a compaction leaves was there before. -/
theorem getElem?_of_compact {entry : Nat × Option Bytes}
    (found : (kv.compact key).entries[other]? = some entry) : kv.entries[other]? = some entry := by
  rw [getElem?_compact] at found
  exact (Option.ite_none_left_eq_some.mp found).2

theorem get_write (kv : KVStore) (key other : Bytes) (value : Option Bytes) :
    (kv.write key value).get other = if key = other then some value else kv.get other := by
  rw [get, getElem?_write]
  split <;> rfl

/-- A write under the key of an identifier does not touch the other identifiers. -/
theorem get_write_vectorKey (kv : KVStore) (name : Bytes) (id other : ExternalID)
    (value : Option Bytes) :
    (kv.write (makeVectorKey name id) value).get (makeVectorKey name other) =
      if id = other then some value else kv.get (makeVectorKey name other) := by
  rw [get_write]
  by_cases same : id = other
  · rw [if_pos same, if_pos (congrArg _ same)]
  · rw [if_neg same, if_neg fun keys => same (makeVectorKey_same_inj keys)]

theorem get_compact_live {data : Bytes} :
    (kv.compact key).get other = some (some data) ↔ kv.get other = some (some data) := by
  rw [get, getElem?_compact]
  split
  · rename_i dropped
    rw [← dropped.1, dropped.2]
    simp
  · rfl

theorem get_compact_of_none (absent : kv.get other = none) :
    (kv.compact key).get other = none := by
  rw [get, getElem?_compact]
  split
  · rfl
  · exact absent

/-- No entry is newer than the last sequence number. -/
def Stamped (kv : KVStore) : Prop :=
  ∀ (key : Bytes) (seq : Nat) (value : Option Bytes), kv.entries[key]? = some (seq, value) →
    seq ≤ kv.seq

theorem Stamped.write {kv : KVStore} (stamped : kv.Stamped) (key : Bytes) (value : Option Bytes) :
    (kv.write key value).Stamped := by
  intro other seq value' found
  rw [getElem?_write] at found
  split at found
  · cases found
    exact le_rfl
  · exact (stamped other seq value' found).trans (Nat.le_succ _)

theorem Stamped.compact (stamped : kv.Stamped) (key : Bytes) :
    (kv.compact key).Stamped := by
  intro other seq value found
  rw [seq_compact]
  exact stamped other seq value (getElem?_of_compact found)

end KVStore

/-! ## The index -/

namespace Collection

variable {name : Bytes} {col next : Collection} {kv kv' : KVStore}

/-- The graph can take vectors of the collection's dimension under new numbers. -/
structure Ready (col : Collection) : Prop where
  wf : col.graph.WellFormed
  options : col.graph.opts = col.config.options
  distance : metricToDistanceFunc col.config.metric = some col.dist
  fresh : ∀ n ∈ col.graph.nodes, n < col.nextID
  marked : ∀ n ∈ col.graph.tombstones, n < col.nextID

variable {graph : Graph} {n : Nat}

/-- A collection without vectors. -/
theorem ready_new {cfg : CollectionConfig} {dist : Distance}
    (created : Graph.new cfg.options = .ok graph)
    (isDist : metricToDistanceFunc cfg.metric = some dist) : Ready ⟨graph, dist, cfg, ∅, 0⟩ := by
  have wf := Graph.wellFormed_new created
  rcases Graph.new_eq_ok created with ⟨rfl, _⟩
  constructor
  · exact wf
  · rfl
  · exact isDist
  · intro n mem
    exact absurd mem ExtTreeMap.not_mem_empty
  · intro n mem
    exact absurd mem ExtTreeSet.not_mem_empty

/-- The index after a vector has been added. -/
structure Indexed (col : Collection) (id : ExternalID) (vec : Vec) (next : Collection) : Prop where
  ready : next.Ready
  config : next.config = col.config
  dist : next.dist = col.dist
  labels : ∀ n, next.graph.label n = if col.nextID = n then some (id, vec) else col.graph.label n
  tombstones : ∀ n, n ∈ next.graph.tombstones ↔
    n ∈ col.graph.tombstones ∨ (col.ids[id]? = some n ∧ n ∈ next.graph.nodes)
  ids : next.ids = col.ids.insert id col.nextID
  nextID : next.nextID = col.nextID + 1

theorem wellFormed_unlink (id : ExternalID) (wf : graph.WellFormed) :
    (col.unlink id graph).WellFormed := by
  rw [unlink]
  split
  · exact wf.markDeleted _
  · exact wf

theorem label_unlink (id : ExternalID) (graph : Graph) (n : Nat) :
    (col.unlink id graph).label n = graph.label n := by
  rw [unlink]
  split
  · exact Graph.label_markDeleted _ _ _
  · rfl

theorem opts_unlink (id : ExternalID) (graph : Graph) : (col.unlink id graph).opts = graph.opts :=
    by
  rw [unlink]
  split
  · exact Graph.opts_markDeleted _ _
  · rfl

theorem mem_nodes_unlink (id : ExternalID) (graph : Graph) (n : Nat) :
    n ∈ (col.unlink id graph).nodes ↔ n ∈ graph.nodes := by
  rw [← not_iff_not, ← Graph.label_eq_none_iff, ← Graph.label_eq_none_iff, label_unlink]

theorem mem_tombstones_unlink {id : ExternalID} :
    n ∈ (col.unlink id graph).tombstones ↔
      n ∈ graph.tombstones ∨ (col.ids[id]? = some n ∧ n ∈ graph.nodes) := by
  rw [unlink]
  split
  · rename_i old indexed
    rw [Graph.mem_tombstones_markDeleted, indexed, Option.some.injEq]
    exact or_congr_right (and_congr_right fun same => same ▸ Iff.rfl)
  · rename_i notIndexed
    simp only [notIndexed, reduceCtorEq, false_and, or_false]

/-- The numbers of a graph with one more node. -/
theorem Ready.lt_succ_nextID (ready : col.Ready) {carried : ExternalID × Vec}
    (labels : ∀ n, graph.label n = if col.nextID = n then some carried else col.graph.label n)
    (mem : n ∈ graph.nodes) : n < col.nextID + 1 := by
  by_cases new : col.nextID = n
  · exact new ▸ Nat.lt_succ_self _
  have old : n ∈ col.graph.nodes := by
    by_contra absent
    apply Graph.label_eq_none_iff.mp _ mem
    rw [labels, if_neg new, Graph.label_eq_none_iff.mpr absent]
  exact (ready.fresh n old).trans (Nat.lt_succ_self _)

theorem Ready.unlink (ready : col.Ready) (id : ExternalID) :
    Ready { col with graph := col.unlink id col.graph } := by
  constructor
  · exact wellFormed_unlink id ready.wf
  · exact (opts_unlink id col.graph).trans ready.options
  · exact ready.distance
  · intro n mem
    exact ready.fresh n ((mem_nodes_unlink id col.graph n).mp mem)
  · intro n mem
    rcases mem_tombstones_unlink.mp mem with old | ⟨_, present⟩
    · exact ready.marked n old
    · exact ready.fresh n present

section

variable {D K : Type} [LinearOrder K] {metric : Distance → Metric D K}

/-- A collection that is ready takes every vector of its dimension. -/
theorem Ready.insert (ready : col.Ready) {vec : Vec} (fits : vec.length = col.config.dim)
    (id : ExternalID) (level : Nat) :
    ∃ graph, col.graph.insert (metric col.dist) col.nextID id vec level = some (.ok graph) ∧
      Ready { col with graph := graph, nextID := col.nextID + 1 } ∧
      graph.tombstones = col.graph.tombstones ∧
      ∀ n, graph.label n = if col.nextID = n then some (id, vec) else col.graph.label n := by
  rcases @Graph.WellFormed.insert col.graph D K _ (metric col.dist) ready.wf col.nextID id vec
    level with ⟨result, ran, inserted⟩
  cases inserted with
  | dimensionMismatch mismatch =>
    rw [ready.options] at mismatch
    exact absurd fits mismatch
  | duplicateID duplicate => exact absurd (ready.fresh _ duplicate) (lt_irrefl _)
  | memoryLimitExceeded limited =>
    rw [ready.options] at limited
    exact absurd limited (lt_irrefl 0)
  | added _ _ wf nodes opts tombstones =>
    have labels := Graph.label_of_bare nodes
    refine ⟨_, ran, ?_, tombstones, labels⟩
    constructor
    · exact wf
    · exact opts.trans ready.options
    · exact ready.distance
    · exact fun n mem => ready.lt_succ_nextID labels mem
    · intro n mem
      exact (ready.marked n (tombstones ▸ mem)).trans (Nat.lt_succ_self _)

theorem Ready.index (ready : col.Ready) {vec : Vec} (fits : vec.length = col.config.dim)
    (id : ExternalID) (level : Nat) :
    ∃ next, col.index metric id vec level = some (.ok (), next) ∧ Indexed col id vec next := by
  rcases @Ready.insert col D K _ metric ready vec fits id level with
    ⟨graph, ran, inserted, tombstones, labels⟩
  rw [Collection.index, ran]
  refine ⟨_, rfl, ?_⟩
  constructor
  · exact { inserted.unlink id with }
  · rfl
  · rfl
  · exact fun n => (label_unlink id graph n).trans (labels n)
  · intro n
    rw [mem_nodes_unlink, mem_tombstones_unlink, tombstones]
  · rfl
  · rfl

end

/-! ## The invariant of a collection -/

structure Mirrors (name : Bytes) (col : Collection) (kv : KVStore) : Prop where
  ready : col.Ready
  sized : ∀ n id vec, col.graph.label n = some (id, vec) →
    id.length = 16 ∧ vec.length = col.config.dim
  indexed : ∀ id n, col.ids[id]? = some n → n ∉ col.graph.tombstones ∧
    ∃ vec metadata ver data, col.graph.label n = some (id, vec) ∧
      encodeVector vec metadata ver = .ok data ∧ kv.get (makeVectorKey name id) = some (some data)
  stored : ∀ id data, id.length = 16 → kv.get (makeVectorKey name id) = some (some data) →
    id ∈ col.ids
  sole : ∀ n id vec, col.graph.label n = some (id, vec) → n ∉ col.graph.tombstones →
    col.ids[id]? = some n
  latest : ∀ n id vec m, col.graph.label n = some (id, vec) → col.ids[id]? = some m → n ≤ m

theorem Mirrors.lt_nextID (mirrors : col.Mirrors name kv) {id : ExternalID}
    (indexed : col.ids[id]? = some n) : n < col.nextID := by
  rcases mirrors.indexed id n indexed with ⟨_, vec, _, _, _, labelled, _⟩
  exact mirrors.ready.fresh n (Graph.mem_nodes_of_label labelled)

/-- Only the live entries of the collection's identifiers matter. -/
theorem Mirrors.congr (mirrors : col.Mirrors name kv)
    (same : ∀ (id : ExternalID) (data : Bytes), id.length = 16 →
      (kv'.get (makeVectorKey name id) = some (some data) ↔
        kv.get (makeVectorKey name id) = some (some data))) :
    col.Mirrors name kv' := by
  refine { mirrors with indexed := ?_, stored := ?_ }
  · intro id n indexed
    rcases mirrors.indexed id n indexed with
      ⟨live, vec, metadata, ver, data, labelled, encoded, found⟩
    have sixteen := (mirrors.sized n id vec labelled).1
    exact ⟨live, vec, metadata, ver, data, labelled, encoded, (same id data sixteen).mpr found⟩
  · intro id data sixteen found
    exact mirrors.stored id data sixteen ((same id data sixteen).mp found)

theorem Mirrors.put (mirrors : col.Mirrors name kv) {id : ExternalID} (sixteen : id.length = 16)
    {vec : Vec} (fits : vec.length = col.config.dim) {metadata : Metadata} {ver : VectorVersion}
    {data : Bytes} (encoded : encodeVector vec metadata ver = .ok data)
    (added : col.Indexed id vec next) :
    next.Mirrors name (kv.put (makeVectorKey name id) data) := by
  have getPut := fun other => kv.get_write_vectorKey name id other (some data)
  have idsOf (other : ExternalID) :
      next.ids[other]? = if id = other then some col.nextID else col.ids[other]? := by
    rw [added.ids, getElem?_insert_if]
  constructor
  · exact added.ready
  · intro n other vec' labelled
    rw [added.labels] at labelled
    rw [added.config]
    split at labelled
    · cases labelled
      exact ⟨sixteen, fits⟩
    · exact mirrors.sized n other vec' labelled
  · intro other n indexed
    rw [idsOf] at indexed
    split at indexed
    · rename_i same
      subst same
      cases indexed
      constructor
      · intro marked
        rcases (added.tombstones _).mp marked with old | ⟨replaced, _⟩
        · exact absurd (mirrors.ready.marked _ old) (lt_irrefl _)
        · exact absurd (mirrors.lt_nextID replaced) (lt_irrefl _)
      · refine ⟨vec, metadata, ver, data, ?_, encoded, ?_⟩
        · rw [added.labels, if_pos rfl]
        · rw [KVStore.put, getPut, if_pos rfl]
    rename_i different
    rcases mirrors.indexed other n indexed with
      ⟨live, vec', metadata', ver', data', labelled, encoded', found⟩
    have notNew : col.nextID ≠ n := (mirrors.lt_nextID indexed).ne'
    constructor
    · intro marked
      rcases (added.tombstones _).mp marked with old | ⟨replaced, _⟩
      · exact live old
      -- The replaced node carries `id`.
      rcases mirrors.indexed id n replaced with ⟨_, _, _, _, _, labelled', _⟩
      rw [labelled] at labelled'
      cases labelled'
      exact different rfl
    · refine ⟨vec', metadata', ver', data', ?_, encoded', ?_⟩
      · rw [added.labels, if_neg notNew, labelled]
      · rw [KVStore.put, getPut, if_neg different, found]
  · intro other data' isSixteen found
    rw [added.ids, mem_insert_key]
    rw [KVStore.put, getPut] at found
    split at found
    · rename_i same
      exact .inl same
    · exact .inr (mirrors.stored other data' isSixteen found)
  · intro n other vec' labelled live
    rw [idsOf]
    have present := Graph.mem_nodes_of_label labelled
    rw [added.labels] at labelled
    split at labelled
    · rename_i new
      cases labelled
      rw [if_pos rfl, new]
    have oldLive : n ∉ col.graph.tombstones := fun old => live ((added.tombstones n).mpr (.inl old))
    have indexed := mirrors.sole n other vec' labelled oldLive
    rw [if_neg, indexed]
    rintro rfl
    exact live ((added.tombstones n).mpr (.inr ⟨indexed, present⟩))
  · intro n other vec' m labelled indexed
    rw [idsOf] at indexed
    split at indexed
    · cases indexed
      have below := added.ready.fresh n (Graph.mem_nodes_of_label labelled)
      rw [added.nextID] at below
      exact Nat.lt_succ_iff.mp below
    rename_i different
    rw [added.labels] at labelled
    split at labelled
    · cases labelled
      exact absurd rfl different
    · exact mirrors.latest n other vec' m labelled indexed

/-- Only an identifier that is indexed is deleted. -/
theorem Mirrors.delete (mirrors : col.Mirrors name kv) (id : ExternalID) :
    Mirrors name { col with graph := col.unlink id col.graph, ids := col.ids.erase id }
      (kv.delete (makeVectorKey name id)) := by
  have getDelete := fun other => kv.get_write_vectorKey name id other none
  have idsOf (other : ExternalID) :
      (col.ids.erase id)[other]? = if id = other then none else col.ids[other]? := getElem?_erase_if
  constructor
  · exact { mirrors.ready.unlink id with }
  · intro n other vec labelled
    exact mirrors.sized n other vec ((label_unlink id col.graph n).symm.trans labelled)
  · intro other n indexed
    rw [idsOf] at indexed
    split at indexed
    · cases indexed
    rename_i different
    rcases mirrors.indexed other n indexed with
      ⟨live, vec, metadata, ver, data, labelled, encoded, found⟩
    constructor
    · intro marked
      rcases mem_tombstones_unlink.mp marked with old | ⟨removed, _⟩
      · exact live old
      rcases mirrors.indexed id n removed with ⟨_, _, _, _, _, labelled', _⟩
      rw [labelled] at labelled'
      cases labelled'
      exact different rfl
    · refine ⟨vec, metadata, ver, data, ?_, encoded, ?_⟩
      · exact (label_unlink id col.graph n).trans labelled
      · rw [KVStore.delete, getDelete, if_neg different, found]
  · intro other data sixteen found
    rw [KVStore.delete, getDelete] at found
    split at found
    · cases found
    rename_i different
    exact mem_erase_key.mpr ⟨different, mirrors.stored other data sixteen found⟩
  · intro n other vec labelled live
    rw [label_unlink] at labelled
    have oldLive : n ∉ col.graph.tombstones := fun old =>
      live (mem_tombstones_unlink.mpr (.inl old))
    have indexed := mirrors.sole n other vec labelled oldLive
    rw [idsOf, if_neg, indexed]
    rintro rfl
    exact live (mem_tombstones_unlink.mpr (.inr ⟨indexed, Graph.mem_nodes_of_label labelled⟩))
  · intro n other vec m labelled indexed
    rw [label_unlink] at labelled
    rw [idsOf] at indexed
    split at indexed
    · cases indexed
    · exact mirrors.latest n other vec m labelled indexed

end Collection

end Theseon.Vector
