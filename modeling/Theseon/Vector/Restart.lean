import Theseon.Lib.Maximum
import Theseon.Vector.Scan

/-!
# Restart from a snapshot

A snapshot forgets which nodes have been deleted.  When it is restored, the deleted
nodes of an identifier are live again, and only the last of them is known to the map of
identifiers.  So an identifier that has been written several times before the snapshot
is carried by several live nodes after the restart, with its old vectors.
-/

namespace Theseon.Vector

open Lib Hnsw List
open Std (ExtTreeMap ExtTreeSet)

/-- The node carries the identifier. -/
def Carries (g : Graph) (n : Nat) (id : ExternalID) : Prop :=
  ∃ vec, g.label n = some (id, vec)

/-- The recovered index has the identifiers of the rebuilt one, and each of them is
carried by exactly one live node, with the stored vector. -/
structure Equivalent (name : Bytes) (kv : KVStore) (rebuilt recovered : Collection) : Prop where
  sameIDs : ∀ id, id ∈ recovered.ids ↔ id ∈ rebuilt.ids
  carried : ∀ id ∈ recovered.ids, ∃ n, n ∉ recovered.graph.tombstones ∧
    (∀ other, Carries recovered.graph other id → other ∉ recovered.graph.tombstones → other = n) ∧
    ∃ data record, kv.get (makeVectorKey name id) = some (some data) ∧
      decodeVector data = .ok record ∧ recovered.graph.label n = some (id, record.vector)

/-- At most one live node carries the identifier. -/
def SoleCarrier (col : Collection) (id : ExternalID) (n : Nat) : Prop :=
  n ∉ col.graph.tombstones ∧
    ∀ other, Carries col.graph other id → other ∉ col.graph.tombstones → other = n

/-- Every stored identifier has at most one node in the graph, and none if its entry
cannot be decoded. -/
def SingleNodes (name : Bytes) (kv : KVStore) (g : Graph) : Prop :=
  ∀ (id : ExternalID) (data : Bytes), id.length = 16 →
    kv.get (makeVectorKey name id) = some (some data) →
    (∀ n m, Carries g n id → Carries g m id → n = m) ∧
      ((∃ n, Carries g n id) → ∃ record, decodeVector data = .ok record)

/-! ## The nodes of a snapshot -/

section Load

variable {nodes : List Node} {ids : ExtTreeMap ExternalID Nat} {id : ExternalID} {n : Nat}

/-- The number that an identifier has after the nodes have been taken over is that of
its last node. -/
theorem loadedIDs_eq_some
    (ascending : nodes.Pairwise fun first second => first.id < second.id)
    (indexed : (nodes.foldl (fun ids node => ids.insert node.externalID node.id) ids)[id]? =
      some n) :
    (∃ node ∈ nodes, node.externalID = id ∧ node.id = n ∧
      ∀ other ∈ nodes, other.externalID = id → other.id ≤ n) ∨
    (ids[id]? = some n ∧ ∀ node ∈ nodes, node.externalID ≠ id) := by
  induction nodes generalizing ids with
  | nil => exact .inr ⟨indexed, forall_mem_nil _⟩
  | cons first nodes ih =>
    rcases pairwise_cons.mp ascending with ⟨below, rest⟩
    rcases ih rest indexed with
      ⟨node, mem, isID, isNumber, greatest⟩ | ⟨old, others⟩
    · refine .inl ⟨node, mem_cons_of_mem _ mem, isID, isNumber, ?_⟩
      intro other otherMem sameID
      rcases mem_cons.mp otherMem with rfl | later
      · exact isNumber ▸ (below node mem).le
      · exact greatest other later sameID
    rw [getElem?_insert_if] at old
    split at old
    · rename_i same
      cases old
      refine .inl ⟨first, mem_cons_self, same, rfl, ?_⟩
      intro other otherMem sameID
      rcases mem_cons.mp otherMem with rfl | later
      · exact le_rfl
      · exact absurd sameID (others other later)
    rename_i different
    exact .inr ⟨old, forall_mem_cons.mpr ⟨different, others⟩⟩

theorem mem_loadedIDs :
    id ∈ nodes.foldl (fun ids node => ids.insert node.externalID node.id) ids ↔
      id ∈ ids ∨ ∃ node ∈ nodes, node.externalID = id := by
  induction nodes generalizing ids with
  | nil => simp
  | cons first nodes ih =>
    rw [foldl_cons, ih, mem_insert_key, exists_mem_cons_iff, or_assoc, or_left_comm]

/-- The next number is above those of the nodes. -/
theorem lt_loadedNextID {node : Node} (mem : node ∈ nodes) (start : Nat) :
    node.id <
      nodes.foldl (fun next node => if next ≤ node.id then node.id + 1 else next) start := by
  have isMax : nodes.foldl (fun next node => if next ≤ node.id then node.id + 1 else next) start =
      (nodes.map fun node => node.id + 1).foldl max start := by
    rw [foldl_map]
    congr 1
    funext next node
    split
    · rename_i le
      exact (max_eq_right (le.trans (Nat.le_succ _))).symm
    · rename_i above
      exact (max_eq_left (Nat.succ_le_of_lt (not_le.mp above))).symm
  have numberMem : node.id + 1 ∈ nodes.map fun node => node.id + 1 := mem_map_of_mem mem
  rw [isMax]
  exact le_foldl_max numberMem start

end Load

/-- The state in which the nodes of a snapshot have been taken over. -/
structure Loaded (g : Graph) (fresh start : Collection) : Prop where
  ready : start.Ready
  config : start.config = fresh.config
  labels : ∀ n, start.graph.label n = g.label n
  unmarked : ∀ n, n ∉ start.graph.tombstones
  last : ∀ (id : ExternalID) (n : Nat), start.ids[id]? = some n →
    Carries g n id ∧ ∀ m, Carries g m id → m ≤ n
  all : ∀ n id, Carries g n id → id ∈ start.ids

variable {id : ExternalID}

theorem carries_iff {g : Graph} {n : Nat} :
    Carries g n id ↔ ∃ node : Node, g.nodes[n]? = some node ∧ node.externalID = id := by
  constructor
  · rintro ⟨vec, labelled⟩
    rcases Option.map_eq_some_iff.mp labelled with ⟨node, found, isLabel⟩
    exact ⟨node, found, (Prod.mk.inj isLabel).1⟩
  · rintro ⟨node, found, rfl⟩
    refine ⟨node.vector, ?_⟩
    rw [Graph.label, found]
    rfl

theorem loaded_of_snapshot {g graph : Graph} {fresh : Collection} {data : SnapshotData} {seq : Nat}
    {metric : UInt8} (wf : g.WellFormed) (fits : g.FitsSnapshot) (freshReady : fresh.Ready)
    (noIDs : fresh.ids = ∅) (written : g.writeSnapshot seq metric = .ok data)
    (restored : fresh.graph.restoreFromSnapshot data = .ok graph) :
    Loaded g fresh (fresh.loadNodes graph data.nodes) ∧ g.opts.dim = fresh.config.dim := by
  have restores := wf.restores fits written restored
  have isNodes : data.nodes = g.nodes.toList.map Prod.snd := by
    rw [fits.written written]
  have listed {n : Nat} {node : Node} :
      g.nodes[n]? = some node ↔ node ∈ data.nodes ∧ node.id = n := by
    rw [isNodes, mem_values_iff wf.keyed]
    constructor
    · intro found
      have isNumber := wf.named n node found
      exact ⟨isNumber.symm ▸ found, isNumber⟩
    · rintro ⟨found, rfl⟩
      exact found
  have unmarked (n : Nat) : n ∉ graph.tombstones := by
    rw [restores.tombstones]
    exact ExtTreeSet.not_mem_empty
  have ascending : data.nodes.Pairwise fun first second => first.id < second.id := by
    rw [isNodes]
    exact wf.keyed.pairwise_values.imp Nat.compare_eq_lt.mp
  constructor
  · constructor
    · constructor
      · exact restores.wellFormed wf freshReady.wf
      · exact restores.opts.trans freshReady.options
      · exact freshReady.distance
      · intro n mem
        have inGraph : n ∈ graph.nodes := mem
        rw [restores.nodes] at inGraph
        rcases mem_iff_get?.mp inGraph with ⟨node, found⟩
        rcases listed.mp found with ⟨isListed, rfl⟩
        exact lt_loadedNextID isListed _
      · exact fun n marked => absurd marked (unmarked n)
    · rfl
    · intro n
      change graph.label n = g.label n
      rw [Graph.label, restores.nodes, Graph.label]
    · exact unmarked
    · intro id n indexed
      rcases loadedIDs_eq_some ascending indexed with
        ⟨node, mem, isID, isNumber, greatest⟩ | ⟨old, _⟩
      · refine ⟨carries_iff.mpr ⟨node, listed.mpr ⟨mem, isNumber⟩, isID⟩, ?_⟩
        intro m isCarried
        rcases carries_iff.mp isCarried with ⟨other, found, sameID⟩
        rcases listed.mp found with ⟨otherMem, rfl⟩
        exact greatest other otherMem sameID
      · rw [noIDs] at old
        cases old
    · intro n id isCarried
      rcases carries_iff.mp isCarried with ⟨node, found, isID⟩
      exact mem_loadedIDs.mpr (.inr ⟨node, (listed.mp found).1, isID⟩)
  · rw [← restores.dim, freshReady.options]
    rfl

/-! ## Reconciling and rebuilding -/

/-- What an entry asks for when everything is rebuilt. -/
def rebuildActionOf : Nat × Option Bytes → Action
  | (_, none) => .keep
  | (_, some data) =>
    match decodeVector data with
    | .error _ => .keep
    | .ok record => .replace record.vector

section

variable {D K : Type} [LinearOrder K] {metric : Distance → Metric D K} {level : ExternalID → Nat}
  {name : Bytes} {kv : KVStore} {fresh start : Collection}

/-- The vectors that are replaced have the dimension of the collection. -/
def Fitting (name : Bytes) (kv : KVStore) (dim : Nat) : Prop :=
  ∀ (id : ExternalID) (data : Bytes) (record : VectorRecord), id.length = 16 →
    kv.get (makeVectorKey name id) = some (some data) → decodeVector data = .ok record →
    record.vector.length = dim

theorem get_of_mem_vectorEntries (owned : kv.Owned) (short : name.length < 2 ^ 16) {seq : Nat}
    {value : Option Bytes}
    (mem : (id, (seq, value)) ∈ kv.vectorEntries name) :
    id.length = 16 ∧ kv.get (makeVectorKey name id) = some value := by
  rcases (KVStore.mem_vectorEntries_iff owned short).mp mem with ⟨sixteen, found⟩
  rw [KVStore.get, found]
  exact ⟨sixteen, rfl⟩

theorem decoded_of_rebuildActionOf {value : Nat × Option Bytes} {vec : Vec}
    (isReplace : rebuildActionOf value = .replace vec) :
    ∃ data record, value.2 = some data ∧ decodeVector data = .ok record ∧ record.vector = vec := by
  rcases value with ⟨seq, _ | data⟩
  · cases isReplace
  rw [rebuildActionOf] at isReplace
  split at isReplace
  · cases isReplace
  rename_i record decoded
  cases isReplace
  exact ⟨data, record, rfl, decoded, rfl⟩

/-- The vectors of actions that are those of a rebuild fit the collection. -/
theorem Fitting.length_of_replace {dim : Nat} (fitting : Fitting name kv dim) (owned : kv.Owned)
    (short : name.length < 2 ^ 16) {toAction : Nat × Option Bytes → Action}
    (isRebuild : ∀ value vec, toAction value = .replace vec → rebuildActionOf value = .replace vec)
    (id : ExternalID) (vec : Vec) (mem : (id, .replace vec) ∈
      (kv.vectorEntries name).map fun entry => (entry.1, toAction entry.2)) : vec.length = dim := by
  rcases mem_map.mp mem with ⟨⟨id', seq, value⟩, inEntries, isAction⟩
  rcases Prod.mk.inj isAction with ⟨rfl, isReplace⟩
  rcases decoded_of_rebuildActionOf (isRebuild _ vec isReplace) with
    ⟨data, record, rfl, decoded, rfl⟩
  rcases get_of_mem_vectorEntries owned short inEntries with ⟨sixteen, found⟩
  exact fitting _ data record sixteen found decoded

def rebuildActions (name : Bytes) (kv : KVStore) : List (ExternalID × Action) :=
  (kv.vectorEntries name).map fun entry => (entry.1, rebuildActionOf entry.2)

/-- Rebuilding indexes the live entries that can be decoded. -/
theorem fullRebuild_spec (owned : kv.Owned) (short : name.length < 2 ^ 16) (ready : fresh.Ready)
    (noIDs : fresh.ids = ∅) (fitting : Fitting name kv fresh.config.dim) :
    ∃ rebuilt, fresh.fullRebuild metric level name kv = some rebuilt ∧
      ∀ id, id ∈ rebuilt.ids ↔ id.length = 16 ∧ ∃ data record,
        kv.get (makeVectorKey name id) = some (some data) ∧ decodeVector data = .ok record := by
  have unindexed (id : ExternalID) : fresh.ids[id]? = none := by
    rw [noIDs]
    rfl
  have pointed : fresh.Pointed := by
    intro id n indexed
    cases (unindexed id).symm.trans indexed
  have agrees (done : List (ExternalID × Action)) (col : Collection)
      (entry : ExternalID × (Nat × Option Bytes)) (acted : Collection.Acted fresh done col)
      (new : entry.1 ∉ done.map Prod.fst) : col.rebuildEntry metric level entry =
        col.act metric level (entry.1, rebuildActionOf entry.2) := by
    rcases entry with ⟨id, seq, _ | data⟩
    · rfl
    rw [Collection.rebuildEntry, rebuildActionOf]
    cases decodeVector data with
    | error err => rfl
    | ok record =>
      have absent : col.ids[id]? = none :=
        (acted.kept id fun _ mem => absurd (mem_map_of_mem mem) new).trans (unindexed id)
      dsimp only [Collection.act]
      rw [Collection.unlink, absent]
  have once : ((rebuildActions name kv).map Prod.fst).Nodup := by
    rw [rebuildActions, map_map]
    exact KVStore.nodup_vectorEntries owned short
  rcases Collection.Acted.foldlM ready pointed agrees (Collection.acted_nil ready) once
    (fitting.length_of_replace owned short fun _ _ => id) with ⟨rebuilt, ran, acted⟩
  have acted : Collection.Acted fresh (rebuildActions name kv) rebuilt := acted
  refine ⟨rebuilt, ran, fun id => ?_⟩
  constructor
  · intro mem
    by_contra notStored
    -- All actions on such an identifier are `keep`, so it is not indexed.
    have allKeep : ∀ action, (id, action) ∈ rebuildActions name kv → action = .keep := by
      intro action actionMem
      rcases mem_map.mp actionMem with ⟨⟨id', seq, value⟩, inEntries, isAction⟩
      rcases Prod.mk.inj isAction with ⟨rfl, rfl⟩
      rcases get_of_mem_vectorEntries owned short inEntries with ⟨sixteen, found⟩
      cases value with
      | none => rfl
      | some data =>
        rw [rebuildActionOf]
        split
        · rfl
        · rename_i record decoded
          exact absurd ⟨sixteen, data, record, found, decoded⟩ notStored
    rcases mem_iff_get?.mp mem with ⟨n, indexed⟩
    rw [acted.kept id allKeep, unindexed] at indexed
    cases indexed
  · rintro ⟨sixteen, data, record, found, decoded⟩
    rcases Option.map_eq_some_iff.mp found with ⟨⟨seq, value⟩, inMap, rfl⟩
    have inEntries := (KVStore.mem_vectorEntries_iff owned short).mpr ⟨sixteen, inMap⟩
    have isAction : rebuildActionOf (seq, some data) = .replace record.vector := by
      rw [rebuildActionOf, decoded]
    rcases acted.replaced id record.vector (mem_map.mpr
      ⟨_, inEntries, by rw [isAction]⟩) with ⟨n, _, indexed, _⟩
    exact mem_iff_get?.mpr ⟨n, indexed⟩

/-- The identifiers that are left when some have been seen. -/
theorem mem_unseen {entries : List (ExternalID × (Nat × Option Bytes))}
    {ids : ExtTreeMap ExternalID Nat} :
    id ∈ entries.foldl (fun unseen entry => unseen.erase entry.1) ids ↔
      id ∈ ids ∧ id ∉ entries.map Prod.fst := by
  induction entries generalizing ids with
  | nil => simp
  | cons entry entries ih =>
    rw [foldl_cons, ih, mem_erase_key, map_cons, mem_cons, not_or, ← and_assoc,
      and_comm (a := entry.1 ≠ id), ne_comm]

/-- What is done to the identifiers of a snapshot. -/
def reconcileActions (name : Bytes) (snapSeq : Nat) (kv : KVStore) (start : Collection) :
    List (ExternalID × Action) :=
  (kv.vectorEntries name).map (fun entry => (entry.1, actionOf snapSeq entry.2)) ++
    ((kv.vectorEntries name).foldl (fun unseen entry => unseen.erase entry.1) start.ids).keys.map
      fun id => (id, .drop)

theorem replace_of_actionOf {snapSeq : Nat} {value : Nat × Option Bytes} {vec : Vec}
    (isReplace : actionOf snapSeq value = .replace vec) : rebuildActionOf value = .replace vec := by
  rcases value with ⟨seq, _ | data⟩
  · cases isReplace
  rw [actionOf] at isReplace
  split at isReplace
  · cases isReplace
  · exact isReplace

theorem nodup_reconcileActions (owned : kv.Owned) (short : name.length < 2 ^ 16)
    (snapSeq : Nat) (start : Collection) :
    ((reconcileActions name snapSeq kv start).map Prod.fst).Nodup := by
  have first : ((kv.vectorEntries name).map fun entry => (entry.1, actionOf snapSeq entry.2)).map
      Prod.fst = (kv.vectorEntries name).map Prod.fst := by
    rw [map_map]
    rfl
  have second (keys : List ExternalID) : (keys.map fun id => (id, Action.drop)).map Prod.fst =
      keys := by
    rw [map_map]
    exact map_id keys
  rw [reconcileActions, map_append, first, second, nodup_append]
  refine ⟨KVStore.nodup_vectorEntries owned short, ExtTreeMap.nodup_keys, ?_⟩
  rintro id seen _ unseen rfl
  exact (mem_unseen.mp (ExtTreeMap.mem_keys.mp unseen)).2 seen

/-- Recovery from a snapshot deals with every identifier once. -/
theorem loadFromSnapshot_spec {graph : Graph} {data : SnapshotData} {snapSeq : Nat}
    (restored : fresh.graph.restoreFromSnapshot data = .ok graph)
    (isStart : start = fresh.loadNodes graph data.nodes) (ready : start.Ready)
    (pointed : start.Pointed) (owned : kv.Owned) (short : name.length < 2 ^ 16)
    (fitting : Fitting name kv start.config.dim) :
    ∃ recovered, fresh.loadFromSnapshot metric level name snapSeq data kv = some (.ok recovered) ∧
      Collection.Acted start (reconcileActions name snapSeq kv start) recovered := by
  have once := nodup_reconcileActions owned short snapSeq start
  have firstOnce := once
  rw [reconcileActions, map_append] at firstOnce
  rcases @Collection.Acted.foldlM start start D K _ metric level _
    (Collection.reconcileEntry metric level snapSeq) _ ready pointed
    (fun _ col entry _ _ => Collection.reconcileEntry_eq metric level snapSeq col entry) []
    (kv.vectorEntries name) (Collection.acted_nil ready) firstOnce.of_append_left
    (fitting.length_of_replace owned short fun _ _ => replace_of_actionOf) with
    ⟨reconciled, ran, acted⟩
  rcases @Collection.Acted.foldlM start reconciled D K _ metric level _
    (fun col id => some (col.forget id)) (fun id => (id, .drop)) ready pointed
    (fun _ _ _ _ _ => rfl) _ _ acted once (by
      intro id vec mem
      rcases mem_map.mp mem with ⟨_, _, isAction⟩
      cases isAction) with ⟨recovered, ranDrops, recoveredActed⟩
  refine ⟨recovered, ?_, recoveredActed⟩
  have dropped : ((kv.vectorEntries name).foldl (fun unseen entry => unseen.erase entry.1)
      start.ids).keys.foldl Collection.forget reconciled = recovered := by
    have folded := foldlM_pure (m := Option) (f := Collection.forget) (b := reconciled)
      (l := ((kv.vectorEntries name).foldl (fun unseen entry => unseen.erase entry.1)
        start.ids).keys)
    exact Option.some.inj (folded.symm.trans ranDrops)
  rw [Collection.loadFromSnapshot, restored]
  dsimp only
  rw [← isStart, ran, Option.map_some, dropped]

end

/-! ## Which nodes are live after the restart -/

section

variable {name : Bytes} {kv : KVStore} {g : Graph} {fresh start recovered : Collection}
  {done : List (ExternalID × Action)} {id : ExternalID} {action : Action} {n : Nat}

section

variable (loaded : Loaded g fresh start)

include loaded

theorem Loaded.pointed : start.Pointed := by
  intro id n indexed
  rcases (loaded.last id n indexed).1 with ⟨vec, labelled⟩
  exact ⟨vec, (loaded.labels n).trans labelled⟩

theorem Loaded.lt_nextID (carried : Carries g n id) : n < start.nextID := by
  rcases carried with ⟨vec, labelled⟩
  rw [← loaded.labels] at labelled
  exact loaded.ready.fresh n (Graph.mem_nodes_of_label labelled)

/-- A node of the snapshot is live unless it is the last one of an identifier that is
dropped or replaced. -/
theorem Loaded.live_iff (acted : Collection.Acted start done recovered)
    (once : (done.map Prod.fst).Nodup) (mem : (id, action) ∈ done) (carried : Carries g n id) :
    n ∉ recovered.graph.tombstones ↔ action = .keep ∨ start.ids[id]? ≠ some n := by
  rw [acted.marked, not_or]
  constructor
  · rintro ⟨_, notMarked⟩
    by_cases isKeep : action = .keep
    · exact .inl isKeep
    · exact .inr fun indexed => notMarked ⟨id, action, mem, isKeep, indexed⟩
  · intro spared
    refine ⟨loaded.unmarked n, ?_⟩
    rintro ⟨other, action', mem', notKeep, indexed⟩
    -- A node carries one identifier, and there is one action for it.
    rcases (loaded.last other n indexed).1 with ⟨vec, labelled⟩
    rcases carried with ⟨vec', labelled'⟩
    cases labelled.symm.trans labelled'
    cases inj_on_of_nodup_map once mem mem' rfl
    rcases spared with isKeep | notLast
    · exact notKeep isKeep
    · exact notLast indexed

theorem Loaded.carries_old (acted : Collection.Acted start done recovered)
    (below : n < start.nextID) : Carries recovered.graph n id ↔ Carries g n id := by
  rw [Carries, Carries, acted.old n below, loaded.labels]

theorem Loaded.live_new (acted : Collection.Acted start done recovered) (above : start.nextID ≤ n) :
    n ∉ recovered.graph.tombstones := by
  rw [acted.marked]
  rintro (old | ⟨other, _, _, _, indexed⟩)
  · exact loaded.unmarked n old
  · exact absurd (loaded.lt_nextID (loaded.last other n indexed).1) (not_lt_of_ge above)

end

/-- The new nodes of an identifier are those of its replacement. -/
theorem action_of_new (acted : Collection.Acted start done recovered)
    (once : (done.map Prod.fst).Nodup) (mem : (id, action) ∈ done) (above : start.nextID ≤ n)
    (carried : Carries recovered.graph n id) :
    recovered.ids[id]? = some n ∧ ∃ vec, action = .replace vec := by
  rcases carried with ⟨vec, labelled⟩
  rcases acted.fresh n id vec above labelled with ⟨indexed, replaced⟩
  cases inj_on_of_nodup_map once mem replaced rfl
  exact ⟨indexed, vec, rfl⟩

section

variable (loaded : Loaded g fresh start) (acted : Collection.Acted start done recovered)
  (once : (done.map Prod.fst).Nodup)

include loaded acted once

/-- An identifier that is kept is carried by the nodes of the snapshot. -/
theorem Loaded.unique_of_keep (mem : (id, .keep) ∈ done) :
    (∃ n, SoleCarrier recovered id n) ↔ ∀ n m, Carries g n id → Carries g m id → n = m := by
  have isLive {m : Nat} (carried : Carries g m id) : Carries recovered.graph m id ∧
      m ∉ recovered.graph.tombstones :=
    ⟨(loaded.carries_old acted (loaded.lt_nextID carried)).mpr carried,
      (loaded.live_iff acted once mem carried).mpr (.inl rfl)⟩
  have isOld {m : Nat} (carried : Carries recovered.graph m id) : Carries g m id := by
    by_cases below : m < start.nextID
    · exact (loaded.carries_old acted below).mp carried
    · rcases action_of_new acted once mem (not_lt.mp below) carried with ⟨_, _, isReplace⟩
      cases isReplace
  constructor
  · rintro ⟨sole, _, unique⟩ n m carried carried'
    have first := unique n (isLive carried).1 (isLive carried).2
    exact first.trans (unique m (isLive carried').1 (isLive carried').2).symm
  · intro single
    by_cases some : ∃ n, Carries g n id
    · rcases some with ⟨n, carried⟩
      exact ⟨n, (isLive carried).2, fun other isOther _ => single other n (isOld isOther) carried⟩
    -- No node carries the identifier; any number that is not marked will do.
    · exact ⟨start.nextID, loaded.live_new acted le_rfl,
        fun other isOther _ => absurd ⟨other, isOld isOther⟩ some⟩

/-- An identifier that is replaced is carried by its new node and by all nodes of the
snapshot but the last. -/
theorem Loaded.unique_of_replace {vec : Vec} (mem : (id, .replace vec) ∈ done) :
    (∃ n, SoleCarrier recovered id n) ↔ ∀ n m, Carries g n id → Carries g m id → n = m := by
  rcases acted.replaced id vec mem with ⟨new, above, indexed, labelled⟩
  have oldLive {m : Nat} (carried : Carries g m id) (notLast : start.ids[id]? ≠ some m) :
      Carries recovered.graph m id ∧ m ∉ recovered.graph.tombstones :=
    ⟨(loaded.carries_old acted (loaded.lt_nextID carried)).mpr carried,
      (loaded.live_iff acted once mem carried).mpr (.inr notLast)⟩
  constructor
  · rintro ⟨sole, _, unique⟩
    have isNew := unique new ⟨vec, labelled⟩ (loaded.live_new acted above)
    have isLast {m : Nat} (carried : Carries g m id) : start.ids[id]? = some m := by
      by_contra notLast
      have same := unique m (oldLive carried notLast).1 (oldLive carried notLast).2
      rw [isNew.symm] at same
      exact absurd (same ▸ loaded.lt_nextID carried) (not_lt_of_ge above)
    intro n m carried carried'
    exact Option.some.inj ((isLast carried).symm.trans (isLast carried'))
  · intro single
    refine ⟨new, loaded.live_new acted above, fun other otherCarried live => ?_⟩
    by_cases below : other < start.nextID
    · have carried := (loaded.carries_old acted below).mp otherCarried
      rcases mem_iff_get?.mp (loaded.all other id carried) with ⟨last, isLast⟩
      rw [single last other (loaded.last id last isLast).1 carried] at isLast
      rcases (loaded.live_iff acted once mem carried).mp live with isKeep | notLast
      · cases isKeep
      · exact absurd isLast notLast
    · have isOther := (action_of_new acted once mem (not_lt.mp below) otherCarried).1
      exact Option.some.inj (isOther.symm.trans indexed)

theorem Loaded.unique_iff (mem : (id, action) ∈ done) (notDrop : action ≠ .drop) :
    (∃ n, SoleCarrier recovered id n) ↔ ∀ n m, Carries g n id → Carries g m id → n = m := by
  cases action with
  | keep => exact loaded.unique_of_keep acted once mem
  | drop => exact absurd rfl notDrop
  | replace vec => exact loaded.unique_of_replace acted once mem

end

end

/-! ## Reconciled entries -/

section

variable {name : Bytes} {kv : KVStore} {g : Graph} {fresh start recovered : Collection}
  {snapSeq seq : Nat} {id : ExternalID} {data : Bytes} {record : VectorRecord}

theorem actionOf_ne_drop : actionOf snapSeq (seq, some data) ≠ .drop := by
  rw [actionOf]
  split
  · exact Action.noConfusion
  split
  · exact Action.noConfusion
  · exact Action.noConfusion

theorem actionOf_of_decoded (decoded : decodeVector data = .ok record) :
    actionOf snapSeq (seq, some data) =
      if seq ≤ snapSeq then .keep else .replace record.vector := by
  rw [actionOf, decoded]

theorem actionOf_of_not_decoded (undecoded : ¬ ∃ record, decodeVector data = .ok record) :
    actionOf snapSeq (seq, some data) = .keep := by
  rw [actionOf]
  split
  · rfl
  split
  · rfl
  · rename_i record decoded
    exact absurd ⟨record, decoded⟩ undecoded

theorem mem_reconcileActions (owned : kv.Owned) (short : name.length < 2 ^ 16)
    (sixteen : id.length = 16) {value : Nat × Option Bytes}
    (stored : kv.entries[makeVectorKey name id]? = some value) :
    (id, actionOf snapSeq value) ∈ reconcileActions name snapSeq kv start := by
  apply mem_append_left
  have inEntries := (KVStore.mem_vectorEntries_iff owned short).mpr ⟨sixteen, stored⟩
  exact mem_map.mpr ⟨_, inEntries, rfl⟩

/-- Only identifiers with a live entry are left. -/
theorem stored_of_mem_recovered
    (acted : Collection.Acted start (reconcileActions name snapSeq kv start) recovered)
    (owned : kv.Owned) (short : name.length < 2 ^ 16) (mem : id ∈ recovered.ids) :
    id.length = 16 ∧ ∃ seq data, kv.entries[makeVectorKey name id]? = some (seq, some data) := by
  rcases mem_iff_get?.mp mem with ⟨n, indexed⟩
  have notDropped (dropped : (id, .drop) ∈ reconcileActions name snapSeq kv start) : False := by
    cases (acted.dropped id dropped).symm.trans indexed
  by_cases seen : id ∈ (kv.vectorEntries name).map Prod.fst
  · rcases mem_map.mp seen with ⟨⟨id', seq, value⟩, inEntries, rfl⟩
    rcases (KVStore.mem_vectorEntries_iff owned short).mp inEntries with ⟨sixteen, stored⟩
    refine ⟨sixteen, seq, ?_⟩
    cases value with
    | none => exact absurd (mem_reconcileActions owned short sixteen stored) notDropped
    | some data => exact ⟨data, stored⟩
  exfalso
  by_cases known : id ∈ start.ids
  · apply notDropped
    apply mem_append_right
    exact mem_map.mpr ⟨id, ExtTreeMap.mem_keys.mpr (mem_unseen.mpr ⟨known, seen⟩), rfl⟩
  -- Nothing is done to an identifier that neither the snapshot nor the store knows.
  have untouched : recovered.ids[id]? = start.ids[id]? := by
    apply acted.kept id
    intro action actionMem
    rcases mem_append.mp actionMem with inEntries | inUnseen
    · rcases mem_map.mp inEntries with ⟨entry, entryMem, isAction⟩
      cases isAction
      exact absurd (mem_map_of_mem entryMem) seen
    rcases mem_map.mp inUnseen with ⟨other, otherMem, isAction⟩
    cases isAction
    exact absurd (mem_unseen.mp (ExtTreeMap.mem_keys.mp otherMem)).1 known
  exact known (mem_iff_get?.mpr ⟨n, untouched.symm.trans indexed⟩)

/-- The entries that are not newer than the snapshot have their vectors in it. -/
def Covers (name : Bytes) (kv : KVStore) (snapSeq : Nat) (g : Graph) : Prop :=
  ∀ (id : ExternalID) (seq : Nat) (data : Bytes) (record : VectorRecord), id.length = 16 →
    kv.entries[makeVectorKey name id]? = some (seq, some data) → seq ≤ snapSeq →
    decodeVector data = .ok record → ∃ n, g.label n = some (id, record.vector)

section

variable (loaded : Loaded g fresh start)
  (acted : Collection.Acted start (reconcileActions name snapSeq kv start) recovered)
  (owned : kv.Owned) (short : name.length < 2 ^ 16)

include loaded acted owned short

/-- An entry that can be decoded is indexed, and a live node carries its vector. -/
theorem Loaded.indexed_of_decoded (covers : Covers name kv snapSeq g) (sixteen : id.length = 16)
    (stored : kv.entries[makeVectorKey name id]? = some (seq, some data))
    (decoded : decodeVector data = .ok record) :
    id ∈ recovered.ids ∧ ∃ n, recovered.graph.label n = some (id, record.vector) ∧
      n ∉ recovered.graph.tombstones := by
  have once := nodup_reconcileActions owned short snapSeq start
  have mem := @mem_reconcileActions name kv start snapSeq id owned short sixteen _ stored
  rw [actionOf_of_decoded decoded] at mem
  split at mem
  · rename_i old
    rcases covers id seq data record sixteen stored old decoded with ⟨n, labelled⟩
    have carried : Carries g n id := ⟨_, labelled⟩
    constructor
    · have isKept := acted.kept id fun action actionMem =>
        congrArg Prod.snd (inj_on_of_nodup_map once actionMem mem rfl)
      rcases mem_iff_get?.mp (loaded.all n id carried) with ⟨last, indexed⟩
      exact mem_iff_get?.mpr ⟨last, isKept.trans indexed⟩
    · refine ⟨n, ?_, (loaded.live_iff acted once mem carried).mpr (.inl rfl)⟩
      rw [acted.old n (loaded.lt_nextID carried), loaded.labels, labelled]
  · rcases acted.replaced id record.vector mem with ⟨n, above, indexed, labelled⟩
    exact ⟨mem_iff_get?.mpr ⟨n, indexed⟩, n, labelled, loaded.live_new acted above⟩

/-- An entry that cannot be decoded is indexed if the snapshot has a node of it. -/
theorem Loaded.indexed_of_not_decoded (sixteen : id.length = 16)
    (stored : kv.entries[makeVectorKey name id]? = some (seq, some data))
    (undecoded : ¬ ∃ record, decodeVector data = .ok record) :
    id ∈ recovered.ids ↔ ∃ n, Carries g n id := by
  have once := nodup_reconcileActions owned short snapSeq start
  have mem := @mem_reconcileActions name kv start snapSeq id owned short sixteen _ stored
  rw [actionOf_of_not_decoded undecoded] at mem
  have isKept := acted.kept id fun action actionMem =>
    congrArg Prod.snd (inj_on_of_nodup_map once actionMem mem rfl)
  rw [mem_iff_get?, isKept]
  constructor
  · rintro ⟨n, indexed⟩
    exact ⟨n, (loaded.last id n indexed).1⟩
  · rintro ⟨n, carried⟩
    exact mem_iff_get?.mp (loaded.all n id carried)

/-- What is recovered is equivalent to what is rebuilt exactly if the snapshot has single
nodes. -/
theorem Loaded.equivalent_iff (covers : Covers name kv snapSeq g) {rebuilt : Collection}
    (rebuiltIDs : ∀ id, id ∈ rebuilt.ids ↔ id.length = 16 ∧ ∃ data record,
      kv.get (makeVectorKey name id) = some (some data) ∧ decodeVector data = .ok record) :
    Equivalent name kv rebuilt recovered ↔ SingleNodes name kv g := by
  have once := nodup_reconcileActions owned short snapSeq start
  have getOf {id : ExternalID} {seq : Nat} {data : Bytes}
      (stored : kv.entries[makeVectorKey name id]? = some (seq, some data)) :
      kv.get (makeVectorKey name id) = some (some data) := by
    rw [KVStore.get, stored]
    rfl
  constructor
  · intro equivalent id data sixteen isStored
    rcases Option.map_eq_some_iff.mp isStored with ⟨⟨seq, _⟩, stored, rfl⟩
    have mem := @mem_reconcileActions name kv start snapSeq id owned short sixteen _ stored
    by_cases decodable : ∃ record, decodeVector data = .ok record
    · refine ⟨?_, fun _ => decodable⟩
      rcases decodable with ⟨record, decoded⟩
      have indexed := (loaded.indexed_of_decoded acted owned short covers sixteen stored decoded).1
      rcases equivalent.carried id indexed with ⟨n, live, unique, _⟩
      exact (loaded.unique_iff acted once mem actionOf_ne_drop).mp ⟨n, live, unique⟩
    -- Such an identifier is not rebuilt, so the snapshot has no node of it.
    have noNode : ¬ ∃ n, Carries g n id := by
      rw [← loaded.indexed_of_not_decoded acted owned short sixteen stored decodable,
        equivalent.sameIDs, rebuiltIDs]
      rintro ⟨_, data', record, found, decoded⟩
      cases isStored.symm.trans found
      exact decodable ⟨record, decoded⟩
    exact ⟨fun n _ carried _ => absurd ⟨n, carried⟩ noNode, fun carried => absurd carried noNode⟩
  · intro single
    have decodedOf {id : ExternalID} (mem : id ∈ recovered.ids) : id.length = 16 ∧
        ∃ seq data record, kv.entries[makeVectorKey name id]? = some (seq, some data) ∧
          decodeVector data = .ok record := by
      rcases stored_of_mem_recovered acted owned short mem with ⟨sixteen, seq, data, stored⟩
      refine ⟨sixteen, seq, data, ?_⟩
      by_contra undecoded
      have noRecord : ¬ ∃ record, decodeVector data = .ok record := by
        rintro ⟨record, decoded⟩
        exact undecoded ⟨record, stored, decoded⟩
      exact noRecord ((single id data sixteen (getOf stored)).2
        ((loaded.indexed_of_not_decoded acted owned short sixteen stored noRecord).mp mem))
    constructor
    · intro id
      rw [rebuiltIDs]
      constructor
      · intro mem
        rcases decodedOf mem with ⟨sixteen, seq, data, record, stored, decoded⟩
        exact ⟨sixteen, data, record, getOf stored, decoded⟩
      · rintro ⟨sixteen, data, record, found, decoded⟩
        rcases Option.map_eq_some_iff.mp found with ⟨⟨seq, _⟩, stored, rfl⟩
        exact (loaded.indexed_of_decoded acted owned short covers sixteen stored decoded).1
    · intro id mem
      rcases decodedOf mem with ⟨sixteen, seq, data, record, stored, decoded⟩
      have action := @mem_reconcileActions name kv start snapSeq id owned short sixteen _ stored
      rcases (loaded.unique_iff acted once action actionOf_ne_drop).mpr
        (single id data sixteen (getOf stored)).1 with ⟨n, live, unique⟩
      rcases (loaded.indexed_of_decoded acted owned short covers sixteen stored decoded).2 with
        ⟨carrier, labelled, carrierLive⟩
      rw [unique carrier ⟨_, labelled⟩ carrierLive] at labelled
      exact ⟨n, live, unique, data, record, getOf stored, decoded, labelled⟩

end

end

/-! ## The restart -/

/-- A stored vector is indexed by a node that carries it. -/
theorem Collection.Mirrors.label_of_stored {name : Bytes} {kv : KVStore} {col : Collection}
    (mirrors : col.Mirrors name kv) (small : col.config.dim < 2 ^ 16) {data : Bytes}
    {record : VectorRecord} (sixteen : id.length = 16)
    (found : kv.get (makeVectorKey name id) = some (some data))
    (decoded : decodeVector data = .ok record) :
    ∃ n, col.graph.label n = some (id, record.vector) := by
  rcases mem_iff_get?.mp (mirrors.stored id data sixteen found) with ⟨n, indexed⟩
  rcases mirrors.indexed id n indexed with ⟨_, vec, metadata, ver, data', labelled, encoded, found'⟩
  cases found.symm.trans found'
  have fits : vec.length < 2 ^ 16 := (mirrors.sized n id vec labelled).2 ▸ small
  rw [vector_of_decodeVector_encodeVector fits encoded decoded]
  exact ⟨n, labelled⟩

theorem VectorStore.OwnKey.length_lt {name key : Bytes} (own : VectorStore.OwnKey name key) :
    name.length < key.length := by
  rcases own with rfl | ⟨id, _, rfl⟩
  · simp only [makeCollectionConfigKey, collectionPrefix, length_append, length_cons]
    omega
  · simp only [makeVectorKey, collectionPrefix, length_append, length_cons]
    omega

theorem KVStore.loadCollectionConfig_spec {kv : KVStore} {name : Bytes} {fresh : Collection}
    (loaded : kv.loadCollectionConfig name = some fresh) :
    makeCollectionConfigKey name ∈ kv.entries ∧ fresh.Ready ∧ fresh.ids = ∅ ∧
      fresh.config.dim < 2 ^ 16 := by
  rw [loadCollectionConfig] at loaded
  split at loaded
  · rename_i value found
    rcases Option.map_eq_some_iff.mp found with ⟨entry, inMap, _⟩
    refine ⟨mem_iff_get?.mpr ⟨entry, inMap⟩, ?_⟩
    split at loaded
    · cases loaded
    rename_i cfg decoded
    have small : cfg.dim < 2 ^ 16 := by
      rw [decodeCollectionConfig] at decoded
      split at decoded
      · cases decoded
      split at decoded
      · cases decoded
      cases decoded
      apply (ofLittleEndian_lt _).trans_le
      exact Nat.pow_le_pow_right (by decide) (length_take_le 2 _)
    rw [freshCollection] at loaded
    split at loaded
    · rename_i dist graph isDist created
      cases loaded
      exact ⟨Collection.ready_new created isDist, rfl, small⟩
    · cases loaded
  · cases loaded

namespace VectorStore

variable {D K : Type} [LinearOrder K] {metric : Distance → Metric D K}

/-- A restart from a snapshot is equivalent to rebuilding exactly if every identifier
that is stored at the restart has at most one node in the graph of the snapshot, and
none if its entry cannot be decoded. -/
theorem snapshot_restart_equivalent_iff {before vs : VectorStore} {name : Bytes}
    {col fresh : Collection} {data : SnapshotData} {graph : Graph} {level level' : ExternalID → Nat}
    (reached : Reached (step metric) (fun _ _ => True) empty before)
    (found : before.collections[name]? = some col) (fits : col.graph.FitsSnapshot)
    (written : col.graph.writeSnapshot before.kv.seq col.config.metric = .ok data)
    (since : Reached (step metric) (fun _ _ => True) before vs)
    (storable : ∀ key ∈ vs.kv.entries, key.length < 2 ^ 16)
    (loadedConfig : vs.kv.loadCollectionConfig name = some fresh)
    (restored : fresh.graph.restoreFromSnapshot data = .ok graph) :
    ∃ recovered rebuilt,
      fresh.loadFromSnapshot metric level name before.kv.seq data vs.kv = some (.ok recovered) ∧
      fresh.fullRebuild metric level' name vs.kv = some rebuilt ∧
      (Equivalent name vs.kv rebuilt recovered ↔ SingleNodes name vs.kv col.graph) := by
  have mirrors := (mirrored_of_reached reached).mirrors name col found
  rcases since_of_reached (mirrored_of_reached reached) since with ⟨mirrored, since⟩
  rcases since.config name col found with ⟨col', found', sameConfig⟩
  have mirrors' := mirrored.mirrors name col' found'
  rcases KVStore.loadCollectionConfig_spec loadedConfig with ⟨configKey, freshReady, noIDs, small⟩
  have owned : vs.kv.Owned := by
    intro key mem
    rcases mirrored.keys key mem with ⟨owner, _, own⟩
    exact ⟨owner, own.length_lt.trans (storable key mem), own⟩
  have short : name.length < 2 ^ 16 :=
    (OwnKey.length_lt (.inl rfl)).trans (storable _ configKey)
  rcases loaded_of_snapshot mirrors.ready.wf fits freshReady noIDs written restored with
    ⟨loaded, graphDim⟩
  have sameDim : col.config.dim = fresh.config.dim := by
    rw [← graphDim, mirrors.ready.options]
    rfl
  have sameDim' : col'.config.dim = fresh.config.dim := by
    rw [sameConfig, sameDim]
  have smallDim : col.config.dim < 2 ^ 16 := sameDim ▸ small
  have fitting : Fitting name vs.kv fresh.config.dim := by
    intro id data record sixteen stored decoded
    rcases mirrors'.label_of_stored (sameDim' ▸ small) sixteen stored decoded with ⟨n, labelled⟩
    exact (mirrors'.sized n id _ labelled).2.trans sameDim'
  rcases @loadFromSnapshot_spec D K _ metric level name vs.kv fresh _ graph data before.kv.seq
    restored rfl loaded.ready loaded.pointed owned short fitting with ⟨recovered, ran, acted⟩
  rcases @fullRebuild_spec D K _ metric level' name vs.kv fresh owned short freshReady noIDs
    fitting with ⟨rebuilt, ranRebuild, rebuiltIDs⟩
  have covers : Covers name vs.kv before.kv.seq col.graph := by
    intro id seq data record sixteen stored old decoded
    have storedBefore := since.unchanged _ seq _ stored old
    apply mirrors.label_of_stored smallDim sixteen _ decoded
    rw [KVStore.get, storedBefore]
    rfl
  exact ⟨recovered, rebuilt, ran, ranRebuild,
    loaded.equivalent_iff acted owned short covers rebuiltIDs⟩

/-! ## One vector, written once and twice -/

/-- The calls before the snapshot. -/
def writesOf (vectors : List Vec) : List StoreCall :=
  .createCollection [99] smallConfig ::
    vectors.mapIdx fun i vec => .put [99] smallUUID vec ∅ ⟨Int64.ofNat (i + 1), 0⟩ 0

structure RestartScene where
  before : VectorStore
  col : Collection
  data : SnapshotData
  fresh : Collection
  graph : Graph

/-- A snapshot after some writes, and what a restart at once reads. -/
def restartScene (vectors : List Vec) : Option RestartScene := do
  let before ← runAllowed (step fun _ => Graph.discrete) (fun _ _ => True) empty (writesOf vectors)
  let col ← before.collections[([99] : Bytes)]?
  let data ← (col.graph.writeSnapshot before.kv.seq col.config.metric).toOption
  let fresh ← before.kv.loadCollectionConfig [99]
  let graph ← (fresh.graph.restoreFromSnapshot data).toOption
  return ⟨before, col, data, fresh, graph⟩

theorem restartScene_spec {vectors : List Vec} {s : RestartScene}
    (ran : restartScene vectors = some s) :
    Reached (step fun _ => Graph.discrete) (fun _ _ => True) empty s.before ∧
      s.before.collections[([99] : Bytes)]? = some s.col ∧
      s.col.graph.writeSnapshot s.before.kv.seq s.col.config.metric = .ok s.data ∧
      s.before.kv.loadCollectionConfig [99] = some s.fresh ∧
      s.fresh.graph.restoreFromSnapshot s.data = .ok s.graph := by
  rcases Option.bind_eq_some_iff.mp ran with ⟨before, isBefore, ran⟩
  rcases Option.bind_eq_some_iff.mp ran with ⟨col, isCol, ran⟩
  rcases Option.bind_eq_some_iff.mp ran with ⟨data, isData, ran⟩
  rcases Option.bind_eq_some_iff.mp ran with ⟨fresh, isFresh, ran⟩
  rcases Option.bind_eq_some_iff.mp ran with ⟨graph, isGraph, isScene⟩
  cases isScene
  exact ⟨Reached.start.runAllowed isBefore, isCol, eq_ok_of_toOption isData, isFresh,
    eq_ok_of_toOption isGraph⟩

/-- What is recovered, and what is rebuilt. -/
def RestartScene.outcome (s : RestartScene) : Option (Collection × Collection) :=
  match s.fresh.loadFromSnapshot (fun _ => Graph.discrete) (fun _ => 0) [99] s.before.kv.seq s.data
      s.before.kv,
    s.fresh.fullRebuild (fun _ => Graph.discrete) (fun _ => 0) [99] s.before.kv with
  | some (.ok recovered), some rebuilt => some (recovered, rebuilt)
  | _, _ => none

/-- A run of calls, a snapshot after it, and both ways to read it back. -/
structure RestartScene.Restarts (s : RestartScene) (recovered rebuilt : Collection) : Prop where
  reached : Reached (step fun _ => Graph.discrete) (fun _ _ => True) empty s.before
  found : s.before.collections[([99] : Bytes)]? = some s.col
  written : s.col.graph.writeSnapshot s.before.kv.seq s.col.config.metric = .ok s.data
  loadedConfig : s.before.kv.loadCollectionConfig [99] = some s.fresh
  isRecovered : s.fresh.loadFromSnapshot (fun _ => Graph.discrete) (fun _ => 0) [99]
    s.before.kv.seq s.data s.before.kv = some (.ok recovered)
  isRebuilt : s.fresh.fullRebuild (fun _ => Graph.discrete) (fun _ => 0) [99] s.before.kv =
    some rebuilt

/-- A vector that was written twice is carried by two live nodes. -/
theorem restart_revives_old_node :
    ∃ (s : RestartScene) (recovered rebuilt : Collection), s.Restarts recovered rebuilt ∧
      ¬ Equivalent [99] s.before.kv rebuilt recovered := by
  have evaluated : ∃ s ∈ restartScene [[7], [8]], ∃ outcome ∈ s.outcome,
      smallUUID.val ∈ outcome.1.ids ∧ outcome.1.graph.label 0 = some (smallUUID.val, [7]) ∧
        outcome.1.graph.label 1 = some (smallUUID.val, [8]) ∧
        0 ∉ outcome.1.graph.tombstones ∧ 1 ∉ outcome.1.graph.tombstones := by
    decide +kernel
  rcases evaluated with ⟨s, ran, ⟨recovered, rebuilt⟩, isOutcome, known, first, second, firstLive,
    secondLive⟩
  rcases restartScene_spec ran with ⟨reached, found, written, loadedConfig, _⟩
  rw [RestartScene.outcome] at isOutcome
  split at isOutcome
  · rename_i recovered' rebuilt' isRecovered isRebuilt
    cases isOutcome
    refine ⟨s, recovered, rebuilt,
      ⟨reached, found, written, loadedConfig, isRecovered, isRebuilt⟩, ?_⟩
    intro equivalent
    rcases equivalent.carried _ known with ⟨n, _, unique, _⟩
    have zero := unique 0 ⟨_, first⟩ firstLive
    have one := unique 1 ⟨_, second⟩ secondLive
    exact absurd (zero.trans one.symm) Nat.zero_ne_one
  · cases isOutcome

/-- A vector that was written once is recovered. -/
theorem restart_after_single_writes :
    ∃ (s : RestartScene) (recovered rebuilt : Collection), s.Restarts recovered rebuilt ∧
      Equivalent [99] s.before.kv rebuilt recovered := by
  have evaluated : ∃ s ∈ restartScene [[7]],
      (∀ key ∈ s.before.kv.entries.keys, key.length < 2 ^ 16) ∧ s.col.graph.nodes.keys = [0] ∧
        (∀ entry ∈ s.col.graph.nodes.toList, entry.2.level < 2 ^ 8 ∧
          ∀ neighbors ∈ entry.2.neighbors, neighbors.length < 2 ^ 16) ∧
        (s.col.graph.maxLevel < 2 ^ 8 ∧ s.col.graph.opts.m < 2 ^ 16 ∧
          s.col.graph.opts.dim < 2 ^ 16) ∧
        s.col.graph.label 0 = some (smallUUID.val, [7]) ∧
        ∃ record ∈ s.before.record [99] smallUUID.val, True := by
    decide +kernel
  rcases evaluated with ⟨s, ran, storable, oneNode, nodesFit, ⟨level, m, dim⟩, labelled, record,
    isRecord, _⟩
  rcases restartScene_spec ran with ⟨reached, found, written, loadedConfig, restored⟩
  rcases @snapshot_restart_equivalent_iff Nat Nat _ (fun _ => Graph.discrete) s.before s.before [99]
    s.col s.fresh s.data s.graph (fun _ => 0) (fun _ => 0) reached found
    ⟨nodesFit, level, m, dim⟩ written .start
    (fun key mem => storable key (ExtTreeMap.mem_keys.mpr mem)) loadedConfig restored with
    ⟨recovered, rebuilt, isRecovered, isRebuilt, iff⟩
  refine ⟨s, recovered, rebuilt,
    ⟨reached, found, written, loadedConfig, isRecovered, isRebuilt⟩, iff.mpr ?_⟩
  have isZero {n : Nat} {id : ExternalID} (carried : Carries s.col.graph n id) : n = 0 := by
    rcases carried with ⟨vec, isLabel⟩
    have mem := ExtTreeMap.mem_keys.mpr (Graph.mem_nodes_of_label isLabel)
    rw [oneNode] at mem
    exact mem_singleton.mp mem
  intro id data _ stored
  constructor
  · intro n m carried carried'
    exact (isZero carried).trans (isZero carried').symm
  · rintro ⟨n, carried⟩
    cases isZero carried
    rcases carried with ⟨vec, isLabel⟩
    cases labelled.symm.trans isLabel
    rcases record_eq_some_iff.mp isRecord with ⟨data', stored', decoded⟩
    cases stored.symm.trans stored'
    exact ⟨record, decoded⟩

end VectorStore

end Theseon.Vector
