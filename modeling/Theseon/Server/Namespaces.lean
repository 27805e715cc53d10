import Theseon.Lib.Purge
import Theseon.Server.Handlers
import Theseon.Vector.Reload

/-!
# Client keys and the keys of the vector store

The clients of a node and its vector store write to the same engine, and no request is
refused for its key.  As long as no client key begins with the byte of the vector store,
neither side can tell that the other is there: the outcomes of its calls are those of
the run without the other.

A compaction, which may drop a tombstone of either side, is an action of its own.
-/

namespace Theseon

open Lib KV Hnsw Theseon.Vector
open Std (ExtTreeMap)

/-- A node with its vector store and the last snapshot of every collection. -/
structure SharedNode where
  vs : VectorStore
  snapshots : ExtTreeMap Bytes SnapshotData

inductive NodeAction where
  /-- What a request of a client commits: its values, or their envelopes. -/
  | write (ops : List BatchOp)
  | get (key : Bytes)
  | createCollection (name : Bytes) (cfg : CollectionConfig)
  | put (collection : Bytes) (id : UUID) (vec : Vec) (metadata : Metadata) (ver : VectorVersion)
      (level : Nat)
  | delete (collection : Bytes) (id : UUID) (ver : VectorVersion)
  | search (collection : Bytes) (query : Vec) (k efSearch : Nat)
  | getLatest (collection : Bytes) (id : UUID)
  | snapshot (collection : Bytes)
  | restart
  | compact (key : Bytes)

inductive NodeOutcome (D : Type) where
  | answered (response : GetResponse)
  | done (result : Except StoreError Unit)
  | results (result : Except StoreError (List (Result D)))
  | latest (result : Except StoreError LatestEntry)
  | reloaded (result : Except Graph.OptionsError (ExtTreeMap Bytes Collection))

/-- The actions of the clients, and of the engine. -/
def NodeAction.ofClients : NodeAction → Bool
  | .write _ | .get _ | .compact _ => true
  | _ => false

/-- The actions of the vector store, and of the engine. -/
def NodeAction.ofVectors : NodeAction → Bool
  | .write _ | .get _ => false
  | _ => true

/-- No client key begins with the byte of the vector store. -/
def NodeAction.Apart : NodeAction → Prop
  | .write ops => ∀ op ∈ ops, ¬ InNamespace op.key
  | .get key => ¬ InNamespace key
  | _ => True

instance (action : NodeAction) : Decidable action.Apart := by
  cases action <;> unfold NodeAction.Apart <;> infer_instance

def NodeOutcome.ofClients {D : Type} : NodeOutcome D → Bool
  | .answered _ => true
  | _ => false

def NodeOutcome.ofVectors {D : Type} : NodeOutcome D → Bool
  | .answered _ => false
  | _ => true

namespace SharedNode

def empty : SharedNode :=
  ⟨.empty, ∅⟩

/-- A nil value is put as an empty one. -/
def writeOp (kv : KVStore) (op : BatchOp) : KVStore :=
  kv.write op.key (if op.tombstone then none else some (op.value.getD []))

/-- What `Get` of the engine returns. -/
def lookup (kv : KVStore) (key : Bytes) : Option Value :=
  (kv.get key).map fun
    | none => .newTombstone
    | some data => .new (some data)

/-- A snapshot of a collection that is not empty. -/
def snapshotCollection (n : SharedNode) (collection : Bytes) : SharedNode :=
  match n.vs.collections[collection]? with
  | none => n
  | some col =>
    match col.graph.writeSnapshot n.vs.kv.seq col.config.metric with
    | .error _ => n
    | .ok data => { n with snapshots := n.snapshots.insert collection data }

section

variable {D K : Type} [LinearOrder K] (mode : ServerMode) (metric : Distance → Metric D K)
  (level : ExternalID → Nat)

/-- The collections that are loaded take the place of those in memory. -/
def reload (n : SharedNode) : Option (Option (NodeOutcome D) × SharedNode) :=
  (n.vs.kv.loadCollections metric level n.snapshots).map fun loaded =>
    (some (.reloaded loaded), { n with vs := { n.vs with
      collections := match loaded with
        | .error _ => ∅
        | .ok collections => collections } })

def perform (n : SharedNode) : NodeAction → Option (Option (NodeOutcome D) × SharedNode)
  | .write ops => some (none, { n with vs := { n.vs with kv := ops.foldl writeOp n.vs.kv } })
  | .get key =>
    some (some (.answered
      (if key = [] then .invalidArgument else respond mode (lookup n.vs.kv key))), n)
  | .createCollection name cfg =>
    let created := n.vs.createCollection name cfg
    some (some (.done created.1), { n with vs := created.2 })
  | .put collection id vec metadata ver level =>
    (n.vs.put metric collection id.val vec metadata ver level).map fun result =>
      (some (.done result.1), { n with vs := result.2 })
  | .delete collection id ver =>
    let deleted := n.vs.delete collection id.val ver
    some (some (.done deleted.1), { n with vs := deleted.2 })
  | .search collection query k efSearch =>
    (n.vs.search metric collection query k efSearch).map fun result => (some (.results result), n)
  | .getLatest collection id => some (some (.latest (n.vs.getLatest collection id.val)), n)
  | .snapshot collection => some (none, n.snapshotCollection collection)
  | .restart => n.reload metric level
  | .compact key => some (none, { n with vs := { n.vs with kv := n.vs.kv.compact key } })

end

/-! ## The stores of two runs -/

/-- The two stores are the same to the vector store. -/
structure StoresAlike (kv kv' : KVStore) (snapshots snapshots' : ExtTreeMap Bytes SnapshotData) :
    Prop where
  values : kv.SameValues kv'
  saved : ∀ name : Bytes, SameSnapshots kv kv' snapshots[name]? snapshots'[name]?
  stamped : kv.Stamped
  stamped' : kv'.Stamped
  past : ∀ (name : Bytes) (data : SnapshotData), snapshots[name]? = some data → data.seq ≤ kv.seq
  past' : ∀ (name : Bytes) (data : SnapshotData), snapshots'[name]? = some data →
    data.seq ≤ kv'.seq

section

variable {kv kv' : KVStore} {snapshots snapshots' : ExtTreeMap Bytes SnapshotData}

theorem storesAlike_empty : StoresAlike .empty .empty ∅ ∅ := by
  constructor
  · exact fun _ _ => rfl
  · intro name
    trivial
  · rintro key seq value ⟨⟩
  · rintro key seq value ⟨⟩
  · rintro name data ⟨⟩
  · rintro name data ⟨⟩

theorem SameSnapshots.imp {kv₂ kv₂' : KVStore} {snapshot snapshot' : Option SnapshotData}
    (same : SameSnapshots kv kv' snapshot snapshot')
    (kept : ∀ data data', snapshot = some data → snapshot' = some data' →
      kv.SameSince kv' data.seq data'.seq → kv₂.SameSince kv₂' data.seq data'.seq) :
    SameSnapshots kv₂ kv₂' snapshot snapshot' := by
  cases snapshot with
  | none =>
    cases snapshot' with
    | none => trivial
    | some data' => exact same.elim
  | some data =>
    cases snapshot' with
    | none => exact same.elim
    | some data' => exact ⟨same.1, kept data data' rfl rfl same.2⟩

/-- A write elsewhere. -/
theorem StoresAlike.write_left (alike : StoresAlike kv kv' snapshots snapshots') {key : Bytes}
    (outside : ¬ InNamespace key) (value : Option Bytes) :
    StoresAlike (kv.write key value) kv' snapshots snapshots' := by
  have elsewhere : ∀ other, InNamespace other →
      (kv.write key value).entries[other]? = kv.entries[other]? := by
    intro other inside
    rw [KVStore.getElem?_write, if_neg]
    rintro rfl
    exact outside inside
  constructor
  · intro other inside
    rw [KVStore.get, elsewhere other inside]
    exact alike.values other inside
  · intro name
    apply SameSnapshots.imp (alike.saved name)
    intro data data' _ _ since other inside
    rw [elsewhere other inside]
    exact since other inside
  · exact alike.stamped.write key value
  · exact alike.stamped'
  · intro name data found
    exact (alike.past name data found).trans (Nat.le_succ _)
  · exact alike.past'

/-- An entry that is newer asks for its value. -/
theorem actionOf_newer {snapSeq seq snapSeq' seq' : Nat} (newer : snapSeq < seq)
    (newer' : snapSeq' < seq') (value : Option Bytes) :
    actionOf snapSeq (seq, value) = actionOf snapSeq' (seq', value) := by
  cases value with
  | none => rfl
  | some data => rw [actionOf, actionOf, if_neg (not_le.mpr newer), if_neg (not_le.mpr newer')]

theorem actionOf_older {snapSeq seq snapSeq' seq' : Nat} (older : seq ≤ snapSeq)
    (older' : seq' ≤ snapSeq') (value : Option Bytes) :
    actionOf snapSeq (seq, value) = actionOf snapSeq' (seq', value) := by
  cases value with
  | none => rfl
  | some data => rw [actionOf, actionOf, if_pos older, if_pos older']

/-- The same write to both. -/
theorem StoresAlike.write (alike : StoresAlike kv kv' snapshots snapshots') (key : Bytes)
    (value : Option Bytes) :
    StoresAlike (kv.write key value) (kv'.write key value) snapshots snapshots' := by
  constructor
  · intro other inside
    rw [KVStore.get_write, KVStore.get_write, alike.values other inside]
  · intro name
    apply SameSnapshots.imp (alike.saved name)
    intro data data' found found' since other inside
    rw [KVStore.getElem?_write, KVStore.getElem?_write]
    split
    · exact congrArg some (actionOf_newer (Nat.lt_succ_of_le (alike.past name data found))
        (Nat.lt_succ_of_le (alike.past' name data' found')) value)
    · exact since other inside
  · exact alike.stamped.write key value
  · exact alike.stamped'.write key value
  · intro name data found
    exact (alike.past name data found).trans (Nat.le_succ _)
  · intro name data found
    exact (alike.past' name data found).trans (Nat.le_succ _)

/-- A compaction drops the same tombstones where the values are the same. -/
theorem map_compact_congr {key other : Bytes} {β : Type} {f f' : Nat × Option Bytes → β}
    (same : kv.get other = kv'.get other)
    (mapped : (kv.entries[other]?).map f = (kv'.entries[other]?).map f') :
    ((kv.compact key).entries[other]?).map f = ((kv'.compact key).entries[other]?).map f' := by
  rw [KVStore.getElem?_compact, KVStore.getElem?_compact]
  have dropped : (key = other ∧ kv.get key = some none) ↔
      (key = other ∧ kv'.get key = some none) := by
    apply and_congr_right
    rintro rfl
    rw [same]
  simp only [dropped]
  split
  · rfl
  · exact mapped

theorem StoresAlike.compact (alike : StoresAlike kv kv' snapshots snapshots') (key : Bytes) :
    StoresAlike (kv.compact key) (kv'.compact key) snapshots snapshots' := by
  constructor
  · intro other inside
    exact map_compact_congr (alike.values other inside) (alike.values other inside)
  · intro name
    apply SameSnapshots.imp (alike.saved name)
    intro data data' _ _ since other inside
    exact map_compact_congr (alike.values other inside) (since other inside)
  · exact alike.stamped.compact key
  · exact alike.stamped'.compact key
  · rw [KVStore.seq_compact]
    exact alike.past
  · rw [KVStore.seq_compact]
    exact alike.past'

/-- The same collection is written to a snapshot in both. -/
theorem StoresAlike.snapshot (alike : StoresAlike kv kv' snapshots snapshots') (name : Bytes)
    {data data' : SnapshotData} (same : content data = content data') (isSeq : data.seq = kv.seq)
    (isSeq' : data'.seq = kv'.seq) :
    StoresAlike kv kv' (snapshots.insert name data) (snapshots'.insert name data') := by
  have since : kv.SameSince kv' data.seq data'.seq := by
    intro key inside
    have values := alike.values key inside
    rw [KVStore.get, KVStore.get] at values
    cases found : kv.entries[key]? with
    | none =>
      rw [found] at values
      rw [Option.map_eq_none_iff.mp values.symm]
      rfl
    | some entry =>
      rw [found] at values
      rcases Option.map_eq_some_iff.mp values.symm with ⟨entry', found', sameValue⟩
      rw [found']
      rcases entry with ⟨seq, value⟩
      rcases entry' with ⟨seq', value'⟩
      cases sameValue
      have older := alike.stamped key seq value found
      have older' := alike.stamped' key seq' value found'
      rw [← isSeq] at older
      rw [← isSeq'] at older'
      exact congrArg some (actionOf_older older older' value)
  constructor
  · exact alike.values
  · intro other
    rw [ExtTreeMap.getElem?_insert, ExtTreeMap.getElem?_insert]
    split
    · exact ⟨same, since⟩
    · exact alike.saved other
  · exact alike.stamped
  · exact alike.stamped'
  · exact forall_insert alike.past isSeq.le
  · exact forall_insert alike.past' isSeq'.le

end

/-! ## The calls in two runs -/

/-- What a call does to two stores with the same collections: it stops in both, or has
the same result, the same collections and the same write. -/
inductive Together {ρ : Type} (kv kv' : KVStore) (key : Bytes) :
    Option (ρ × VectorStore) → Option (ρ × VectorStore) → Prop where
  | stuck : Together kv kv' key none none
  | unchanged (result : ρ) (collections : ExtTreeMap Bytes Collection) :
      Together kv kv' key (some (result, ⟨collections, kv⟩)) (some (result, ⟨collections, kv'⟩))
  | written (result : ρ) (collections : ExtTreeMap Bytes Collection) (value : Option Bytes) :
      Together kv kv' key (some (result, ⟨collections, kv.write key value⟩))
        (some (result, ⟨collections, kv'.write key value⟩))

section

variable {D K : Type} [LinearOrder K] {metric : Distance → Metric D K} {kv kv' : KVStore}
  (collections : ExtTreeMap Bytes Collection)

theorem createCollection_together (kv kv' : KVStore) (name : Bytes) (cfg : CollectionConfig) :
    Together kv kv' (makeCollectionConfigKey name)
      (some (VectorStore.createCollection ⟨collections, kv⟩ name cfg))
      (some (VectorStore.createCollection ⟨collections, kv'⟩ name cfg)) := by
  rw [VectorStore.createCollection, VectorStore.createCollection]
  split
  · exact .unchanged _ _
  split
  · exact .unchanged _ _
  split
  · exact .unchanged _ _
  · exact .written _ _ _

section

variable (same : kv.SameValues kv')

include same

theorem stale_eq (name : Bytes) (id : ExternalID) (ver : VectorVersion) :
    kv.stale (makeVectorKey name id) ver = kv'.stale (makeVectorKey name id) ver := by
  rw [KVStore.stale, KVStore.stale, same _ (vectorKey_inNamespace name id)]

theorem put_together (collection : Bytes) (id : ExternalID) (vec : Vec) (metadata : Metadata)
    (ver : VectorVersion) (level : Nat) :
    Together kv kv' (makeVectorKey collection id)
      (VectorStore.put metric ⟨collections, kv⟩ collection id vec metadata ver level)
      (VectorStore.put metric ⟨collections, kv'⟩ collection id vec metadata ver level) := by
  rw [VectorStore.put, VectorStore.put]
  dsimp only
  rw [stale_eq same]
  split
  · exact .unchanged _ _
  rename_i col _
  split
  · exact .unchanged _ _
  split
  · exact .unchanged _ _
  split
  · exact .unchanged _ _
  split
  · exact .unchanged _ _
  cases col.index metric id vec level with
  | none => exact .stuck
  | some indexed => exact .written _ _ _

theorem delete_together (collection : Bytes) (id : ExternalID) (ver : VectorVersion) :
    Together kv kv' (makeVectorKey collection id)
      (some (VectorStore.delete ⟨collections, kv⟩ collection id ver))
      (some (VectorStore.delete ⟨collections, kv'⟩ collection id ver)) := by
  rw [VectorStore.delete, VectorStore.delete]
  dsimp only
  rw [stale_eq same]
  split
  · exact .unchanged _ _
  split
  · exact .unchanged _ _
  split
  · exact .unchanged _ _
  · exact .written _ _ _

theorem verify_eq (collection : Bytes) (k : Nat) (results : List (Result D))
    (candidates : List (SearchResult D)) :
    VectorStore.verify ⟨collections, kv⟩ collection k results candidates =
      VectorStore.verify ⟨collections, kv'⟩ collection k results candidates := by
  induction candidates generalizing results with
  | nil => rfl
  | cons c candidates ih =>
    rw [VectorStore.verify, VectorStore.verify,
      same _ (vectorKey_inNamespace collection c.externalID)]
    simp only [ih]

theorem search_eq (collection : Bytes) (query : Vec) (k efSearch : Nat) :
    VectorStore.search metric ⟨collections, kv⟩ collection query k efSearch =
      VectorStore.search metric ⟨collections, kv'⟩ collection query k efSearch := by
  rw [VectorStore.search, VectorStore.search]
  simp only [verify_eq collections same]

theorem getLatest_eq (collection : Bytes) (id : ExternalID) :
    VectorStore.getLatest ⟨collections, kv⟩ collection id =
      VectorStore.getLatest ⟨collections, kv'⟩ collection id := by
  rw [VectorStore.getLatest, VectorStore.getLatest, same _ (vectorKey_inNamespace collection id)]

end

end

/-- The two nodes are the same to the vector store. -/
structure Alike (n n' : SharedNode) : Prop where
  collections : n.vs.collections = n'.vs.collections
  stores : StoresAlike n.vs.kv n'.vs.kv n.snapshots n'.snapshots

/-- A step stops in both runs, or has the same outcome, which is the vector store's. -/
inductive SameStep {D : Type} : Option (Option (NodeOutcome D) × SharedNode) →
    Option (Option (NodeOutcome D) × SharedNode) → Prop where
  | stuck : SameStep none none
  | both {outcome : Option (NodeOutcome D)} {next next' : SharedNode} (alike : Alike next next')
      (shown : ∀ o ∈ outcome, o.ofVectors = true) :
      SameStep (some (outcome, next)) (some (outcome, next'))

theorem Together.sameStep {D : Type} {kv kv' : KVStore}
    {snapshots snapshots' : ExtTreeMap Bytes SnapshotData} {key : Bytes}
    {after after' : Option (Except StoreError Unit × VectorStore)}
    (together : Together kv kv' key after after')
    (stores : StoresAlike kv kv' snapshots snapshots') :
    SameStep
      (after.map fun result => (some ((.done result.1 : NodeOutcome D)), ⟨result.2, snapshots⟩))
      (after'.map fun result => (some (.done result.1), ⟨result.2, snapshots'⟩)) := by
  have shown : ∀ (result : Except StoreError Unit), ∀ o ∈ some (.done result : NodeOutcome D),
      o.ofVectors = true := by
    rintro result _ ⟨⟩
    rfl
  cases together with
  | stuck => exact .stuck
  | unchanged result collections => exact .both ⟨rfl, stores⟩ (shown result)
  | written result collections value => exact .both ⟨rfl, stores.write key value⟩ (shown result)

section

variable {D K : Type} [LinearOrder K] {mode : ServerMode} {metric : Distance → Metric D K}
  {level : ExternalID → Nat} {n n' next : SharedNode}

theorem Alike.writes (alike : Alike n n') {ops : List BatchOp}
    (apart : ∀ op ∈ ops, ¬ InNamespace op.key) :
    Alike { n with vs := { n.vs with kv := ops.foldl writeOp n.vs.kv } } n' := by
  refine ⟨alike.collections, ?_⟩
  have stores := alike.stores
  dsimp only at stores ⊢
  generalize n.vs.kv = kv at stores ⊢
  induction ops generalizing kv with
  | nil => exact stores
  | cons op rest ih =>
    exact ih (fun op mem => apart op (.tail _ mem)) (writeOp kv op)
      (stores.write_left (apart op (.head _)) _)

theorem Alike.snapshotCollection (alike : Alike n n') (collection : Bytes) :
    Alike (n.snapshotCollection collection) (n'.snapshotCollection collection) := by
  rw [SharedNode.snapshotCollection, SharedNode.snapshotCollection, ← alike.collections]
  cases n.vs.collections[collection]? with
  | none => exact alike
  | some col =>
    dsimp only
    rw [Graph.writeSnapshot, Graph.writeSnapshot]
    by_cases isEmpty : col.graph.nodes.size = 0
    · rw [if_pos isEmpty, if_pos isEmpty]
      exact alike
    · rw [if_neg isEmpty, if_neg isEmpty]
      exact ⟨alike.collections, alike.stores.snapshot collection rfl rfl rfl⟩

/-- A call of the vector store does the same in both runs. -/
theorem Alike.perform (alike : Alike n n') {action : NodeAction}
    (ofVectors : action.ofVectors = true) :
    SameStep (n.perform mode metric level action) (n'.perform mode metric level action) := by
  rcases n with ⟨⟨collections, kv⟩, snapshots⟩
  rcases n' with ⟨⟨collections', kv'⟩, snapshots'⟩
  have sameCollections : collections = collections' := alike.collections
  subst sameCollections
  have stores : StoresAlike kv kv' snapshots snapshots' := alike.stores
  have same : kv.SameValues kv' := stores.values
  cases action with
  | write | get => cases ofVectors
  | createCollection name cfg =>
    exact (createCollection_together collections kv kv' name cfg).sameStep stores
  | put collection id vec metadata ver level =>
    exact (put_together collections same collection id.val vec metadata ver level).sameStep stores
  | delete collection id ver =>
    exact (delete_together collections same collection id.val ver).sameStep stores
  | search collection query k efSearch =>
    rw [SharedNode.perform, SharedNode.perform, search_eq collections same]
    cases VectorStore.search metric ⟨collections, kv'⟩ collection query k efSearch with
    | none => exact .stuck
    | some result => exact .both alike (by simp [NodeOutcome.ofVectors])
  | getLatest collection id =>
    rw [SharedNode.perform, SharedNode.perform, getLatest_eq collections same]
    exact .both alike (by simp [NodeOutcome.ofVectors])
  | snapshot collection =>
    exact .both (alike.snapshotCollection collection) (by simp)
  | restart =>
    rw [SharedNode.perform, SharedNode.perform, reload, reload]
    dsimp only
    rw [KVStore.loadCollections_eq same stores.saved]
    cases kv'.loadCollections metric level snapshots' with
    | none => exact .stuck
    | some loaded => exact .both ⟨rfl, stores⟩ (by simp [NodeOutcome.ofVectors])
  | compact key =>
    exact .both ⟨rfl, stores.compact key⟩ (by simp)

/-- The vector store does not see the clients. -/
theorem vectors_unwind : Unwinds (SharedNode.perform mode metric level) NodeAction.Apart
    NodeAction.ofVectors NodeOutcome.ofVectors Alike := by
  constructor
  · intro n n' next action outcome alike apart hidden performed
    cases action with
    | write ops =>
      cases performed
      refine ⟨alike.writes apart, ?_⟩
      rintro _ ⟨⟩
    | get key =>
      cases performed
      refine ⟨alike, ?_⟩
      rintro _ ⟨⟩
      rfl
    | createCollection | put | delete | search | getLatest | snapshot | restart | compact =>
      cases hidden
  · intro n n' next action outcome alike _ seen performed
    have same := @Alike.perform D K _ mode metric level n n' alike action seen
    rw [performed] at same
    generalize n'.perform mode metric level action = performed' at same ⊢
    cases same with
    | both nextAlike shown => exact ⟨⟨_, rfl, nextAlike⟩, shown⟩

theorem perform_stops (alike : Alike n n') {action : NodeAction}
    (seen : action.ofVectors = true) (stops : n.perform mode metric level action = none) :
    n'.perform mode metric level action = none := by
  have same := @Alike.perform D K _ mode metric level n n' alike action seen
  rw [stops] at same
  generalize n'.perform mode metric level action = performed' at same ⊢
  cases same
  rfl

/-! ## The answers to the clients -/

/-- The two nodes are the same to the clients. -/
def ClientsAlike (n n' : SharedNode) : Prop :=
  ∀ key, ¬ InNamespace key → n.vs.kv.get key = n'.vs.kv.get key

theorem Together.get_eq {ρ : Type} {kv kv' : KVStore} {key other : Bytes} {result : ρ}
    {vs : VectorStore} {after' : Option (ρ × VectorStore)}
    (together : Together kv kv' key (some (result, vs)) after') (different : key ≠ other) :
    vs.kv.get other = kv.get other := by
  cases together with
  | unchanged => rfl
  | written => rw [KVStore.get_write, if_neg different]

theorem get_writes_congr {kv kv' : KVStore} {key : Bytes} (same : kv.get key = kv'.get key)
    (ops : List BatchOp) : (ops.foldl writeOp kv).get key = (ops.foldl writeOp kv').get key := by
  induction ops generalizing kv kv' with
  | nil => exact same
  | cons op rest ih =>
    apply ih
    rw [writeOp, writeOp, KVStore.get_write, KVStore.get_write, same]

/-- The clients do not see the vector store. -/
theorem clients_unwind : Unwinds (SharedNode.perform mode metric level) NodeAction.Apart
    NodeAction.ofClients NodeOutcome.ofClients ClientsAlike := by
  constructor
  · intro n n' next action outcome alike _ hidden performed
    -- a call of the vector store keeps to its own keys
    have kept : ∀ {key vs} {result : Except StoreError Unit} {after'}, InNamespace key →
        Together n.vs.kv n.vs.kv key (some (result, vs)) after' →
        ClientsAlike { n with vs := vs } n' := by
      intro key vs result after' inside together other outside
      have different : key ≠ other := by
        rintro rfl
        exact outside inside
      exact (together.get_eq different).trans (alike other outside)
    have same : n.vs.kv.SameValues n.vs.kv := fun _ _ => rfl
    cases action with
    | write | get | compact => cases hidden
    | createCollection name cfg =>
      cases performed
      exact ⟨kept (configKey_inNamespace name) (createCollection_together _ n.vs.kv _ name cfg),
        by simp [NodeOutcome.ofClients]⟩
    | put collection id vec metadata ver level =>
      rcases Option.map_eq_some_iff.mp performed with ⟨⟨result, vs⟩, stepped, same⟩
      cases same
      have together := @put_together D K _ metric _ _ n.vs.collections same collection id.val vec
        metadata ver level
      rw [stepped] at together
      exact ⟨kept (vectorKey_inNamespace _ _) together, by simp [NodeOutcome.ofClients]⟩
    | delete collection id ver =>
      cases performed
      exact ⟨kept (vectorKey_inNamespace _ _) (delete_together _ same collection id.val ver),
        by simp [NodeOutcome.ofClients]⟩
    | search collection query k efSearch =>
      rcases Option.map_eq_some_iff.mp performed with ⟨result, _, same⟩
      cases same
      exact ⟨alike, by simp [NodeOutcome.ofClients]⟩
    | getLatest collection id =>
      cases performed
      exact ⟨alike, by simp [NodeOutcome.ofClients]⟩
    | snapshot collection =>
      cases performed
      have sameStore : (n.snapshotCollection collection).vs = n.vs := by
        rw [snapshotCollection]
        split
        · rfl
        · split <;> rfl
      refine ⟨?_, by simp⟩
      rw [ClientsAlike, sameStore]
      exact alike
    | restart =>
      rcases Option.map_eq_some_iff.mp performed with ⟨loaded, _, same⟩
      cases same
      exact ⟨alike, by simp [NodeOutcome.ofClients]⟩
  · intro n n' next action outcome alike apart seen performed
    cases action with
    | write ops =>
      cases performed
      exact ⟨⟨_, rfl, fun key outside => get_writes_congr (alike key outside) ops⟩,
        by simp⟩
    | get key =>
      cases performed
      have sameAnswer : lookup n'.vs.kv key = lookup n.vs.kv key := by
        rw [lookup, lookup, alike key apart]
      refine ⟨⟨n', ?_, alike⟩, by simp [NodeOutcome.ofClients]⟩
      rw [SharedNode.perform, sameAnswer]
    | compact key =>
      cases performed
      exact ⟨⟨_, rfl, fun other outside =>
          map_compact_congr (alike other outside) (alike other outside)⟩,
        by simp⟩
    | createCollection | put | delete | search | getLatest | snapshot | restart => cases seen

end

/-! ## The outcomes of a run -/

section

variable {D K : Type} [LinearOrder K] (mode : ServerMode) (metric : Distance → Metric D K)
  (level : ExternalID → Nat)

end

/-! ## Client keys in the namespace -/

/-- The outcomes on a standalone node. -/
def outcomes (actions : List NodeAction) : Option (List (NodeOutcome Nat)) :=
  trace (SharedNode.perform .standalone (fun _ => Graph.discrete) fun _ => 0) empty actions

/-- Which outcomes are errors. -/
def failures (outcomes : List (NodeOutcome Nat)) : List Bool :=
  outcomes.map fun
    | .latest (.error _) => true
    | _ => false

/-- The answers to the clients. -/
def answers (outcomes : List (NodeOutcome Nat)) : List GetResponse :=
  outcomes.filterMap fun
    | .answered response => some response
    | _ => none

/-- A collection with one vector. -/
def oneVector : List NodeAction :=
  [.createCollection [99] VectorStore.smallConfig,
    .put [99] VectorStore.smallUUID [7] ∅ ⟨1, 0⟩ 0]

def readVector : NodeAction :=
  .getLatest [99] VectorStore.smallUUID

def vectorKey : Bytes :=
  makeVectorKey [99] VectorStore.smallUUID.val

/-- A client puts `x` under the key of the vector. -/
def overVector : List NodeAction :=
  oneVector ++ [.write [.put vectorKey (some [120])], readVector]

/-- A client puts the configuration of a collection, which is loaded by the restart. -/
def madeCollection : List NodeAction :=
  [.write [.put (makeCollectionConfigKey [99])
    (some (encodeCollectionConfig VectorStore.smallConfig))], .restart, readVector]

/-- The vector takes the place of what a client has put. -/
def underVector : List NodeAction :=
  .write [.put vectorKey (some [120])] :: oneVector ++ [.get vectorKey]

/-- A client key outside of the namespace, and a restart. -/
def apartFromVector : List NodeAction :=
  oneVector ++ [.write [.put [107] (some [49])], .restart, readVector, .get [107]]

end SharedNode

end Theseon
