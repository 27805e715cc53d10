import Theseon.Hnsw.Snapshot
import Theseon.Vector.History

/-!
# Recovery of a collection

After a restart the index of a collection is rebuilt from the key-value store, or
restored from a snapshot and reconciled with what has been written since.

The level that is drawn for a vector is given by its identifier.
-/

namespace Theseon.Vector

open Lib Hnsw List

/-! ## Scanning the key-value store -/

inductive KeyError where
  | tooShort (length : Nat)
  | unexpectedPrefix (got : UInt8)
  | truncatedName
  | truncatedUUID
  | unknownKind (kind : UInt8)
  deriving DecidableEq, Repr

/-- The collection, the identifier and the kind of a key.  A configuration has the zero
identifier. -/
def parseVectorKey (userKey : Bytes) : Except KeyError (Bytes × ExternalID × UInt8) :=
  if userKey.length < 4 then .error (.tooShort userKey.length)
  else if userKey.headD 0 ≠ 2 then .error (.unexpectedPrefix (userKey.headD 0))
  else
    let nameLen := ofLittleEndian ((userKey.drop 1).take 2)
    if userKey.length < 3 + nameLen + 1 then .error .truncatedName
    else
      let collection := (userKey.drop 3).take nameLen
      let kind := (userKey.drop (3 + nameLen)).headD 0
      if kind = 0 then .ok (collection, List.replicate 16 0, kind)
      else if kind = 1 then
        if userKey.length < 4 + nameLen + 16 then .error .truncatedUUID
        else .ok (collection, (userKey.drop (4 + nameLen)).take 16, kind)
      else .error (.unknownKind kind)

def makeVectorKeyPrefix (collection : Bytes) : Bytes :=
  collectionPrefix collection ++ [1]

def makeVectorKeyPrefixEnd (collection : Bytes) : Bytes :=
  collectionPrefix collection ++ [2]

/-- The entries in a range of keys, in the order of the keys. -/
def KVStore.scanRange (kv : KVStore) (first last : Bytes) : List (Bytes × (Nat × Option Bytes)) :=
  kv.entries.toList.filter fun entry => first ≤ entry.1 ∧ entry.1 < last

/-- The identifiers of a collection with their sequence numbers and values.  Keys that
cannot be parsed are skipped. -/
def KVStore.vectorEntries (kv : KVStore) (name : Bytes) :
    List (ExternalID × (Nat × Option Bytes)) :=
  (kv.scanRange (makeVectorKeyPrefix name) (makeVectorKeyPrefixEnd name)).filterMap fun entry =>
    match parseVectorKey entry.1 with
    | .error _ => none
    | .ok (_, uuid, _) => some (uuid, entry.2)

/-! ## Rebuilding and reconciling -/

namespace Collection

/-- An identifier is no longer indexed. -/
def forget (col : Collection) (id : ExternalID) : Collection :=
  { col with graph := col.unlink id col.graph, ids := col.ids.erase id }

/-- Take over the nodes of a snapshot.  Of the nodes of one identifier the last one
counts. -/
def loadNodes (col : Collection) (graph : Graph) (nodes : List Node) : Collection :=
  { col with
    graph := graph
    ids := nodes.foldl (fun ids node => ids.insert node.externalID node.id) col.ids
    nextID :=
      nodes.foldl (fun next node => if next ≤ node.id then node.id + 1 else next) col.nextID }

section

variable {D K : Type} [LinearOrder K] (metric : Distance → Metric D K)
  (level : ExternalID → Nat)

/-- Insert into a graph; an insertion that fails uses a number up. -/
def insertInto (col : Collection) (graph : Graph) (id : ExternalID) (vec : Vec) :
    Option Collection :=
  (graph.insert (metric col.dist) col.nextID id vec (level id)).map fun
    | .error _ => { col with graph := graph, nextID := col.nextID + 1 }
    | .ok graph =>
      { col with
        graph := graph
        ids := col.ids.insert id col.nextID
        nextID := col.nextID + 1 }

/-- A live entry that can be decoded is indexed. -/
def rebuildEntry (col : Collection) : ExternalID × (Nat × Option Bytes) → Option Collection
  | (_, _, none) => some col
  | (id, _, some data) =>
    match decodeVector data with
    | .error _ => some col
    | .ok record => col.insertInto metric level col.graph id record.vector

def fullRebuild (col : Collection) (name : Bytes) (kv : KVStore) : Option Collection :=
  (kv.vectorEntries name).foldlM (rebuildEntry metric level) col

/-- A tombstone removes the identifier; an entry that is newer than the snapshot replaces
its node. -/
def reconcileEntry (snapSeq : Nat) (col : Collection) :
    ExternalID × (Nat × Option Bytes) → Option Collection
  | (id, _, none) => some (col.forget id)
  | (id, seq, some data) =>
    if seq ≤ snapSeq then some col
    else
      match decodeVector data with
      | .error _ => some col
      | .ok record => col.insertInto metric level (col.unlink id col.graph) id record.vector

/-- What is not in the key-value store at all has been deleted, and its tombstone has
been compacted away. -/
def loadFromSnapshot (col : Collection) (name : Bytes) (snapSeq : Nat) (data : SnapshotData)
    (kv : KVStore) : Option (Except RestoreError Collection) :=
  match col.graph.restoreFromSnapshot data with
  | .error err => some (.error err)
  | .ok graph =>
    let loaded := col.loadNodes graph data.nodes
    let entries := kv.vectorEntries name
    let unseen := entries.foldl (fun unseen entry => unseen.erase entry.1) loaded.ids
    (entries.foldlM (reconcileEntry metric level snapSeq) loaded).map fun col =>
      .ok (unseen.keys.foldl forget col)

end

end Collection

inductive ConfigError where
  | tooShort (length : Nat)
  | unsupportedVersion (got : UInt8)
  deriving DecidableEq, Repr

def decodeCollectionConfig (data : Bytes) : Except ConfigError CollectionConfig :=
  if data.length < 18 then .error (.tooShort data.length)
  else if data.headD 0 ≠ 1 then .error (.unsupportedVersion (data.headD 0))
  else
    .ok ⟨ofLittleEndian ((data.drop 1).take 2), (data.drop 3).headD 0,
      ofLittleEndian ((data.drop 4).take 2), ofLittleEndian ((data.drop 6).take 2),
      ofLittleEndian ((data.drop 8).take 2),
      (UInt64.ofNat (ofLittleEndian ((data.drop 10).take 8))).toInt64⟩

/-- A collection before its index is loaded. -/
def freshCollection (cfg : CollectionConfig) : Option Collection :=
  match metricToDistanceFunc cfg.metric, Graph.new cfg.options with
  | some dist, .ok graph => some ⟨graph, dist, cfg, ∅, 0⟩
  | _, _ => none

/-- The collection whose configuration is stored under its name. -/
def KVStore.loadCollectionConfig (kv : KVStore) (name : Bytes) : Option Collection :=
  match kv.get (makeCollectionConfigKey name) with
  | some (some value) =>
    match decodeCollectionConfig value with
    | .error _ => none
    | .ok cfg => freshCollection cfg
  | _ => none

/-! ## What is done to an identifier -/

inductive Action where
  | keep
  | drop
  | replace (vec : Vec)
  deriving DecidableEq, Repr

/-- What an entry asks for when a snapshot is reconciled. -/
def actionOf (snapSeq : Nat) : Nat × Option Bytes → Action
  | (_, none) => .drop
  | (seq, some data) =>
    if seq ≤ snapSeq then .keep
    else
      match decodeVector data with
      | .error _ => .keep
      | .ok record => .replace record.vector

namespace Collection

variable {start col next : Collection}

/-- The state of a collection after some of the identifiers have been dealt with. -/
structure Acted (start : Collection) (done : List (ExternalID × Action)) (col : Collection) :
    Prop where
  ready : col.Ready
  config : col.config = start.config
  grown : start.nextID ≤ col.nextID
  old : ∀ n < start.nextID, col.graph.label n = start.graph.label n
  kept : ∀ id, (∀ action, (id, action) ∈ done → action = .keep) → col.ids[id]? = start.ids[id]?
  dropped : ∀ id, (id, .drop) ∈ done → col.ids[id]? = none
  replaced : ∀ id vec, (id, .replace vec) ∈ done →
    ∃ n, start.nextID ≤ n ∧ col.ids[id]? = some n ∧ col.graph.label n = some (id, vec)
  fresh : ∀ n id vec, start.nextID ≤ n → col.graph.label n = some (id, vec) →
    col.ids[id]? = some n ∧ (id, .replace vec) ∈ done
  marked : ∀ n, n ∈ col.graph.tombstones ↔ n ∈ start.graph.tombstones ∨
    ∃ id action, (id, action) ∈ done ∧ action ≠ .keep ∧ start.ids[id]? = some n

section

variable {D K : Type} [LinearOrder K] (metric : Distance → Metric D K)
  (level : ExternalID → Nat)

/-- Deal with one identifier. -/
def act (col : Collection) : ExternalID × Action → Option Collection
  | (_, .keep) => some col
  | (id, .drop) => some (col.forget id)
  | (id, .replace vec) => col.insertInto metric level (col.unlink id col.graph) id vec

theorem reconcileEntry_eq (snapSeq : Nat) (col : Collection)
    (entry : ExternalID × (Nat × Option Bytes)) :
    col.reconcileEntry metric level snapSeq entry =
      col.act metric level (entry.1, actionOf snapSeq entry.2) := by
  rcases entry with ⟨id, seq, value⟩
  cases value with
  | none => rfl
  | some data =>
    rw [reconcileEntry, actionOf]
    split
    · rfl
    split
    · rfl
    · rfl

end

/-- A collection in which another graph has been put. -/
structure Extended (col : Collection) (id : ExternalID) (vec : Vec) (next : Collection) : Prop where
  ready : next.Ready
  config : next.config = col.config
  labels : ∀ n, next.graph.label n = if col.nextID = n then some (id, vec) else col.graph.label n
  tombstones : next.graph.tombstones = col.graph.tombstones
  ids : next.ids = col.ids.insert id col.nextID
  nextID : next.nextID = col.nextID + 1

section

variable {D K : Type} [LinearOrder K] {metric : Distance → Metric D K} {level : ExternalID → Nat}

theorem Ready.insertInto {graph : Graph} (ready : Ready { col with graph := graph }) {vec : Vec}
    (fits : vec.length = col.config.dim) (id : ExternalID) :
    ∃ next, col.insertInto metric level graph id vec = some next ∧
      Extended { col with graph := graph } id vec next := by
  rcases @Ready.insert _ D K _ metric ready vec fits id (level id) with
    ⟨graph, ran, inserted, tombstones, labels⟩
  rw [Collection.insertInto, ran]
  exact ⟨_, rfl, { inserted with }, rfl, labels, tombstones, rfl, rfl⟩

/-- Every identifier is indexed by a node that carries it. -/
def Pointed (start : Collection) : Prop :=
  ∀ id n, start.ids[id]? = some n → ∃ vec, start.graph.label n = some (id, vec)

theorem acted_nil (ready : start.Ready) : Acted start [] start := by
  constructor
  · exact ready
  · rfl
  · exact le_rfl
  · intro n _
    rfl
  · intro id _
    rfl
  · rintro id ⟨⟩
  · rintro id vec ⟨⟩
  · intro n id vec above labelled
    exact absurd (ready.fresh n (Graph.mem_nodes_of_label labelled)) (not_lt_of_ge above)
  · intro n
    simp

variable {done : List (ExternalID × Action)}

theorem Acted.keep (acted : Acted start done col) (id : ExternalID) :
    Acted start (done ++ [(id, .keep)]) col := by
  have inDone {other : ExternalID} {action : Action} (notKeep : action ≠ .keep)
      (mem : (other, action) ∈ done ++ [(id, .keep)]) : (other, action) ∈ done := by
    rcases mem_append.mp mem with old | new
    · exact old
    · cases mem_singleton.mp new
      exact absurd rfl notKeep
  refine { acted with kept := ?_, dropped := ?_, replaced := ?_, fresh := ?_, marked := ?_ }
  · intro other all
    exact acted.kept other fun action mem => all action (mem_append_left _ mem)
  · intro other mem
    exact acted.dropped other (inDone Action.noConfusion mem)
  · intro other vec mem
    exact acted.replaced other vec (inDone Action.noConfusion mem)
  · intro n other vec above labelled
    rcases acted.fresh n other vec above labelled with ⟨indexed, mem⟩
    exact ⟨indexed, mem_append_left _ mem⟩
  · intro n
    rw [acted.marked]
    constructor
    · rintro (old | ⟨other, action, mem, notKeep, indexed⟩)
      · exact .inl old
      · exact .inr ⟨other, action, mem_append_left _ mem, notKeep, indexed⟩
    · rintro (old | ⟨other, action, mem, notKeep, indexed⟩)
      · exact .inl old
      · exact .inr ⟨other, action, inDone notKeep mem, notKeep, indexed⟩

variable {id : ExternalID}

/-- What becomes of the identifiers when one more is dropped or replaced. -/
theorem Acted.marks (acted : Acted start done col) (ready : start.Ready) (pointed : start.Pointed)
    (new : id ∉ done.map Prod.fst) {action : Action} (notKeep : action ≠ .keep)
    (n : Nat) :
    n ∈ (col.unlink id col.graph).tombstones ↔ n ∈ start.graph.tombstones ∨
      ∃ other action', (other, action') ∈ done ++ [(id, action)] ∧ action' ≠ .keep ∧
        start.ids[other]? = some n := by
  have untouched : col.ids[id]? = start.ids[id]? :=
    acted.kept id fun _ mem => absurd (mem_map_of_mem mem) new
  rw [mem_tombstones_unlink, acted.marked, untouched]
  constructor
  · rintro ((old | ⟨other, action', mem, isAction, indexed⟩) | ⟨indexed, _⟩)
    · exact .inl old
    · exact .inr ⟨other, action', mem_append_left _ mem, isAction, indexed⟩
    · exact .inr ⟨id, action, mem_append_right _ mem_cons_self, notKeep, indexed⟩
  · rintro (old | ⟨other, action', mem, isAction, indexed⟩)
    · exact .inl (.inl old)
    · rcases mem_append.mp mem with before | last
      · exact .inl (.inr ⟨other, action', before, isAction, indexed⟩)
      · cases mem_singleton.mp last
        rcases pointed id n indexed with ⟨vec, labelled⟩
        have below := ready.fresh n (Graph.mem_nodes_of_label labelled)
        rw [← acted.old n below] at labelled
        exact .inr ⟨indexed, Graph.mem_nodes_of_label labelled⟩

theorem ne_of_mem_done {id other : ExternalID} {action : Action} (new : id ∉ done.map Prod.fst)
    (mem : (other, action) ∈ done) : id ≠ other := by
  rintro rfl
  exact new (mem_map_of_mem mem)

theorem Acted.drop (acted : Acted start done col) (ready : start.Ready) (pointed : start.Pointed)
    (new : id ∉ done.map Prod.fst) :
    Acted start (done ++ [(id, .drop)]) (col.forget id) := by
  have idsOf (other : ExternalID) :
      (col.forget id).ids[other]? = if id = other then none else col.ids[other]? := by
    rw [forget, getElem?_erase_if]
  have labelOf (n : Nat) : (col.forget id).graph.label n = col.graph.label n :=
    label_unlink id col.graph n
  constructor
  · exact { acted.ready.unlink id with }
  · exact acted.config
  · exact acted.grown
  · intro n below
    exact (labelOf n).trans (acted.old n below)
  · intro other all
    rw [idsOf, if_neg]
    · exact acted.kept other fun action mem => all action (mem_append_left _ mem)
    · rintro rfl
      cases all .drop (mem_append_right _ mem_cons_self)
  · intro other mem
    rw [idsOf]
    split
    · rfl
    rename_i different
    rcases mem_append.mp mem with before | last
    · exact acted.dropped other before
    · cases mem_singleton.mp last
      exact absurd rfl different
  · intro other vec mem
    rcases mem_append.mp mem with before | last
    · rcases acted.replaced other vec before with ⟨n, above, indexed, labelled⟩
      refine ⟨n, above, ?_, (labelOf n).trans labelled⟩
      rw [idsOf, if_neg (ne_of_mem_done new before), indexed]
    · cases mem_singleton.mp last
  · intro n other vec above labelled
    rcases acted.fresh n other vec above ((labelOf n).symm.trans labelled) with ⟨indexed, before⟩
    rw [idsOf, if_neg (ne_of_mem_done new before), indexed]
    exact ⟨rfl, mem_append_left _ before⟩
  · exact acted.marks ready pointed new Action.noConfusion

theorem Acted.replace (acted : Acted start done col) (ready : start.Ready) (pointed : start.Pointed)
    (new : id ∉ done.map Prod.fst) {vec : Vec}
    (fits : vec.length = start.config.dim) :
    ∃ next, col.insertInto metric level (col.unlink id col.graph) id vec = some next ∧
      Acted start (done ++ [(id, .replace vec)]) next := by
  rw [← acted.config] at fits
  rcases @Ready.insertInto col D K _ metric level _ (acted.ready.unlink id) vec fits id with
    ⟨next, ran, extended⟩
  refine ⟨next, ran, ?_⟩
  have idsOf (other : ExternalID) :
      next.ids[other]? = if id = other then some col.nextID else col.ids[other]? := by
    rw [extended.ids, getElem?_insert_if]
  have labelOf (n : Nat) : next.graph.label n =
      if col.nextID = n then some (id, vec) else col.graph.label n := by
    rw [extended.labels, label_unlink]
  constructor
  · exact extended.ready
  · exact extended.config.trans acted.config
  · rw [extended.nextID]
    exact acted.grown.trans (Nat.le_succ _)
  · intro n below
    rw [labelOf, if_neg (below.trans_le acted.grown).ne']
    exact acted.old n below
  · intro other all
    rw [idsOf, if_neg]
    · exact acted.kept other fun action mem => all action (mem_append_left _ mem)
    · rintro rfl
      cases all (.replace vec) (mem_append_right _ mem_cons_self)
  · intro other mem
    rcases mem_append.mp mem with before | last
    · rw [idsOf, if_neg (ne_of_mem_done new before)]
      exact acted.dropped other before
    · cases mem_singleton.mp last
  · intro other vec' mem
    rcases mem_append.mp mem with before | last
    · rcases acted.replaced other vec' before with ⟨n, above, indexed, labelled⟩
      have below := acted.ready.fresh n (Graph.mem_nodes_of_label labelled)
      refine ⟨n, above, ?_, ?_⟩
      · rw [idsOf, if_neg (ne_of_mem_done new before), indexed]
      · rw [labelOf, if_neg below.ne', labelled]
    cases mem_singleton.mp last
    refine ⟨col.nextID, acted.grown, ?_, ?_⟩
    · rw [idsOf, if_pos rfl]
    · rw [labelOf, if_pos rfl]
  · intro n other vec' above labelled
    rw [labelOf] at labelled
    split at labelled
    · rename_i isNew
      cases labelled
      rw [idsOf, if_pos rfl, isNew]
      exact ⟨rfl, mem_append_right _ mem_cons_self⟩
    rcases acted.fresh n other vec' above labelled with ⟨indexed, before⟩
    rw [idsOf, if_neg (ne_of_mem_done new before), indexed]
    exact ⟨rfl, mem_append_left _ before⟩
  · intro n
    rw [extended.tombstones]
    exact acted.marks ready pointed new Action.noConfusion n

/-- One identifier that has not been dealt with. -/
theorem Acted.act {done : List (ExternalID × Action)} (acted : Acted start done col)
    (ready : start.Ready) (pointed : start.Pointed) {id : ExternalID} {action : Action}
    (new : id ∉ done.map Prod.fst)
    (fits : ∀ vec, action = .replace vec → vec.length = start.config.dim) :
    ∃ next, col.act metric level (id, action) = some next ∧
      Acted start (done ++ [(id, action)]) next := by
  cases action with
  | keep => exact ⟨col, rfl, acted.keep id⟩
  | drop => exact ⟨col.forget id, rfl, acted.drop ready pointed new⟩
  | replace vec => exact acted.replace ready pointed new (fits vec rfl)

/-- Steps that deal with one identifier each, with every identifier once. -/
theorem Acted.foldlM {β : Type} {step : Collection → β → Option Collection}
    {action : β → ExternalID × Action} (ready : start.Ready) (pointed : start.Pointed)
    (agrees : ∀ done col item, Acted start done col → (action item).1 ∉ done.map Prod.fst →
      step col item = col.act metric level (action item))
    {done : List (ExternalID × Action)} {rest : List β} (acted : Acted start done col)
    (once : ((done ++ rest.map action).map Prod.fst).Nodup)
    (fits : ∀ id vec, (id, .replace vec) ∈ rest.map action → vec.length = start.config.dim) :
    ∃ next, rest.foldlM step col = some next ∧ Acted start (done ++ rest.map action) next := by
  induction rest generalizing done col with
  | nil =>
    rw [map_nil, append_nil]
    exact ⟨col, rfl, acted⟩
  | cons first rest ih =>
    have new : (action first).1 ∉ done.map Prod.fst := by
      rw [map_append, nodup_append] at once
      intro mem
      exact once.2.2 _ mem _ mem_cons_self rfl
    rcases @Acted.act start col D K _ metric level done acted ready pointed _ (action first).2 new
      (by
        intro vec isReplace
        apply fits (action first).1 vec
        rw [map_cons, ← isReplace]
        exact mem_cons_self) with ⟨middle, ran, middleActed⟩
    have split : done ++ (first :: rest).map action =
        done ++ [action first] ++ rest.map action := by
      rw [append_assoc, singleton_append, map_cons]
    rw [split] at once ⊢
    rcases ih middleActed once
      (fun id vec mem => fits id vec (mem_cons_of_mem _ mem)) with
      ⟨next, ranRest, nextActed⟩
    refine ⟨next, ?_, nextActed⟩
    rw [foldlM_cons, agrees done col first acted new, ran]
    exact ranRest

end

end Collection

end Theseon.Vector
