import Theseon.Cluster.VectorDeletes

/-!
# Repairing vectors

A repair is a `ReplicateVectorWrite` with the vector and the version that have won.
Search results carry no metadata, so a repair has none: it makes the replica forget the
metadata of the vector at the winning version.
-/

namespace Theseon.Vector

open Lib Hnsw List
open Std (ExtTreeMap)

namespace VectorStore

/-- The latest entry of a live vector is its record. -/
theorem record_of_getLatest {vs : VectorStore} {collection : Bytes} {id : ExternalID}
    {latest : LatestEntry} (isLatest : vs.getLatest collection id = .ok latest)
    (found : latest.found = true) (live : latest.deleted = false) :
    ∃ metadata, vs.record collection id = some ⟨latest.vector, metadata, latest.version⟩ := by
  rw [getLatest] at isLatest
  split at isLatest
  · cases isLatest
  split at isLatest
  · cases isLatest
    cases found
  · cases isLatest
    cases live
  · rename_i data stored
    split at isLatest
    · cases isLatest
    rename_i record decoded
    cases isLatest
    exact ⟨record.metadata, record_eq_some_iff.mpr ⟨data, stored, decoded⟩⟩

/-- Search results are read from the store. -/
theorem record_of_mem_verify {D : Type} {vs : VectorStore} {collection : Bytes} {k : Nat}
    {results : List (Result D)} {candidates : List (SearchResult D)}
    (stored : ∀ r ∈ results, vs.record collection r.id = some r.record) :
    ∀ r ∈ vs.verify collection k results candidates,
      vs.record collection r.id = some r.record := by
  induction candidates generalizing results with
  | nil => exact stored
  | cons c candidates ih =>
    rw [verify]
    split
    · rename_i data found
      split
      · exact ih stored
      rename_i record decoded
      have appended : ∀ r ∈ results ++ [⟨c.externalID, record, c.distance⟩],
          vs.record collection r.id = some r.record := by
        intro r mem
        rcases mem_append.mp mem with old | new
        · exact stored r old
        · cases mem_singleton.mp new
          exact record_eq_some_iff.mpr ⟨data, found, decoded⟩
      dsimp only
      split
      · exact appended
      · exact ih appended
    · exact ih stored

end VectorStore

end Theseon.Vector

namespace Theseon.Cluster

open Lib HLC Theseon.Vector
open Theseon.Hnsw (Vec ExternalID Metric)
open Std (ExtTreeMap)

/-! ## The handlers -/

/-- The store of a node with its clock. -/
structure VectorReplica where
  clock : Clock
  store : VectorStore

inductive VectorRPCError where
  | timestampRequired
  | badID
  | collectionNotFound
  | configDigestMismatch
  | clockUpdate (err : ClockError)
  | put (err : StoreError)
  | search (err : StoreError)
  deriving DecidableEq, Repr

structure VectorWriteRequest where
  collection : Bytes
  id : Bytes
  vector : Vec
  metadata : ExtTreeMap Bytes Bytes
  timestamp : Option Timestamp
  configDigest : UInt64

/-- Values are sent as bytes; `render` prints those that are neither strings nor bytes. -/
def metadataToProto (render : MetaValue → Bytes) (metadata : Metadata) : ExtTreeMap Bytes Bytes :=
  metadata.map fun _ value =>
    match value with
    | .string bytes => bytes
    | .bytes bytes => bytes
    | rest => render rest

def protoMetadataToVectorMeta (metadata : ExtTreeMap Bytes Bytes) : Metadata :=
  metadata.map fun _ bytes => .bytes bytes

/-- The digest of a request agrees, or there is none. -/
def digestAgrees (digest : UInt64) (cfg : CollectionConfig) : Bool :=
  digest = 0 ∨ digest = configDigest cfg

section

variable {D K : Type} [LinearOrder K] (metric : Distance → Metric D K)

/-- The clock has moved even if the vector is refused. -/
def replicateVectorWrite (r : VectorReplica) (pt : Int64) (req : VectorWriteRequest)
    (level : Nat) : Option (Except VectorRPCError Unit × VectorReplica) :=
  match req.timestamp with
  | none => some (.error .timestampRequired, r)
  | some ts =>
    if req.id.length ≠ 16 then some (.error .badID, r)
    else
      match r.store.collections[req.collection]? with
      | none => some (.error .collectionNotFound, r)
      | some col =>
        if digestAgrees req.configDigest col.config = false then
          some (.error .configDigestMismatch, r)
        else
          match r.clock.update pt ts with
          | .error err => some (.error (.clockUpdate err), r)
          | .ok clock =>
            (r.store.put metric req.collection req.id req.vector
              (protoMetadataToVectorMeta req.metadata) (hlcToVersion ts) level).map fun
              | (.ok (), store) => (.ok (), ⟨clock, store⟩)
              | (.error err, store) => (.error (.put err), ⟨clock, store⟩)

/-- A search of the own store has no digest.  The metadata of the results are left out. -/
def replicateVectorSearch (vs : VectorStore) (collection : Bytes) (query : Vec) (k efSearch : Nat)
    (digest : UInt64) : Option (Except VectorRPCError (List (VectorSearchResult D))) :=
  match vs.collections[collection]? with
  | none => some (.error .collectionNotFound)
  | some col =>
    if digestAgrees digest col.config = false then some (.error .configDigestMismatch)
    else
      (vs.search metric collection query k efSearch).map fun
        | .error err => .error (.search err)
        | .ok results => .ok (results.map fun r =>
          ⟨r.id, r.record.vector, r.distance, r.record.version⟩)

end

/-- The request that repairs a vector. -/
def repairRequest (render : MetaValue → Bytes) (digest : UInt64) (rt : RepairTarget) :
    VectorWriteRequest :=
  ⟨rt.collection, rt.id, rt.vec, metadataToProto render rt.metadata,
    some ⟨rt.version.wallTime, rt.version.logical, []⟩, digest⟩

/-! ## Where results and repairs come from -/

section

variable {D K : Type} [LinearOrder K] {metric : Distance → Metric D K}
  {sorter : (d : Distance) → Sorter fun r : VectorSearchResult D => (metric d).rank r.distance}
  {vs : VectorStore} {self : NodeID} {collection : Bytes} {dist : Vec → D}
  {tagged : List (TaggedResult D)} {r : VectorSearchResult D}
  {responses : List (Reply (List (VectorSearchResult D)))}

/-- The store has the vector of a result at its version. -/
def Backs (vs : VectorStore) (collection : Bytes) (r : VectorSearchResult D) : Prop :=
  ∃ metadata, vs.record collection r.id = some ⟨r.vector, metadata, r.version⟩

theorem backs_of_replicateVectorSearch {query : Vec} {k efSearch : Nat} {digest : UInt64}
    {hits : List (VectorSearchResult D)}
    (answered : replicateVectorSearch metric vs collection query k efSearch digest =
      some (.ok hits)) : ∀ hit ∈ hits, Backs vs collection hit := by
  rw [replicateVectorSearch] at answered
  split at answered
  · cases answered
  rename_i col found
  split at answered
  · cases answered
  rcases Option.map_eq_some_iff.mp answered with ⟨outcome, searched, isHits⟩
  cases outcome with
  | error err => cases isHits
  | ok results =>
    cases isHits
    intro hit mem
    rcases List.mem_map.mp mem with ⟨result, resultMem, rfl⟩
    rw [VectorStore.search] at searched
    simp only [found] at searched
    rcases Option.map_eq_some_iff.mp searched with ⟨outcome, _, isResults⟩
    cases outcome with
    | error err => cases isResults
    | ok candidates =>
      cases isResults
      have stored := VectorStore.record_of_mem_verify
        (fun r none => absurd none List.not_mem_nil) result resultMem
      exact ⟨result.record.metadata, stored⟩

/-- Every tagged result is in a response of its node. -/
theorem response_of_mem_gather {v : View} {late : Nat}
    (gathered : v.gather collection responses late = some (.ok tagged)) {t : TaggedResult D}
    (mem : t ∈ tagged) : ∃ hits, (t.1, some hits) ∈ responses ∧ t.2 ∈ hits := by
  rw [View.gather] at gathered
  dsimp only at gathered
  split at gathered
  · cases gathered
  rcases Option.map_eq_some_iff.mp gathered with ⟨⟨got, failures⟩, awaited, isTagged⟩
  dsimp only at isTagged
  split at isTagged
  · cases isTagged
  cases isTagged
  rcases List.mem_flatMap.mp mem with ⟨answer, answerMem, inAnswer⟩
  rcases List.mem_map.mp inAnswer with ⟨hit, hitMem, rfl⟩
  refine ⟨answer.2, ?_, hitMem⟩
  rcases List.mem_append.mp answerMem with inTime | late
  · exact (awaitQuorum_sublist awaited).2 answer inTime
  rcases List.mem_filterMap.mp late with ⟨⟨node, reply⟩, replyMem, isAnswer⟩
  rcases Option.map_eq_some_iff.mp isAnswer with ⟨hits, isHits, rfl⟩
  rw [← show reply = some hits from isHits]
  exact List.mem_of_mem_drop (List.mem_of_mem_take replyMem)

/-- A write repair is for a node that has returned an older version.  Its vector is
one that was returned, or that of the own store. -/
theorem of_mem_validateAll {rt : RepairTarget}
    (mem : rt ∈ (validateAll vs self collection dist tagged).flatMap Prod.snd)
    (isWrite : rt.deleted = false) :
    rt.collection = collection ∧ rt.metadata = ∅ ∧
    (∃ t ∈ tagged, t.1 = rt.nodeID ∧ t.2.id = rt.id ∧ t.2.version < rt.version) ∧
      ((∃ t ∈ tagged, t.2.id = rt.id ∧ t.2.vector = rt.vec ∧ t.2.version = rt.version) ∨
        ∃ metadata, vs.record collection rt.id = some ⟨rt.vec, metadata, rt.version⟩) := by
  rcases List.mem_flatMap.mp mem with ⟨outcome, outcomeMem, inOutcome⟩
  rcases List.mem_map.mp outcomeMem with ⟨d, dMem, rfl⟩
  rcases List.mem_map.mp ((merged_mergeResults tagged).drawn d dMem) with ⟨source, sourceMem, rfl⟩
  have ofWrite (r : VectorSearchResult D) (inWrites : rt ∈ writeRepairs self collection tagged r) :
      (rt.collection = collection ∧ rt.metadata = ∅ ∧ rt.id = r.id ∧ rt.vec = r.vector ∧
        rt.version = r.version) ∧
      ∃ t ∈ tagged, t.1 = rt.nodeID ∧ t.2.id = rt.id ∧ t.2.version < rt.version := by
    rcases List.mem_map.mp inWrites with ⟨t, tMem, rfl⟩
    rcases List.mem_filter.mp tMem with ⟨inTagged, isStale⟩
    rcases of_decide_eq_true isStale with ⟨sameID, _, newer⟩
    exact ⟨⟨rfl, rfl, rfl, rfl, rfl⟩, t, inTagged, rfl, sameID, VectorVersion.after_iff_lt.mp newer⟩
  rw [validate] at inOutcome
  split at inOutcome
  · exact absurd inOutcome List.not_mem_nil
  rename_i latest isLatest
  split at inOutcome
  · exact absurd inOutcome List.not_mem_nil
  rename_i found
  split at inOutcome
  · split at inOutcome
    · rcases List.mem_map.mp inOutcome with ⟨t, _, rfl⟩
      cases isWrite
    · rename_i live
      rcases ofWrite _ inOutcome with ⟨⟨col, metadata, id, vec, version⟩, older⟩
      refine ⟨col, metadata, older, .inr ?_⟩
      rw [id, vec, version]
      exact VectorStore.record_of_getLatest isLatest (Bool.not_eq_false _ ▸ found)
        (Bool.not_eq_true _ ▸ live)
  · rcases ofWrite _ inOutcome with ⟨⟨col, metadata, id, vec, version⟩, older⟩
    exact ⟨col, metadata, older, .inl ⟨source, sourceMem, id.symm, vec.symm, version.symm⟩⟩

theorem metadataToProto_empty (render : MetaValue → Bytes) :
    protoMetadataToVectorMeta (metadataToProto render ∅) = ∅ :=
  rfl

/-- A handler that succeeds has put the vector. -/
theorem put_of_replicateVectorWrite {replica repaired : VectorReplica} {pt : Int64}
    {req : VectorWriteRequest} {level : Nat}
    (applied : replicateVectorWrite metric replica pt req level = some (.ok (), repaired)) :
    req.id.length = 16 ∧ ∃ ts, req.timestamp = some ts ∧
      replica.store.put metric req.collection req.id req.vector
        (protoMetadataToVectorMeta req.metadata) (hlcToVersion ts) level =
          some (.ok (), repaired.store) := by
  rw [replicateVectorWrite] at applied
  split at applied
  · cases applied
  rename_i ts isTimestamp
  split at applied
  · cases applied
  rename_i sixteen
  split at applied
  · cases applied
  split at applied
  · cases applied
  split at applied
  · cases applied
  rcases Option.map_eq_some_iff.mp applied with ⟨⟨result, store⟩, ran, isResult⟩
  cases result with
  | error err => cases isResult
  | ok done =>
    cases isResult
    exact ⟨not_not.mp sixteen, ts, isTimestamp, ran⟩

/-- What a repair leaves on a replica that had an older version. -/
theorem record_of_repair {replica repaired : VectorReplica} {pt : Int64} {level : Nat}
    {render : MetaValue → Bytes} {digest : UInt64} {rt : RepairTarget} {old : VectorRecord}
    (reached : Reached (VectorStore.step metric) (fun _ _ => True) VectorStore.empty replica.store)
    (held : replica.store.record rt.collection rt.id = some old) (older : old.version < rt.version)
    (noMetadata : rt.metadata = ∅) (fits : rt.vec.length < 2 ^ 16)
    (applied : replicateVectorWrite metric replica pt (repairRequest render digest rt) level =
      some (.ok (), repaired)) :
    repaired.store.record rt.collection rt.id = some ⟨rt.vec, ∅, rt.version⟩ := by
  rcases put_of_replicateVectorWrite applied with ⟨_, ts, isTimestamp, ran⟩
  cases isTimestamp
  rcases VectorStore.record_eq_some_iff.mp held with ⟨data, stored, decoded⟩
  have mirrored := VectorStore.mirrored_of_reached reached
  rcases @VectorStore.put_spec replica.store rt.collection rt.id rt.vec
    (protoMetadataToVectorMeta (metadataToProto render rt.metadata)) rt.version level D K _ metric
    mirrored.ready with ⟨result, next, ran', effect⟩
  cases ran.symm.trans ran'
  rw [noMetadata, metadataToProto_empty] at effect
  generalize repaired.store = next at effect ⊢
  cases effect with
  | stale isStale =>
    -- The stored version is older, so the write is not skipped.
    rw [KVStore.stale, stored] at isStale
    simp only [(decodeVector_spec decoded).1, VectorVersion.after_iff_lt.mpr older] at isStale
    simp at isStale
  | stored _ _ _ encoded _ =>
    rcases decodeVector_encodeVector_empty fits rt.version with ⟨data', encoded', decoded'⟩
    cases encoded.symm.trans encoded'
    apply VectorStore.record_eq_some_iff.mpr
    refine ⟨_, ?_, decoded'⟩
    rw [KVStore.put, KVStore.get_write, if_pos rfl]

/-- A replica that is repaired has the record of a replica that holds the winning
version exactly if that record has the winning vector and no metadata. -/
theorem write_repair_reproduces_iff {v : View} {query : Vec} {k late : Nat}
    {replicas : NodeID → VectorReplica} {results : List (VectorSearchResult D)}
    {repairs : List RepairTarget} {rt : RepairTarget} {repaired : VectorReplica} {pt : Int64}
    {level : Nat} {render : MetaValue → Bytes} {digest : UInt64}
    (reached : ∀ x, Reached (VectorStore.step metric) (fun _ _ => True) VectorStore.empty
      (replicas x).store)
    (answered : ∀ x hits, (x, some hits) ∈ responses → ∃ query k efSearch digest,
      replicateVectorSearch metric (replicas x).store collection query k efSearch digest =
        some (.ok hits))
    (searched : vectorSearch metric sorter v self (replicas self).store collection query k responses
      late = some (.ok (results, repairs)))
    (sent : rt ∈ repairs) (isWrite : rt.deleted = false)
    (applied : replicateVectorWrite metric (replicas rt.nodeID) pt (repairRequest render digest rt)
      level = some (.ok (), repaired)) :
    (∃ winner metadata, (replicas winner).store.record collection rt.id =
      some ⟨rt.vec, metadata, rt.version⟩) ∧
    ∀ winner record, (replicas winner).store.record collection rt.id = some record →
      record.version = rt.version →
      (repaired.store.record collection rt.id = some record ↔
        record.vector = rt.vec ∧ record.metadata = ∅) := by
  rw [vectorSearch] at searched
  rcases Option.map_eq_some_iff.mp searched with ⟨outcome, gathered, isOutcome⟩
  cases outcome with
  | error err => cases isOutcome
  | ok tagged =>
    dsimp only at isOutcome
    split at isOutcome
    · cases isOutcome
    split at isOutcome
    · cases isOutcome
    cases isOutcome
    have backs (t : TaggedResult D) (mem : t ∈ tagged) :
        Backs (replicas t.1).store collection t.2 := by
      rcases response_of_mem_gather gathered mem with ⟨hits, inResponses, inHits⟩
      rcases answered t.1 hits inResponses with ⟨_, _, _, _, answer⟩
      exact backs_of_replicateVectorSearch answer t.2 inHits
    rcases of_mem_validateAll (mem_of_mem_vectorReadRepair sent) isWrite with
      ⟨rfl, noMetadata, ⟨t, tMem, isNode, isID, older⟩, source⟩
    have winner : ∃ winner metadata, (replicas winner).store.record rt.collection rt.id =
        some ⟨rt.vec, metadata, rt.version⟩ := by
      rcases source with ⟨w, wMem, wID, wVec, wVersion⟩ | ⟨metadata, own⟩
      · rcases backs w wMem with ⟨metadata, stored⟩
        rw [wID, wVec, wVersion] at stored
        exact ⟨w.1, metadata, stored⟩
      · exact ⟨self, metadata, own⟩
    refine ⟨winner, ?_⟩
    rcases winner with ⟨_, _, stored⟩
    rcases VectorStore.record_eq_some_iff.mp stored with ⟨_, _, decoded⟩
    rcases backs t tMem with ⟨_, held⟩
    rw [isNode, isID] at held
    have outcome := record_of_repair (reached rt.nodeID) held older noMetadata
      (decodeVector_spec decoded).2.1 applied
    intro other record _ sameVersion
    rw [outcome, Option.some.injEq]
    constructor
    · rintro rfl
      exact ⟨rfl, rfl⟩
    · rintro ⟨sameVector, isEmpty⟩
      rcases record with ⟨vector, metadata, version⟩
      cases sameVector
      cases sameVersion
      cases isEmpty
      rfl

end

/-! ## One repair -/

/-- The calls that leave one vector in the store of a node. -/
def oneVector (vec : Vec) (metadata : Metadata) (version : VectorVersion) : List StoreCall :=
  [.createCollection [99] VectorStore.smallConfig,
    .put [99] VectorStore.smallUUID vec metadata version 0]

/-- Node `b` has an older store than the others. -/
def repairScene (old new : VectorStore) (x : NodeID) : VectorReplica :=
  ⟨.new x, if x = [98] then old else new⟩

/-- The answer of a store to a search. -/
def sceneAnswer (vs : VectorStore) : Option (List (VectorSearchResult Nat)) :=
  match replicateVectorSearch (fun _ => Hnsw.Graph.discrete) vs [99] [7] 4 0 0 with
  | some (.ok hits) => some hits
  | _ => none

/-- Nodes `b` and `c` answer. -/
def sceneResponses (old new : VectorStore) : List (Reply (List (VectorSearchResult Nat))) :=
  [([98], sceneAnswer old), ([99], sceneAnswer new)]

def sceneSearch (old new : VectorStore) :
    Option (Except VectorSearchError (List (VectorSearchResult Nat) × List RepairTarget)) :=
  vectorSearch (fun _ => Hnsw.Graph.discrete) (fun _ => .insertion _) Replicated.threeReplicas [97]
    (repairScene old new [97]).store [99] [7] 1 (sceneResponses old new) 0

def sceneWrite (old new : VectorStore) (rt : RepairTarget) :
    Option (Except VectorRPCError Unit × VectorReplica) :=
  replicateVectorWrite (fun _ => Hnsw.Graph.discrete) (repairScene old new rt.nodeID) 0
    (repairRequest (fun _ => []) 0 rt) 0

/-- One repair is sent and applied; the numbers of metadata fields of the new record and
of the repaired one, and whether the new record has won. -/
def sceneOutcome (old new : VectorStore) : Option (Bool × Option (Nat × Bool) × Option Nat) :=
  match sceneSearch old new with
  | some (.ok (_, rt :: _)) =>
    match sceneWrite old new rt with
    | some (.ok (), repaired) =>
      some (rt.deleted,
        (new.record [99] rt.id).map fun record =>
          (record.metadata.size, record.version = rt.version ∧ record.vector = rt.vec),
        (repaired.store.record [99] rt.id).map fun record => record.metadata.size)
    | _ => none
  | _ => none

theorem scene_answered (old new : VectorStore) (x : NodeID)
    (hits : List (VectorSearchResult Nat)) (mem : (x, some hits) ∈ sceneResponses old new) :
    ∃ query k efSearch digest, replicateVectorSearch (fun _ => Hnsw.Graph.discrete)
      (repairScene old new x).store [99] query k efSearch digest = some (.ok hits) := by
  have ofAnswer {vs : VectorStore} (isAnswer : some hits = sceneAnswer vs) :
      replicateVectorSearch (fun _ => Hnsw.Graph.discrete) vs [99] [7] 4 0 0 =
        some (.ok hits) := by
    rw [sceneAnswer] at isAnswer
    split at isAnswer
    · rename_i answered
      cases isAnswer
      exact answered
    · cases isAnswer
  refine ⟨[7], 4, 0, 0, ?_⟩
  rcases List.mem_cons.mp mem with first | rest
  · rcases Prod.mk.inj first with ⟨rfl, isAnswer⟩
    exact ofAnswer isAnswer
  · rcases Prod.mk.inj (List.mem_singleton.mp rest) with ⟨rfl, isAnswer⟩
    exact ofAnswer isAnswer

/-- Two stores that the calls lead to, and what a repair does. -/
def sceneRun (metadata : Metadata) : Option (Bool × Option (Nat × Bool) × Option Nat) :=
  (runAllowed (VectorStore.step fun _ => Hnsw.Graph.discrete) (fun _ _ => True) VectorStore.empty
    (oneVector [7] ∅ ⟨1, 0⟩)).bind fun old =>
      (runAllowed (VectorStore.step fun _ => Hnsw.Graph.discrete) (fun _ _ => True)
        VectorStore.empty (oneVector [8] metadata ⟨2, 0⟩)).bind fun new => sceneOutcome old new

/-- Two stores that the calls lead to, a write repair that the search sends, and the
record that has won. -/
structure SceneRepair where
  old : VectorStore
  new : VectorStore
  results : List (VectorSearchResult Nat)
  repairs : List RepairTarget
  rt : RepairTarget
  repaired : VectorReplica
  record : VectorRecord
  reached : ∀ x, Reached (VectorStore.step fun _ => Hnsw.Graph.discrete) (fun _ _ => True)
    VectorStore.empty (repairScene old new x).store
  searched : sceneSearch old new = some (.ok (results, repairs))
  sent : rt ∈ repairs
  isWrite : rt.deleted = false
  written : sceneWrite old new rt = some (.ok (), repaired)
  held : (repairScene old new [99]).store.record [99] rt.id = some record
  sameVersion : record.version = rt.version
  sameVector : record.vector = rt.vec

/-- The record that the repair leaves. -/
def SceneRepair.left (r : SceneRepair) : Option VectorRecord :=
  r.repaired.store.record [99] r.rt.id

theorem sceneRun_spec {metadata : Metadata} {fields : Nat} {left : Option Nat}
    (ran : sceneRun metadata = some (false, some (fields, true), left)) :
    ∃ r : SceneRepair, r.record.metadata.size = fields ∧
      r.left.map (fun record => record.metadata.size) = left := by
  rcases Option.bind_eq_some_iff.mp ran with ⟨old, oldRan, ran⟩
  rcases Option.bind_eq_some_iff.mp ran with ⟨new, newRan, outcome⟩
  rw [sceneOutcome] at outcome
  split at outcome
  · rename_i results rt rest searched
    split at outcome
    · rename_i repaired written
      rcases Prod.mk.inj (Option.some.inj outcome) with ⟨isWrite, outcome⟩
      rcases Prod.mk.inj outcome with ⟨won, isLeft⟩
      rcases Option.map_eq_some_iff.mp won with ⟨record, held, isWon⟩
      rcases Prod.mk.inj isWon with ⟨isFields, same⟩
      rcases of_decide_eq_true same with ⟨sameVersion, sameVector⟩
      refine ⟨⟨old, new, results, rt :: rest, rt, repaired, record, fun x => ?_, searched,
        List.mem_cons_self, isWrite, written, held, sameVersion, sameVector⟩, isFields, isLeft⟩
      rw [repairScene]
      dsimp only
      split
      · exact Reached.start.runAllowed oldRan
      · exact Reached.start.runAllowed newRan
    · cases outcome
  · cases outcome

/-- A repair loses the metadata of the winning record. -/
theorem repair_drops_metadata : ∃ r : SceneRepair, r.left ≠ some r.record := by
  have evaluated : sceneRun ((∅ : Metadata).insert [120] (.string [121])) =
      some (false, some (1, true), some 0) := by
    decide +kernel
  rcases sceneRun_spec evaluated with ⟨r, oneField, fields⟩
  refine ⟨r, fun reproduced => ?_⟩
  rw [reproduced, Option.map_some, oneField] at fields
  cases fields

/-- A record without metadata is reproduced. -/
theorem repair_without_metadata : ∃ r : SceneRepair, r.left = some r.record := by
  have evaluated : sceneRun ∅ = some (false, some (0, true), some 0) := by
    decide +kernel
  rcases sceneRun_spec evaluated with ⟨r, noField, _⟩
  refine ⟨r, ?_⟩
  apply ((write_repair_reproduces_iff r.reached (scene_answered r.old r.new) r.searched r.sent
    r.isWrite r.written).2 [99] r.record r.held r.sameVersion).mpr
  exact ⟨r.sameVector, ExtTreeMap.eq_empty_iff_size_eq_zero.mpr noField⟩

end Theseon.Cluster
