import Theseon.Cluster.Coordinator
import Theseon.Vector.Store

/-!
# Distributed vector search

The coordinator asks all readable replicas, waits for a quorum, and takes the responses
that are already there.  Of every identifier it keeps the result with the newest
version, measures the distance again, and compares with its own store.  A replica that
has returned an older version is repaired in the background.

The responses are in the order of their arrival; `none` is a failure.  `late` is the
number of responses that are there when the quorum is met.
-/

namespace Theseon.Cluster

open Lib HLC Theseon.Vector List
open Theseon.Hnsw (Vec ExternalID Metric)

structure VectorSearchResult (D : Type) where
  id : ExternalID
  vector : Vec
  distance : D
  version : VectorVersion
  deriving DecidableEq, Repr

inductive VectorSearchError where
  | notEnoughReadable (readable need : Nat)
  | quorumNotMet (got need : Nat)
  | distanceFunc (err : StoreError)
  deriving DecidableEq, Repr

/-- A vector to be repaired on a node that has returned an older version. -/
structure RepairTarget where
  nodeID : NodeID
  collection : Bytes
  id : ExternalID
  vec : Vec
  metadata : Metadata
  version : VectorVersion
  deleted : Bool

/-- A result with the node that has returned it. -/
abbrev TaggedResult (D : Type) := NodeID × VectorSearchResult D

variable {D : Type}

/-! ## Collecting and merging -/

def tagResults (answers : List (NodeID × List (VectorSearchResult D))) : List (TaggedResult D) :=
  answers.flatMap fun answer => answer.2.map fun r => (answer.1, r)

/-- Wait for the quorum, then take what is already there. -/
def View.gather (v : View) (collection : Bytes)
    (responses : List (Reply (List (VectorSearchResult D)))) (late : Nat) :
    Option (Except VectorSearchError (List (TaggedResult D))) :=
  let readable := (v.readable collection).length
  if readable < v.cfg.readQuorum then
    some (.error (.notEnoughReadable readable v.cfg.readQuorum))
  else
    (awaitQuorum v.cfg.readQuorum readable responses).map fun (got, failures) =>
      if got.length < v.cfg.readQuorum then
        .error (.quorumNotMet got.length v.cfg.readQuorum)
      else
        let heard := got.length + failures
        let ready := (responses.drop heard).take (min late (readable - heard))
        .ok (tagResults (got ++ ready.filterMap fun r => r.2.map fun answer => (r.1, answer)))

/-- Keep the newer of two results of one identifier in its place. -/
def mergeResult (deduped : List (VectorSearchResult D)) (r : VectorSearchResult D) :
    List (VectorSearchResult D) :=
  if deduped.any fun d => d.id = r.id then
    deduped.map fun d => if d.id = r.id ∧ r.version.after d.version = true then r else d
  else deduped ++ [r]

def mergeResults (tagged : List (TaggedResult D)) : List (VectorSearchResult D) :=
  (tagged.map Prod.snd).foldl mergeResult []

/-! ## Validation -/

/-- The nodes other than the own one that have returned an older version are to be
given the winning one.  The metadata are not known here. -/
def writeRepairs (self : NodeID) (collection : Bytes) (tagged : List (TaggedResult D))
    (r : VectorSearchResult D) : List RepairTarget :=
  (tagged.filter fun t => t.2.id = r.id ∧ t.1 ≠ self ∧ r.version.after t.2.version = true).map
    fun t => ⟨t.1, collection, r.id, r.vector, ∅, r.version, false⟩

def deleteRepairs (self : NodeID) (collection : Bytes) (tagged : List (TaggedResult D))
    (r : VectorSearchResult D) (version : VectorVersion) : List RepairTarget :=
  (tagged.filter fun t => t.2.id = r.id ∧ t.1 ≠ self).map
    fun t => ⟨t.1, collection, r.id, [], ∅, version, true⟩

/-- Compare a result with the own store.  Nothing is kept of one that is known to be
deleted. -/
def validate (vs : VectorStore) (self : NodeID) (collection : Bytes) (dist : Vec → D)
    (tagged : List (TaggedResult D)) (r : VectorSearchResult D) :
    Option (VectorSearchResult D) × List RepairTarget :=
  match vs.getLatest collection r.id with
  | .error _ => (some r, [])
  | .ok latest =>
    if latest.found = false then (some r, [])
    else if latest.version.after r.version then
      if latest.deleted then (none, deleteRepairs self collection tagged r latest.version)
      else
        let r := { r with
          vector := latest.vector
          distance := dist latest.vector
          version := latest.version }
        (some r, writeRepairs self collection tagged r)
    else (some r, writeRepairs self collection tagged r)

/-- One repair is sent for a node and an identifier, the first. -/
def sendRepair (sent : List RepairTarget) (r : RepairTarget) : List RepairTarget :=
  if sent.any fun s => s.nodeID = r.nodeID ∧ s.id = r.id then sent else sent ++ [r]

def vectorReadRepair (repairs : List RepairTarget) : List RepairTarget :=
  repairs.foldl sendRepair []

section

variable {K : Type} [LinearOrder K] (metric : Distance → Metric D K)
  (sorter : (d : Distance) → Sorter fun r : VectorSearchResult D => (metric d).rank r.distance)

/-- What is validated of the merged results, with the distances measured again. -/
def validateAll (vs : VectorStore) (self : NodeID) (collection : Bytes) (dist : Vec → D)
    (tagged : List (TaggedResult D)) :
    List (Option (VectorSearchResult D) × List RepairTarget) :=
  (mergeResults tagged).map fun r =>
    validate vs self collection dist tagged { r with distance := dist r.vector }

/-- The closest `k` results and the repairs that are sent. -/
def vectorSearch (v : View) (self : NodeID) (vs : VectorStore) (collection : Bytes) (query : Vec)
    (k : Nat) (responses : List (Reply (List (VectorSearchResult D)))) (late : Nat) :
    Option (Except VectorSearchError (List (VectorSearchResult D) × List RepairTarget)) :=
  (v.gather collection responses late).map fun
    | .error err => .error err
    | .ok tagged =>
      match vs.collections[collection]? with
      | none => .error (.distanceFunc .collectionNotFound)
      | some col =>
        match metricToDistanceFunc col.config.metric with
        | none => .error (.distanceFunc (.unknownMetric col.config.metric))
        | some d =>
          let outcomes :=
            validateAll vs self collection ((metric d).dist query) tagged
          .ok (((sorter d).sort (outcomes.filterMap Prod.fst)).take k,
            vectorReadRepair (outcomes.flatMap Prod.snd))

end

/-! ## What is merged -/

/-- Every identifier is there once, with the newest version that was returned. -/
structure Merged (results deduped : List (VectorSearchResult D)) : Prop where
  drawn : ∀ d ∈ deduped, d ∈ results
  covers : ∀ r ∈ results, ∃ d ∈ deduped, d.id = r.id
  newest : ∀ d ∈ deduped, ∀ r ∈ results, r.id = d.id → r.version ≤ d.version
  once : (deduped.map VectorSearchResult.id).Nodup

theorem mergeResult_ids (deduped : List (VectorSearchResult D)) (r : VectorSearchResult D) :
    (deduped.map fun d => if d.id = r.id ∧ r.version.after d.version = true then r else d).map
      VectorSearchResult.id = deduped.map VectorSearchResult.id := by
  rw [map_map]
  apply map_congr_left
  intro d _
  rw [Function.comp_apply]
  split
  · rename_i replaced
    exact replaced.1.symm
  · rfl

theorem Merged.step {results deduped : List (VectorSearchResult D)}
    (merged : Merged results deduped) (r : VectorSearchResult D) :
    Merged (results ++ [r]) (mergeResult deduped r) := by
  rw [mergeResult]
  split
  · rename_i seen
    simp only [any_eq_true, decide_eq_true_eq] at seen
    constructor
    · intro d mem
      rcases mem_map.mp mem with ⟨old, oldMem, rfl⟩
      split
      · exact mem_append_right _ mem_cons_self
      · exact mem_append_left _ (merged.drawn old oldMem)
    · intro other mem
      have inIDs : other.id ∈ deduped.map VectorSearchResult.id := by
        rcases mem_append.mp mem with old | new
        · rcases merged.covers other old with ⟨d, dMem, same⟩
          exact same ▸ mem_map_of_mem dMem
        cases mem_singleton.mp new
        rcases seen with ⟨d, dMem, same⟩
        exact same ▸ mem_map_of_mem dMem
      rw [← mergeResult_ids deduped r] at inIDs
      rcases mem_map.mp inIDs with ⟨d, dMem, same⟩
      exact ⟨d, dMem, same⟩
    · intro d mem other otherMem same
      rcases mem_map.mp mem with ⟨old, oldMem, rfl⟩
      split at same
      · rename_i replaced
        rw [if_pos replaced]
        have newer := VectorVersion.after_iff_lt.mp replaced.2
        rcases mem_append.mp otherMem with before | new
        · exact (merged.newest old oldMem other before (same.trans replaced.1.symm)).trans newer.le
        · cases mem_singleton.mp new
          exact le_rfl
      rename_i kept
      rw [if_neg kept]
      rcases mem_append.mp otherMem with before | new
      · exact merged.newest old oldMem other before same
      cases mem_singleton.mp new
      by_contra above
      exact kept ⟨same.symm, VectorVersion.after_iff_lt.mpr (not_le.mp above)⟩
    · rw [mergeResult_ids]
      exact merged.once
  · rename_i unseen
    simp only [any_eq_true, decide_eq_true_eq, not_exists, not_and] at unseen
    constructor
    · intro d mem
      rcases mem_append.mp mem with old | new
      · exact mem_append_left _ (merged.drawn d old)
      · exact mem_append_right _ new
    · intro other mem
      rcases mem_append.mp mem with old | new
      · rcases merged.covers other old with ⟨d, dMem, same⟩
        exact ⟨d, mem_append_left _ dMem, same⟩
      · exact ⟨other, mem_append_right _ new, rfl⟩
    · intro d mem other otherMem same
      rcases mem_append.mp mem with old | new
      · rcases mem_append.mp otherMem with before | new
        · exact merged.newest d old other before same
        · cases mem_singleton.mp new
          exact absurd same.symm (unseen d old)
      cases mem_singleton.mp new
      rcases mem_append.mp otherMem with before | new
      · rcases merged.covers other before with ⟨d, dMem, isSame⟩
        exact absurd (isSame.trans same) (unseen d dMem)
      · cases mem_singleton.mp new
        exact le_rfl
    · rw [map_append, nodup_append]
      refine ⟨merged.once, nodup_singleton _, ?_⟩
      rintro id mem _ (_ | ⟨_, ⟨⟩⟩) rfl
      rcases mem_map.mp mem with ⟨d, dMem, same⟩
      exact unseen d dMem same

theorem Merged.foldl {before deduped : List (VectorSearchResult D)}
    (merged : Merged before deduped) (rest : List (VectorSearchResult D)) :
    Merged (before ++ rest) (rest.foldl mergeResult deduped) := by
  induction rest generalizing before deduped with
  | nil =>
    rw [append_nil]
    exact merged
  | cons r rest ih =>
    have next := ih (merged.step r)
    rwa [append_assoc, singleton_append] at next

theorem merged_mergeResults (tagged : List (TaggedResult D)) :
    Merged (tagged.map Prod.snd) (mergeResults tagged) := by
  have start : Merged ([] : List (VectorSearchResult D)) [] :=
    ⟨by simp, by simp, by simp, nodup_nil⟩
  exact start.foldl _

theorem mem_foldl_sendRepair {sent rest : List RepairTarget} {rt : RepairTarget}
    (mem : rt ∈ rest.foldl sendRepair sent) : rt ∈ sent ∨ rt ∈ rest := by
  induction rest generalizing sent with
  | nil => exact .inl mem
  | cons r rest ih =>
    rcases ih mem with inSent | later
    · rw [sendRepair] at inSent
      split at inSent
      · exact .inl inSent
      rcases mem_append.mp inSent with old | new
      · exact .inl old
      · exact .inr (mem_cons.mpr (.inl (mem_singleton.mp new)))
    · exact .inr (mem_cons_of_mem _ later)

/-- Only what is asked for is sent. -/
theorem mem_of_mem_vectorReadRepair {repairs : List RepairTarget} {rt : RepairTarget}
    (mem : rt ∈ vectorReadRepair repairs) : rt ∈ repairs := by
  rcases mem_foldl_sendRepair mem with inSent | asked
  · exact absurd inSent not_mem_nil
  · exact asked

end Theseon.Cluster
