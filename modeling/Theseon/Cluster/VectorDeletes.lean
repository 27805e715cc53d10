import Theseon.Cluster.QuorumReads
import Theseon.Cluster.VectorSearch
import Theseon.Vector.Lww

/-!
# Deleted vectors in distributed search

The coordinator wants to hide a vector that its own store knows to be deleted.  But the
store does not remember when: a tombstone has the zero version, and a deletion of a
vector that was not there leaves nothing.  So the comparison with the merged version
fails for every version that a clock can draw, and the vector is returned.
-/

namespace Theseon.Vector.VectorStore

open Lib Hnsw
open Std (ExtTreeMap)

variable {vs next : VectorStore} {collection : Bytes} {D K : Type} [LinearOrder K]
  {metric : Distance → Metric D K}

/-- Nothing is stored under the identifier, and the collection is there. -/
structure Lacks (vs : VectorStore) (collection : Bytes) (id : ExternalID) : Prop where
  present : collection ∈ vs.collections
  absent : vs.Represents collection id none

theorem Lacks.write {id : ExternalID} (lacks : vs.Lacks collection id) {name key : Bytes}
    {value : Option Bytes} (different : key ≠ makeVectorKey collection id ∨ value = none)
    (col : Collection) :
    Lacks ⟨vs.collections.insert name col, vs.kv.write key value⟩ collection id := by
  constructor
  · exact ExtTreeMap.mem_insert.mpr (.inr lacks.present)
  · intro data found
    rw [KVStore.get_write] at found
    split at found
    · rename_i same
      rcases different with other | rfl
      · exact other same
      · cases found
    · exact lacks.absent data found

/-- A call that does not write the vector does not bring it back. -/
theorem Lacks.step {uuid : UUID} (lacks : vs.Lacks collection uuid.val) {call : StoreCall}
    (other : ¬ PutsTo collection uuid.val call) (effect : Effect vs call next) :
    next.Lacks collection uuid.val := by
  cases effect with
  | unchanged => exact lacks
  | written _ quiet => exact lacks.write (quiet collection uuid other) _
  | compacted key =>
    constructor
    · exact lacks.present
    · intro data found
      exact lacks.absent data (KVStore.get_compact_live.mp found)

/-- A deletion that is not stale. -/
theorem Mirrored.lacks_delete (mirrored : vs.Mirrored) (present : collection ∈ vs.collections)
    (uuid : UUID) {ver : VectorVersion}
    (notStale : vs.kv.stale (makeVectorKey collection uuid.val) ver = false) :
    (vs.delete collection uuid.val ver).2.Lacks collection uuid.val := by
  have effect := @delete_spec vs collection uuid.val ver
  generalize (vs.delete collection uuid.val ver).1 = result,
    (vs.delete collection uuid.val ver).2 = next at effect ⊢
  cases effect with
  | collectionNotFound absent => exact absurd present absent
  | stale isStale => cases notStale.symm.trans isStale
  | absent _ found absent => exact ⟨present, mirrored.represents_none found uuid.property absent⟩
  | deleted _ _ =>
    constructor
    · exact ExtTreeMap.mem_insert_self
    · intro data found
      rw [KVStore.delete, KVStore.get_write, if_pos rfl] at found
      cases found

/-- The store has applied a deletion of the vector newer than a version, and has not been
asked to write the vector since. -/
def KnowsDeleted (metric : Distance → Metric D K) (vs : VectorStore) (collection : Bytes)
    (uuid : UUID) (version : VectorVersion) : Prop :=
  ∃ before ver, Reached (step metric) (fun _ _ => True) empty before ∧
    collection ∈ before.collections ∧
    before.kv.stale (makeVectorKey collection uuid.val) ver = false ∧ version < ver ∧
    Reached (step metric) (fun _ call => ¬ PutsTo collection uuid.val call)
      (before.delete collection uuid.val ver).2 vs

theorem KnowsDeleted.spec {uuid : UUID} {version : VectorVersion}
    (known : KnowsDeleted metric vs collection uuid version) :
    vs.Mirrored ∧ vs.Lacks collection uuid.val := by
  rcases known with ⟨before, ver, reached, present, notStale, _, since⟩
  have mirrored := mirrored_of_reached reached
  apply since.invariant fun vs => vs.Mirrored ∧ vs.Lacks collection uuid.val
  · exact ⟨mirrored.change (change_delete uuid delete_spec),
      mirrored.lacks_delete present uuid notStale⟩
  · intro vs next call both other stepped
    exact ⟨both.1.step stepped, both.2.step other (effect_of_step both.1.ready stepped)⟩

end Theseon.Vector.VectorStore

namespace Theseon.Cluster

open Lib Theseon.Vector
open Theseon.Hnsw (Vec ExternalID Metric)

variable {D K : Type} [LinearOrder K] {metric : Distance → Metric D K}
  {sorter : (d : Distance) → Sorter fun r : VectorSearchResult D => (metric d).rank r.distance}
  {vs : VectorStore} {self : NodeID} {collection : Bytes} {dist : Vec → D}
  {tagged : List (TaggedResult D)} {r : VectorSearchResult D}

/-- The store has a tombstone, and the version is before the zero one. -/
def HidesDeleted (vs : VectorStore) (collection : Bytes) (id : ExternalID)
    (version : VectorVersion) : Prop :=
  vs.kv.get (makeVectorKey collection id) = some none ∧ VectorVersion.zero.after version = true

/-- Validation drops a result that is not stored exactly if its deletion is hidden;
otherwise it keeps it. -/
theorem validate_of_lacks (lacks : vs.Lacks collection r.id) :
    (HidesDeleted vs collection r.id r.version ∧
      validate vs self collection dist tagged r =
        (none, deleteRepairs self collection tagged r .zero)) ∨
    (¬ HidesDeleted vs collection r.id r.version ∧
      (validate vs self collection dist tagged r).1 = some r) := by
  rw [validate, VectorStore.getLatest, if_neg (not_not_intro lacks.present), HidesDeleted]
  cases found : vs.kv.get (makeVectorKey collection r.id) with
  | none =>
    right
    simp
  | some value =>
    cases value with
    | some data => exact absurd found (lacks.absent data)
    | none =>
      by_cases negative : VectorVersion.zero.after r.version = true
      · left
        simp [negative]
      · right
        simp [negative]

theorem id_of_mem_validate {r : VectorSearchResult D} :
    (∀ kept ∈ (validate vs self collection dist tagged r).1, kept.id = r.id) ∧
      ∀ rt ∈ (validate vs self collection dist tagged r).2, rt.id = r.id := by
  have ofWrite (r : VectorSearchResult D) :
      ∀ rt ∈ writeRepairs self collection tagged r, rt.id = r.id := by
    intro rt mem
    rcases List.mem_map.mp mem with ⟨t, _, rfl⟩
    rfl
  rw [validate]
  split
  · simp
  rename_i latest _
  split
  · simp
  split
  · split
    · constructor
      · rintro kept ⟨⟩
      · intro rt mem
        rcases List.mem_map.mp mem with ⟨t, _, rfl⟩
        rfl
    · constructor
      · rintro kept ⟨⟩
        rfl
      · exact ofWrite _
  constructor
  · rintro kept ⟨⟩
    rfl
  · exact ofWrite r

/-- A search that has a quorum of responses succeeds in a collection of the own store. -/
theorem vectorSearch_eq_ok {v : View} {query : Vec} {late : Nat}
    {responses : List (Reply (List (VectorSearchResult D)))} (mirrored : vs.Mirrored)
    (present : collection ∈ vs.collections)
    (gathered : v.gather collection responses late = some (.ok tagged)) :
    ∃ d, ∀ k, vectorSearch metric sorter v self vs collection query k responses late =
      some (.ok (((sorter d).sort ((validateAll vs self collection ((metric d).dist query)
        tagged).filterMap Prod.fst)).take k,
        vectorReadRepair ((validateAll vs self collection ((metric d).dist query)
          tagged).flatMap Prod.snd))) := by
  rcases mem_iff_get?.mp present with ⟨col, found⟩
  refine ⟨col.dist, fun k => ?_⟩
  have isDist := (mirrored.ready collection col found).distance
  rw [vectorSearch, gathered]
  simp only [Option.map_some, found, isDist]

/-- A vector that the coordinator knows to be deleted after the merged version is hidden
and not repaired, whatever `k`, exactly if there is a tombstone and the merged version
is before the zero version. -/
theorem known_deletion_hidden_iff {v : View} {query : Vec} {late : Nat}
    {responses : List (Reply (List (VectorSearchResult D)))} {uuid : UUID}
    {merged : VectorSearchResult D}
    (gathered : v.gather collection responses late = some (.ok tagged))
    (isMerged : merged ∈ mergeResults tagged) (isID : merged.id = uuid.val)
    (known : VectorStore.KnowsDeleted metric vs collection uuid merged.version) :
    (∀ k results repairs, vectorSearch metric sorter v self vs collection query k responses late =
        some (.ok (results, repairs)) →
      (∀ r ∈ results, r.id ≠ uuid.val) ∧ ∀ rt ∈ repairs, rt.id = uuid.val → rt.deleted = true) ↔
      HidesDeleted vs collection uuid.val merged.version := by
  rcases known.spec with ⟨mirrored, lacks⟩
  rcases @vectorSearch_eq_ok D K _ metric sorter vs self collection tagged v query late responses
    mirrored lacks.present gathered with ⟨d, searched⟩
  rw [← isID] at lacks ⊢
  constructor
  · intro hidden
    by_contra notHidden
    -- With a `k` as large as the number of candidates every validated result is returned.
    have inAll : { merged with distance := (metric d).dist query merged.vector } ∈
        (validateAll vs self collection ((metric d).dist query) tagged).filterMap Prod.fst := by
      apply List.mem_filterMap.mpr
      refine ⟨_, List.mem_map_of_mem isMerged, ?_⟩
      rcases @validate_of_lacks D vs self collection ((metric d).dist query) tagged
        { merged with distance := (metric d).dist query merged.vector } lacks with
        ⟨hides, _⟩ | ⟨_, kept⟩
      · exact absurd hides notHidden
      · exact kept
    have returned := ((sorter d).mem_sort).mpr inAll
    have absent := (hidden _ _ _ (searched _)).1 _ (by rw [List.take_length]; exact returned)
    exact absent rfl
  · intro hides k results repairs ran
    rw [searched k] at ran
    cases ran
    -- An outcome that is about the identifier comes from `merged`.
    have fromMerged (other : VectorSearchResult D) (mem : other ∈ mergeResults tagged)
        (same : other.id = merged.id) : other = merged :=
      List.inj_on_of_nodup_map (merged_mergeResults tagged).once mem isMerged same
    have dropped : validate vs self collection ((metric d).dist query) tagged
        { merged with distance := (metric d).dist query merged.vector } =
          (none, deleteRepairs self collection tagged
            { merged with distance := (metric d).dist query merged.vector } .zero) := by
      rcases @validate_of_lacks D vs self collection ((metric d).dist query) tagged
        { merged with distance := (metric d).dist query merged.vector } lacks with
        ⟨_, isDropped⟩ | ⟨notHides, _⟩
      · exact isDropped
      · exact absurd hides notHides
    constructor
    · intro r mem same
      have kept := ((sorter d).mem_sort).mp (List.mem_of_mem_take mem)
      rcases List.mem_filterMap.mp kept with ⟨outcome, outcomeMem, isKept⟩
      rcases List.mem_map.mp outcomeMem with ⟨other, otherMem, rfl⟩
      have sameID := id_of_mem_validate.1 r isKept
      cases fromMerged other otherMem (sameID.symm.trans same)
      rw [dropped] at isKept
      cases isKept
    · intro rt mem same
      rcases List.mem_flatMap.mp (mem_of_mem_vectorReadRepair mem) with ⟨outcome, outcomeMem, inOut⟩
      rcases List.mem_map.mp outcomeMem with ⟨other, otherMem, rfl⟩
      have sameID := id_of_mem_validate.2 rt inOut
      cases fromMerged other otherMem (sameID.symm.trans same)
      rw [dropped] at inOut
      rcases List.mem_map.mp inOut with ⟨t, _, rfl⟩
      rfl

/-! ## One deleted vector -/

/-- Node `b` still has a vector at the given version; node `c` returns nothing. -/
def staleResponses (version : VectorVersion) : List (Reply (List (VectorSearchResult Nat))) :=
  [([98], some [⟨VectorStore.smallUUID.val, [7], 0, version⟩]), ([99], some [])]

/-- The own store has had the vector. -/
def beforeDelete : List StoreCall :=
  [.createCollection [99] VectorStore.smallConfig,
    .put [99] VectorStore.smallUUID [7] ∅ ⟨1, 0⟩ 0]

/-- A search for the vector at node `a`. -/
def smallSearch (vs : VectorStore) (k : Nat) (version : VectorVersion) :
    Option (Except VectorSearchError (List (VectorSearchResult Nat) × List RepairTarget)) :=
  vectorSearch (fun _ => Hnsw.Graph.discrete) (fun _ => .insertion _) Replicated.threeReplicas [97]
    vs [99] [7] k (staleResponses version) 0

/-- The identifiers that a search returns. -/
def returnedIDs : Except VectorSearchError (List (VectorSearchResult Nat) × List RepairTarget) →
    List ExternalID
  | .ok (results, _) => results.map VectorSearchResult.id
  | .error _ => []

/-- The own store deletes the vector at a later time. -/
theorem exists_deleted_store :
    ∃ vs, (∀ version : VectorVersion, version < ⟨2, 0⟩ →
        VectorStore.KnowsDeleted (fun _ => Hnsw.Graph.discrete) vs [99] VectorStore.smallUUID
          version) ∧
      vs.kv.get (makeVectorKey [99] VectorStore.smallUUID.val) = some none ∧
      (smallSearch vs 1 ⟨1, 0⟩).map returnedIDs = some [VectorStore.smallUUID.val] := by
  have evaluated : ∃ before ∈ runAllowed (VectorStore.step fun _ => Hnsw.Graph.discrete)
      (fun _ _ => True) VectorStore.empty beforeDelete, ([99] : Bytes) ∈ before.collections ∧
        before.kv.stale (makeVectorKey [99] VectorStore.smallUUID.val) ⟨2, 0⟩ = false ∧
        (before.delete [99] VectorStore.smallUUID.val ⟨2, 0⟩).2.kv.get
          (makeVectorKey [99] VectorStore.smallUUID.val) = some none ∧
        (smallSearch (before.delete [99] VectorStore.smallUUID.val ⟨2, 0⟩).2 1
          ⟨1, 0⟩).map returnedIDs = some [VectorStore.smallUUID.val] := by
    decide +kernel
  rcases Reached.of_evaluated evaluated with
    ⟨before, reached, present, notStale, tombstone, returned⟩
  refine ⟨(before.delete [99] VectorStore.smallUUID.val ⟨2, 0⟩).2, ?_, tombstone, returned⟩
  intro version older
  exact ⟨before, ⟨2, 0⟩, reached, present, notStale, older, .start⟩

/-- The deleted vector is returned. -/
theorem known_deletion_returned :
    ∃ vs, VectorStore.KnowsDeleted (fun _ => Hnsw.Graph.discrete) vs [99] VectorStore.smallUUID
        ⟨1, 0⟩ ∧
      ∃ results repairs, smallSearch vs 1 ⟨1, 0⟩ = some (.ok (results, repairs)) ∧
        ∃ r ∈ results, r.id = VectorStore.smallUUID.val := by
  rcases exists_deleted_store with ⟨vs, known, _, returned⟩
  refine ⟨vs, known _ (by decide), ?_⟩
  rcases Option.map_eq_some_iff.mp returned with ⟨outcome, searched, isReturned⟩
  rcases outcome with err | ⟨results, repairs⟩
  · cases isReturned
  refine ⟨results, repairs, searched, ?_⟩
  apply List.mem_map.mp
  rw [show results.map VectorSearchResult.id = _ from isReturned]
  exact List.mem_cons_self

/-- A version before the zero one is hidden. -/
theorem negative_version_hidden :
    ∃ vs, VectorStore.KnowsDeleted (fun _ => Hnsw.Graph.discrete) vs [99] VectorStore.smallUUID
        ⟨-5, 0⟩ ∧
      ∀ k results repairs, smallSearch vs k ⟨-5, 0⟩ = some (.ok (results, repairs)) →
        (∀ r ∈ results, r.id ≠ VectorStore.smallUUID.val) ∧
          ∀ rt ∈ repairs, rt.id = VectorStore.smallUUID.val → rt.deleted = true := by
  rcases exists_deleted_store with ⟨vs, known, tombstone, _⟩
  refine ⟨vs, known _ (by decide), ?_⟩
  have gathered : Replicated.threeReplicas.gather [99] (staleResponses ⟨-5, 0⟩) 0 =
      some (.ok [([98], ⟨VectorStore.smallUUID.val, [7], 0, ⟨-5, 0⟩⟩)]) := by
    rfl
  exact (known_deletion_hidden_iff gathered List.mem_cons_self rfl (known _ (by decide))).mpr
    ⟨tombstone, by decide⟩

end Theseon.Cluster
