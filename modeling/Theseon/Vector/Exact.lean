import Theseon.Vector.History

/-!
# The index is exact

After every call the index of a collection holds exactly the live entries of the
key-value store, each with the vector that is decoded from its entry, as long as the
lengths of what is stored fit the two bytes that the encoding has for them.
`CreateCollection` does not refuse a dimension that does not fit.
-/

namespace Theseon.Vector

open Lib Hnsw
open Std (ExtTreeMap)

/-- The lengths of what a call stores fit in two bytes. -/
def StoreCall.Fits : StoreCall → Prop
  | .createCollection _ cfg => cfg.dim < 2 ^ 16
  | .put _ _ _ metadata _ _ => metadata.Fits
  | _ => True

/-- The index holds the live entries of the collection and nothing else. -/
structure Collection.Exact (name : Bytes) (col : Collection) (kv : KVStore) : Prop where
  uuids : ∀ id ∈ col.ids, id.length = 16
  live : ∀ uuid : UUID, uuid.val ∈ col.ids ↔
    ∃ data, kv.get (makeVectorKey name uuid.val) = some (some data)
  carried : ∀ id n, col.ids[id]? = some n → n ∉ col.graph.tombstones ∧
    ∃ data record, kv.get (makeVectorKey name id) = some (some data) ∧
      decodeVector data = .ok record ∧ col.graph.label n = some (id, record.vector)
  others : ∀ n ∈ col.graph.nodes, n ∉ col.graph.tombstones →
    ∃ id : ExternalID, col.ids[id]? = some n
  capped : 0 < col.config.maxVectors → (col.ids.size : Int) ≤ col.config.maxVectors.toInt

namespace VectorStore

variable {vs next : VectorStore} {collection : Bytes} {id : ExternalID} {vec : Vec}
  {metadata : Metadata} {ver : VectorVersion}

/-- What the mirror does not say: the dimensions, the limits, and that the entries can be
decoded. -/
structure Sound (vs : VectorStore) : Prop where
  dim : ∀ (name : Bytes) (col : Collection), vs.collections[name]? = some col →
    col.config.dim < 2 ^ 16
  capped : ∀ (name : Bytes) (col : Collection), vs.collections[name]? = some col →
    0 < col.config.maxVectors → (col.ids.size : Int) ≤ col.config.maxVectors.toInt
  decodable : ∀ (name : Bytes) (uuid : UUID) (data : Bytes),
    vs.kv.get (makeVectorKey name uuid.val) = some (some data) →
      ∃ record, decodeVector data = .ok record

theorem sound_empty : empty.Sound := by
  constructor
  · rintro name col ⟨⟩
  · rintro name col ⟨⟩
  · rintro name uuid data ⟨⟩

variable {col : Collection}

/-- A collection and one of its entries are replaced. -/
theorem Sound.replace (sound : vs.Sound) {key : Bytes} {value : Option Bytes}
    (dim : col.config.dim < 2 ^ 16)
    (capped : 0 < col.config.maxVectors → (col.ids.size : Int) ≤ col.config.maxVectors.toInt)
    (decodable : ∀ (name : Bytes) (uuid : UUID) (data : Bytes), key = makeVectorKey name uuid.val →
      value = some data → ∃ record, decodeVector data = .ok record) :
    Sound ⟨vs.collections.insert collection col, vs.kv.write key value⟩ := by
  constructor
  · exact forall_insert sound.dim dim
  · exact forall_insert sound.capped capped
  · intro name uuid data found
    rw [KVStore.get_write] at found
    split at found
    · rename_i isKey
      exact decodable name uuid data isKey (Option.some.inj found)
    · exact sound.decodable name uuid data found

theorem Sound.compact (sound : vs.Sound) (key : Bytes) :
    Sound { vs with kv := vs.kv.compact key } :=
  ⟨sound.dim, sound.capped, fun name uuid data found =>
    sound.decodable name uuid data (KVStore.get_compact_live.mp found)⟩

theorem Sound.change (sound : vs.Sound) {call : StoreCall} (fits : call.Fits)
    (change : Change vs call next) : next.Sound := by
  cases change with
  | none => exact sound
  | @created _ cfg _ _ _ _ _ =>
    apply sound.replace
    · exact fits
    · intro limited
      have nonneg : (0 : Int64).toInt < cfg.maxVectors.toInt := Int64.lt_iff_toInt_lt.mp limited
      exact nonneg.le
    · intro other uuid data isKey _
      exact absurd isKey (configKey_ne_vectorKey uuid.property)
  | @stored collection _ _ _ _ _ col _ _ found sized encoded indexed room =>
    apply sound.replace
    · rw [indexed.config]
      exact sound.dim collection col found
    · rw [indexed.config, indexed.ids, ExtTreeMap.size_insert]
      intro limited
      split
      · exact sound.capped collection col found limited
      · rename_i new
        exact room new limited
    · rintro name uuid stored _ ⟨⟩
      have dim := sound.dim collection col found
      rw [← sized] at dim
      exact ⟨_, decodeVector_encodeVector dim fits encoded⟩
  | @deleted collection uuid _ col found =>
    apply sound.replace
    · exact sound.dim collection col found
    · intro limited
      have fewer : (col.ids.erase uuid.val).size ≤ col.ids.size := ExtTreeMap.size_erase_le
      exact (Int.ofNat_le.mpr fewer).trans (sound.capped collection col found limited)
    · rintro name uuid data _ ⟨⟩
  | compacted key => exact sound.compact key

section

variable {D K : Type} [LinearOrder K] {metric : Distance → Metric D K}

/-- No call panics or runs for ever. -/
theorem step_total (ready : vs.Ready) (call : StoreCall) : ∃ next, vs.step metric call = some next
    := by
  cases call with
  | createCollection name cfg => exact ⟨_, rfl⟩
  | put collection uuid vec metadata ver level =>
    rcases @put_spec vs collection uuid.val vec metadata ver level D K _ metric ready with
      ⟨result, next, ran, _⟩
    rw [step, ran]
    exact ⟨next, rfl⟩
  | delete collection uuid ver => exact ⟨_, rfl⟩
  | compact key => exact ⟨_, rfl⟩

/-- An entry that can be decoded has the vector of its node. -/
theorem exact_of_sound (mirrored : vs.Mirrored) (sound : vs.Sound) {name : Bytes}
    (found : vs.collections[name]? = some col) : col.Exact name vs.kv := by
  have mirrors := mirrored.mirrors name col found
  constructor
  · intro id mem
    rcases mem_iff_get?.mp mem with ⟨n, indexed⟩
    rcases mirrors.indexed id n indexed with ⟨_, vec, _, _, _, labelled, _⟩
    exact (mirrors.sized n id vec labelled).1
  · intro uuid
    constructor
    · intro mem
      rcases mem_iff_get?.mp mem with ⟨n, indexed⟩
      rcases mirrors.indexed uuid.val n indexed with ⟨_, _, _, _, data, _, _, stored⟩
      exact ⟨data, stored⟩
    · rintro ⟨data, stored⟩
      exact mirrors.stored uuid.val data uuid.property stored
  · intro id n indexed
    rcases mirrors.indexed id n indexed with ⟨live, vec, _, _, data, labelled, encoded, stored⟩
    rcases mirrors.sized n id vec labelled with ⟨sixteen, sized⟩
    rcases sound.decodable name ⟨id, sixteen⟩ data stored with ⟨record, decoded⟩
    refine ⟨live, data, record, stored, decoded, ?_⟩
    have dim : vec.length < 2 ^ 16 := sized ▸ sound.dim name col found
    rw [vector_of_decodeVector_encodeVector dim encoded decoded, labelled]
  · intro n present live
    cases labelled : col.graph.label n with
    | none => exact absurd present (Graph.label_eq_none_iff.mp labelled)
    | some carried => exact ⟨carried.1, mirrors.sole n carried.1 carried.2 labelled live⟩
  · exact sound.capped name col found

/-- In every history whose lengths fit the encoding, no call fails to return and the
indexes of all collections are exact. -/
theorem index_mirrors_store
    (reached : Reached (step metric) (fun _ call => call.Fits) empty vs) :
    (∀ call, ∃ next, vs.step metric call = some next) ∧
      ∀ (name : Bytes) (col : Collection), vs.collections[name]? = some col →
        col.Exact name vs.kv := by
  have both : vs.Mirrored ∧ vs.Sound := by
    apply reached.invariant fun vs => vs.Mirrored ∧ vs.Sound
    · exact ⟨mirrored_empty, sound_empty⟩
    · intro vs next call both fits stepped
      exact ⟨both.1.step stepped, both.2.change fits (change_of_step both.1.ready stepped)⟩
  constructor
  · exact step_total both.1.ready
  · exact fun name col found => exact_of_sound both.1 both.2 found

/-- A vector without a version is indexed, if there is no limit. -/
theorem put_indexes (ready : vs.Ready) {col : Collection}
    (found : vs.collections[collection]? = some col) (sized : vec.length = col.config.dim)
    (unlimited : ¬ 0 < col.config.maxVectors) {data : Bytes}
    (encoded : encodeVector vec metadata .zero = .ok data) (level : Nat) :
    ∃ next col', vs.put metric collection id vec metadata .zero level = some (.ok (), next) ∧
      next.collections[collection]? = some col' ∧ col'.config = col.config ∧ id ∈ col'.ids := by
  rcases @put_spec vs collection id vec metadata .zero level D K _ metric ready with
    ⟨result, next, ran, effect⟩
  cases effect with
  | collectionNotFound absent => exact absurd (mem_iff_get?.mpr ⟨col, found⟩) absent
  | dimensionMismatch found' mismatch =>
    cases found.symm.trans found'
    exact absurd sized mismatch
  | encode refused => cases encoded.symm.trans refused
  | maxVectors found' limited =>
    cases found.symm.trans found'
    exact absurd limited unlimited
  | stale isStale => cases isStale
  | stored _ found' _ _ indexed _ =>
    cases found.symm.trans found'
    refine ⟨_, _, ran, ExtTreeMap.getElem?_insert_self, indexed.config, ?_⟩
    rw [indexed.ids]
    exact ExtTreeMap.mem_insert_self

end

/-- The store after a collection has been created. -/
def storeWith (cfg : CollectionConfig) : VectorStore :=
  (empty.createCollection [99] cfg).2

theorem mirrored_storeWith (cfg : CollectionConfig) : (storeWith cfg).Mirrored :=
  mirrored_empty.change (change_createCollection empty [99] cfg)

/-- A vector of a small dimension. -/
theorem small_vector_exact :
    ∃ vs col, Reached (step fun _ => Graph.discrete) (fun _ call => call.Fits) empty vs ∧
      vs.collections[([99] : Bytes)]? = some col ∧ smallUUID.val ∈ col.ids ∧
      col.Exact [99] vs.kv := by
  rcases @put_indexes (storeWith smallConfig) [99] smallUUID.val [7] ∅ Nat Nat _
    (fun _ => Graph.discrete) (mirrored_storeWith smallConfig).ready _ rfl rfl (by decide) _ rfl 0
    with ⟨vs, col, ran, found, _, mem⟩
  have created : Reached (step fun _ => Graph.discrete) (fun _ call => call.Fits) empty
      (storeWith smallConfig) :=
    @Reached.step _ _ _ _ _ _ _ (.createCollection [99] smallConfig) .start
      (show 1 < 2 ^ 16 by decide) rfl
  have reached : Reached (step fun _ => Graph.discrete) (fun _ call => call.Fits) empty vs := by
    have fits : (StoreCall.put [99] smallUUID [7] ∅ .zero 0).Fits := fits_empty
    apply created.step fits
    rw [step, ran]
    rfl
  exact ⟨vs, col, reached, found, mem, (index_mirrors_store reached).2 [99] col found⟩

/-! ## A dimension that does not fit -/

/-- The vector that is decoded is shorter than the one that was indexed. -/
theorem not_exact_of_wide (mirrored : vs.Mirrored) {name : Bytes}
    (found : vs.collections[name]? = some col) (wide : 2 ^ 16 ≤ col.config.dim)
    (mem : id ∈ col.ids) : ¬ col.Exact name vs.kv := by
  intro isExact
  rcases mem_iff_get?.mp mem with ⟨n, indexed⟩
  rcases isExact.carried id n indexed with ⟨_, data, record, _, decoded, labelled⟩
  have sized := ((mirrored.mirrors name col found).sized n id record.vector labelled).2
  have short := (decodeVector_spec decoded).2.1
  rw [sized] at short
  exact absurd wide (not_le.mpr short)

def wideConfig : CollectionConfig :=
  { smallConfig with dim := 2 ^ 16 }

/-- A collection whose dimension is written as zero, and a vector of that dimension. -/
def wideWrites : List StoreCall :=
  [.createCollection [99] wideConfig, .put [99] smallUUID (List.replicate (2 ^ 16) 0) ∅ .zero 0]

/-- Both calls succeed, but the vector of the entry is not the one of the node. -/
theorem wide_vector_not_exact :
    ∃ vs col, run (step fun _ => Graph.discrete) empty wideWrites = some vs ∧
      vs.collections[([99] : Bytes)]? = some col ∧ smallUUID.val ∈ col.ids ∧
      ¬ col.Exact [99] vs.kv := by
  rcases @put_indexes (storeWith wideConfig) [99] smallUUID.val (List.replicate (2 ^ 16) 0) ∅ Nat
    Nat _ (fun _ => Graph.discrete) (mirrored_storeWith wideConfig).ready _ rfl
    List.length_replicate (by decide) _ rfl 0 with ⟨vs, col, ran, found, config, mem⟩
  have stepped : (storeWith wideConfig).step (fun _ => Graph.discrete)
      (.put [99] smallUUID (List.replicate (2 ^ 16) 0) ∅ .zero 0) = some vs := by
    rw [step, ran]
    rfl
  have mirrored := (mirrored_storeWith wideConfig).step stepped
  refine ⟨vs, col, ?_, found, mem,
    not_exact_of_wide mirrored found (by rw [config]; exact le_rfl) mem⟩
  have created : step (fun _ => Graph.discrete) empty (.createCollection [99] wideConfig) =
      some (storeWith wideConfig) := rfl
  rw [wideWrites, run, created, Option.bind_some, run, stepped]
  rfl

end VectorStore

end Theseon.Vector
