import Theseon.Vector.Mirror

/-!
# Histories of the store

The calls of the store with what they can do, and the invariant that every state has
which they lead to from the empty store.
-/

namespace Theseon.Vector

open Lib Hnsw
open Std (ExtTreeMap)

/-- The identifiers that callers can pass. -/
abbrev UUID := { id : ExternalID // id.length = 16 }

/-- A call of the store, or a compaction of the key-value store. -/
inductive StoreCall where
  | createCollection (name : Bytes) (cfg : CollectionConfig)
  | put (collection : Bytes) (id : UUID) (vec : Vec) (metadata : Metadata) (ver : VectorVersion)
      (level : Nat)
  | delete (collection : Bytes) (id : UUID) (ver : VectorVersion)
  | compact (key : Bytes)

namespace VectorStore

variable {vs next : VectorStore} {collection : Bytes} {id : ExternalID} {vec : Vec}
  {metadata : Metadata} {ver : VectorVersion} {level : Nat}

/-! ## What a call can do -/

/-- What a write can lead to. -/
inductive PutEffect (vs : VectorStore) (collection : Bytes) (id : ExternalID) (vec : Vec)
    (metadata : Metadata) (ver : VectorVersion) : Except StoreError Unit → VectorStore → Prop where
  | collectionNotFound (absent : collection ∉ vs.collections) :
      PutEffect vs collection id vec metadata ver (.error .collectionNotFound) vs
  | dimensionMismatch {col : Collection} (found : vs.collections[collection]? = some col)
      (mismatch : vec.length ≠ col.config.dim) :
      PutEffect vs collection id vec metadata ver (.error .dimensionMismatch) vs
  | encode {err : EncodeError} (refused : encodeVector vec metadata ver = .error err) :
      PutEffect vs collection id vec metadata ver (.error (.encode err)) vs
  | maxVectors {col : Collection} (found : vs.collections[collection]? = some col)
      (limited : 0 < col.config.maxVectors) :
      PutEffect vs collection id vec metadata ver
        (.error (.maxVectors collection col.config.maxVectors)) vs
  | stale (isStale : vs.kv.stale (makeVectorKey collection id) ver = true) :
      PutEffect vs collection id vec metadata ver (.ok ()) vs
  | stored {col col' : Collection} {data : Bytes}
      (notStale : vs.kv.stale (makeVectorKey collection id) ver = false)
      (found : vs.collections[collection]? = some col) (fits : vec.length = col.config.dim)
      (encoded : encodeVector vec metadata ver = .ok data) (indexed : col.Indexed id vec col')
      (room : id ∉ col.ids → 0 < col.config.maxVectors →
        (col.ids.size : Int) < col.config.maxVectors.toInt) :
      PutEffect vs collection id vec metadata ver (.ok ())
        ⟨vs.collections.insert collection col', vs.kv.put (makeVectorKey collection id) data⟩

/-- What a deletion can lead to. -/
inductive DeleteEffect (vs : VectorStore) (collection : Bytes) (id : ExternalID)
    (ver : VectorVersion) : Except StoreError Unit → VectorStore → Prop where
  | collectionNotFound (absent : collection ∉ vs.collections) :
      DeleteEffect vs collection id ver (.error .collectionNotFound) vs
  | stale (isStale : vs.kv.stale (makeVectorKey collection id) ver = true) :
      DeleteEffect vs collection id ver (.ok ()) vs
  | absent {col : Collection} (notStale : vs.kv.stale (makeVectorKey collection id) ver = false)
      (found : vs.collections[collection]? = some col) (absent : id ∉ col.ids) :
      DeleteEffect vs collection id ver (.ok ()) vs
  | deleted {col : Collection} (notStale : vs.kv.stale (makeVectorKey collection id) ver = false)
      (found : vs.collections[collection]? = some col) :
      DeleteEffect vs collection id ver (.ok ())
        ⟨vs.collections.insert collection { col with
            graph := col.unlink id col.graph
            ids := col.ids.erase id },
          vs.kv.delete (makeVectorKey collection id)⟩

/-- The collections are ready. -/
def Ready (vs : VectorStore) : Prop :=
  ∀ (name : Bytes) (col : Collection), vs.collections[name]? = some col → col.Ready

section

variable {D K : Type} [LinearOrder K] (metric : Distance → Metric D K)

/-- One call; its error is dropped. -/
def step (vs : VectorStore) : StoreCall → Option VectorStore
  | .createCollection name cfg => some (vs.createCollection name cfg).2
  | .put collection id vec metadata ver level =>
    (vs.put metric collection id.val vec metadata ver level).map Prod.snd
  | .delete collection id ver => some (vs.delete collection id.val ver).2
  | .compact key => some { vs with kv := vs.kv.compact key }

/-- A write always ends. -/
theorem put_spec (ready : vs.Ready) :
    ∃ result next, vs.put metric collection id vec metadata ver level = some (result, next) ∧
      PutEffect vs collection id vec metadata ver result next := by
  rw [put]
  split
  · rename_i absent
    refine ⟨_, _, rfl, .collectionNotFound ?_⟩
    rw [mem_iff_get?, absent]
    simp
  rename_i col found
  split
  · rename_i mismatch
    exact ⟨_, _, rfl, .dimensionMismatch found mismatch⟩
  rename_i fits
  split
  · rename_i err refused
    exact ⟨_, _, rfl, .encode refused⟩
  rename_i data encoded
  split
  · rename_i isStale
    exact ⟨_, _, rfl, .stale isStale⟩
  rename_i notStale
  split
  · rename_i limit
    exact ⟨_, _, rfl, .maxVectors found limit.2.1⟩
  rename_i noLimit
  have fits := not_not.mp fits
  rcases @Collection.Ready.index col D K _ metric (ready collection col found) vec fits id
    level with ⟨col', ran, indexed⟩
  rw [ran]
  refine ⟨_, _, rfl, .stored (Bool.not_eq_true _ ▸ notStale) found fits encoded indexed ?_⟩
  intro new limited
  exact not_le.mp fun full => noLimit ⟨new, limited, full⟩

end

theorem delete_spec : DeleteEffect vs collection id ver (vs.delete collection id ver).1
    (vs.delete collection id ver).2 := by
  rw [delete]
  split
  · rename_i absent
    apply DeleteEffect.collectionNotFound
    rw [mem_iff_get?, absent]
    simp
  rename_i col found
  split
  · rename_i isStale
    exact .stale isStale
  rename_i notStale
  have notStale := (Bool.not_eq_true _).mp notStale
  split
  · rename_i absent
    exact .absent notStale found absent
  · exact .deleted notStale found

/-- What a call changes: nothing, a collection with one of its entries, or a tombstone. -/
inductive Change (vs : VectorStore) : StoreCall → VectorStore → Prop where
  | none {call : StoreCall} : Change vs call vs
  | created {name : Bytes} {cfg : CollectionConfig} {dist : Distance} {graph : Graph}
      (absent : name ∉ vs.collections) (isDist : metricToDistanceFunc cfg.metric = some dist)
      (created : Graph.new cfg.options = .ok graph) :
      Change vs (.createCollection name cfg)
        ⟨vs.collections.insert name ⟨graph, dist, cfg, ∅, 0⟩,
          vs.kv.put (makeCollectionConfigKey name) (encodeCollectionConfig cfg)⟩
  | stored {collection : Bytes} {uuid : UUID} {vec : Vec} {metadata : Metadata}
      {ver : VectorVersion} {level : Nat} {col col' : Collection} {data : Bytes}
      (found : vs.collections[collection]? = some col) (fits : vec.length = col.config.dim)
      (encoded : encodeVector vec metadata ver = .ok data)
      (indexed : col.Indexed uuid.val vec col')
      (room : uuid.val ∉ col.ids → 0 < col.config.maxVectors →
        (col.ids.size : Int) < col.config.maxVectors.toInt) :
      Change vs (.put collection uuid vec metadata ver level)
        ⟨vs.collections.insert collection col', vs.kv.put (makeVectorKey collection uuid.val) data⟩
  | deleted {collection : Bytes} {uuid : UUID} {ver : VectorVersion} {col : Collection}
      (found : vs.collections[collection]? = some col) :
      Change vs (.delete collection uuid ver)
        ⟨vs.collections.insert collection { col with
            graph := col.unlink uuid.val col.graph
            ids := col.ids.erase uuid.val },
          vs.kv.delete (makeVectorKey collection uuid.val)⟩
  | compacted (key : Bytes) : Change vs (.compact key) { vs with kv := vs.kv.compact key }

variable {result : Except StoreError Unit}

theorem change_put (uuid : UUID) (level : Nat)
    (effect : PutEffect vs collection uuid.val vec metadata ver result next) :
    Change vs (.put collection uuid vec metadata ver level) next := by
  cases effect with
  | collectionNotFound _ => exact .none
  | dimensionMismatch _ _ => exact .none
  | encode _ => exact .none
  | maxVectors _ _ => exact .none
  | stale _ => exact .none
  | stored _ found fits encoded indexed room => exact .stored found fits encoded indexed room

theorem change_delete (uuid : UUID)
    (effect : DeleteEffect vs collection uuid.val ver result next) :
    Change vs (.delete collection uuid ver) next := by
  cases effect with
  | collectionNotFound _ => exact .none
  | stale _ => exact .none
  | absent _ _ _ => exact .none
  | deleted _ found => exact .deleted found

theorem change_createCollection (vs : VectorStore) (name : Bytes) (cfg : CollectionConfig) :
    Change vs (.createCollection name cfg) (vs.createCollection name cfg).2 := by
  rw [createCollection]
  split
  · exact .none
  rename_i dist isDist
  split
  · exact .none
  rename_i absent
  split
  · exact .none
  rename_i graph created
  exact .created absent isDist created

variable {call : StoreCall}

theorem change_of_step {D K : Type} [LinearOrder K] {metric : Distance → Metric D K}
    (ready : vs.Ready) (stepped : vs.step metric call = some next) :
    Change vs call next := by
  cases call with
  | createCollection name cfg =>
    cases stepped
    exact change_createCollection vs name cfg
  | put collection uuid vec metadata ver level =>
    rcases Option.map_eq_some_iff.mp stepped with ⟨⟨result, state⟩, ran, rfl⟩
    rcases @put_spec vs collection uuid.val vec metadata ver level D K _ metric ready with
      ⟨result', state', ran', effect⟩
    rw [ran] at ran'
    cases ran'
    exact change_put uuid level effect
  | delete collection uuid ver =>
    cases stepped
    exact change_delete uuid delete_spec
  | compact key =>
    cases stepped
    exact .compacted key

/-! ## The invariant -/

/-- A key under which a collection keeps its configuration or a vector. -/
def OwnKey (name key : Bytes) : Prop :=
  key = makeCollectionConfigKey name ∨
    ∃ id : ExternalID, id.length = 16 ∧ key = makeVectorKey name id

structure Mirrored (vs : VectorStore) : Prop where
  mirrors : ∀ (name : Bytes) (col : Collection), vs.collections[name]? = some col →
    col.Mirrors name vs.kv
  unwritten : ∀ (name : Bytes) (id : ExternalID), name ∉ vs.collections → id.length = 16 →
    vs.kv.get (makeVectorKey name id) = none
  stamped : vs.kv.Stamped
  keys : ∀ key ∈ vs.kv.entries, ∃ name ∈ vs.collections, OwnKey name key

theorem Mirrored.ready (mirrored : vs.Mirrored) : vs.Ready :=
  fun name col found => (mirrored.mirrors name col found).ready

theorem mirrored_empty : empty.Mirrored := by
  constructor
  · rintro name col ⟨⟩
  · intro name id _ _
    rfl
  · rintro key seq value ⟨⟩
  · intro key mem
    exact absurd mem ExtTreeMap.not_mem_empty

/-- The keys of different collections are different. -/
theorem OwnKey.disjoint {name other key key' : Bytes} (own : OwnKey name key)
    (own' : OwnKey other key') (different : other ≠ name) : key ≠ key' := by
  rintro rfl
  rcases own with rfl | ⟨id, sixteen, rfl⟩
  · rcases own' with same | ⟨id', sixteen', same⟩
    · exact different (makeCollectionConfigKey_inj same).symm
    · exact configKey_ne_vectorKey sixteen' same
  rcases own' with same | ⟨id', sixteen', same⟩
  · exact configKey_ne_vectorKey sixteen same.symm
  · exact different (makeVectorKey_inj (sixteen.trans sixteen'.symm) same).1.symm

/-- A collection and one of its entries are replaced. -/
theorem Mirrored.replace (mirrored : vs.Mirrored) {col : Collection} {key : Bytes}
    {value : Option Bytes} (mirrors : col.Mirrors collection (vs.kv.write key value))
    (own : OwnKey collection key) :
    Mirrored ⟨vs.collections.insert collection col, vs.kv.write key value⟩ := by
  have getFrame {name key' : Bytes} (own' : OwnKey name key') (other : name ≠ collection) :
      (vs.kv.write key value).get key' = vs.kv.get key' := by
    rw [KVStore.get_write, if_neg (own.disjoint own' other)]
  constructor
  · intro name col' found
    rw [getElem?_insert_if] at found
    split at found
    · rename_i same
      cases same
      cases found
      exact mirrors
    rename_i different
    apply (mirrored.mirrors name col' found).congr
    intro id data sixteen
    rw [getFrame (.inr ⟨id, sixteen, rfl⟩) (Ne.symm different)]
  · intro name id absent sixteen
    rw [mem_insert_key, not_or] at absent
    rw [getFrame (.inr ⟨id, sixteen, rfl⟩) (Ne.symm absent.1)]
    exact mirrored.unwritten name id absent.2 sixteen
  · exact mirrored.stamped.write key value
  · intro other mem
    rcases mem_insert_key.mp mem with rfl | old
    · exact ⟨collection, ExtTreeMap.mem_insert_self, own⟩
    · rcases mirrored.keys other old with ⟨name, present, isOwn⟩
      exact ⟨name, ExtTreeMap.mem_insert.mpr (.inr present), isOwn⟩

theorem Mirrored.compact (mirrored : vs.Mirrored) (key : Bytes) :
    Mirrored { vs with kv := vs.kv.compact key } := by
  constructor
  · intro name col found
    apply (mirrored.mirrors name col found).congr
    intro id data _
    exact KVStore.get_compact_live
  · intro name id absent sixteen
    exact KVStore.get_compact_of_none (mirrored.unwritten name id absent sixteen)
  · exact mirrored.stamped.compact key
  · intro other mem
    rcases mem_iff_get?.mp mem with ⟨entry, found⟩
    exact mirrored.keys other
      (mem_iff_get?.mpr ⟨entry, KVStore.getElem?_of_compact found⟩)

/-- Nothing is stored in a collection that has just been created. -/
theorem Mirrored.change (mirrored : vs.Mirrored) (change : Change vs call next) :
    next.Mirrored := by
  cases change with
  | none => exact mirrored
  | @created name cfg dist graph absent isDist created =>
    apply mirrored.replace
    · have ready := Collection.ready_new created isDist
      rcases Graph.new_eq_ok created with ⟨rfl, _⟩
      constructor
      · exact ready
      · rintro n id vec ⟨⟩
      · rintro id n ⟨⟩
      · intro id data sixteen found
        rw [KVStore.get_write, if_neg (configKey_ne_vectorKey sixteen),
          mirrored.unwritten name id absent sixteen] at found
        cases found
      · rintro n id vec ⟨⟩
      · rintro n id vec m ⟨⟩
    · exact .inl rfl
  | @stored _ uuid _ _ _ _ _ _ _ found fits encoded indexed _ =>
    apply mirrored.replace
    · exact (mirrored.mirrors _ _ found).put uuid.property fits encoded indexed
    · exact .inr ⟨uuid.val, uuid.property, rfl⟩
  | @deleted _ uuid _ _ found =>
    apply mirrored.replace
    · exact (mirrored.mirrors _ _ found).delete uuid.val
    · exact .inr ⟨uuid.val, uuid.property, rfl⟩
  | compacted key => exact mirrored.compact key

section

variable {D K : Type} [LinearOrder K] {metric : Distance → Metric D K}

theorem Mirrored.step (mirrored : vs.Mirrored) {call : StoreCall}
    (stepped : vs.step metric call = some next) : next.Mirrored :=
  mirrored.change (change_of_step mirrored.ready stepped)

theorem mirrored_of_reached
    (reached : Reached (step metric) (fun _ _ => True) empty vs) : vs.Mirrored :=
  reached.invariant Mirrored mirrored_empty fun mirrored _ stepped => mirrored.step stepped

end

/-! ## One step -/

/-- The call writes a vector under the identifier. -/
def PutsTo (collection : Bytes) (id : ExternalID) : StoreCall → Prop
  | .put name uuid _ _ _ _ => name = collection ∧ uuid.val = id
  | _ => False

/-- A step changes nothing, or writes one entry of one collection, or drops a tombstone.
Only a write of the vector stores something under its identifier. -/
inductive Effect (vs : VectorStore) (call : StoreCall) : VectorStore → Prop where
  | unchanged : Effect vs call vs
  | written {name key : Bytes} {value : Option Bytes} {col : Collection}
      (config : ∀ old, vs.collections[name]? = some old → col.config = old.config)
      (quiet : ∀ (collection : Bytes) (uuid : UUID), ¬ PutsTo collection uuid.val call →
        key ≠ makeVectorKey collection uuid.val ∨ value = none) :
      Effect vs call ⟨vs.collections.insert name col, vs.kv.write key value⟩
  | compacted (key : Bytes) : Effect vs call { vs with kv := vs.kv.compact key }

section

variable {D K : Type} [LinearOrder K] {metric : Distance → Metric D K}

theorem effect_of_step (ready : vs.Ready) (stepped : vs.step metric call = some next) :
    Effect vs call next := by
  cases change_of_step ready stepped with
  | none => exact .unchanged
  | created absent _ _ =>
    apply Effect.written
    · intro old found
      exact absurd (mem_iff_get?.mpr ⟨old, found⟩) absent
    · intro collection uuid _
      exact .inl (configKey_ne_vectorKey uuid.property)
  | @stored _ id _ _ _ _ _ _ _ found _ _ indexed _ =>
    apply Effect.written
    · intro old found'
      cases found.symm.trans found'
      exact indexed.config
    intro collection uuid other
    left
    intro same
    exact other (makeVectorKey_inj (id.property.trans uuid.property.symm) same)
  | deleted found =>
    apply Effect.written
    · intro old found'
      cases found.symm.trans found'
      rfl
    · intro collection uuid _
      exact .inr rfl
  | compacted key => exact .compacted key

/-- What later steps leave of an earlier state: entries that are not newer than it, and
the configurations. -/
structure Since (before vs : VectorStore) : Prop where
  later : before.kv.seq ≤ vs.kv.seq
  unchanged : ∀ (key : Bytes) (seq : Nat) (value : Option Bytes),
    vs.kv.entries[key]? = some (seq, value) → seq ≤ before.kv.seq →
      before.kv.entries[key]? = some (seq, value)
  config : ∀ (name : Bytes) (col : Collection), before.collections[name]? = some col →
    ∃ col', vs.collections[name]? = some col' ∧ col'.config = col.config

theorem Since.refl (vs : VectorStore) : Since vs vs :=
  ⟨le_rfl, fun _ _ _ found _ => found, fun _ col found => ⟨col, found, rfl⟩⟩

theorem Since.step {before : VectorStore} (since : Since before vs) {call : StoreCall}
    (effect : Effect vs call next) : Since before next := by
  cases effect with
  | unchanged => exact since
  | @written name key value col config _ =>
    constructor
    · exact since.later.trans (Nat.le_succ _)
    · intro other seq value' found old
      rw [KVStore.getElem?_write] at found
      split at found
      · -- The entry that has just been written is newer.
        cases found
        exact absurd (since.later.trans_lt (Nat.lt_succ_self _)) (not_lt_of_ge old)
      · exact since.unchanged other seq value' found old
    · intro other col₀ found
      rcases since.config other col₀ found with ⟨col', found', same⟩
      by_cases isName : name = other
      · subst isName
        exact ⟨col, ExtTreeMap.getElem?_insert_self, (config col' found').trans same⟩
      refine ⟨col', ?_, same⟩
      rw [getElem?_insert_if, if_neg isName, found']
  | compacted key =>
    constructor
    · rw [KVStore.seq_compact]
      exact since.later
    · exact fun other seq value found =>
        since.unchanged other seq value (KVStore.getElem?_of_compact found)
    · exact since.config

theorem since_of_reached {before : VectorStore} (mirrored : before.Mirrored)
    (reached : Reached (step metric) (fun _ _ => True) before vs) :
    vs.Mirrored ∧ Since before vs := by
  apply reached.invariant fun vs => vs.Mirrored ∧ Since before vs
  · exact ⟨mirrored, .refl before⟩
  · intro vs next call both _ stepped
    exact ⟨both.1.step stepped, both.2.step (effect_of_step both.1.ready stepped)⟩

end

/-- A collection of one-dimensional vectors. -/
def smallConfig : CollectionConfig :=
  ⟨1, 1, 2, 1, 1, 0⟩

def smallUUID : UUID :=
  ⟨List.replicate 16 0, rfl⟩

end VectorStore

end Theseon.Vector
