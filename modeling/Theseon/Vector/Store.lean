import Theseon.Vector.Encoding

/-!
# The vector store

Vectors are kept in the key-value store, which is the source of truth, and every
collection has a navigable graph as an index.  An identifier is indexed by one node;
a new version of a vector is a new node, and the old one is marked as deleted.

The key-value store is a map whose entries have sequence numbers.  The three distance
functions are parameters.  A function that returns `none` stands for a panic or an
endless loop in the graph.
-/

namespace Theseon.Vector

open Lib Hnsw
open Std (ExtTreeMap)

/-! ## The key-value store -/

/-- The last sequence number, and for every key the number of the last write and what
it has put; nothing for a tombstone. -/
structure KVStore where
  seq : Nat
  entries : ExtTreeMap Bytes (Nat × Option Bytes)

namespace KVStore

def empty : KVStore :=
  ⟨0, ∅⟩

/-- A tombstone is found too. -/
def get (kv : KVStore) (key : Bytes) : Option (Option Bytes) :=
  (kv.entries[key]?).map Prod.snd

def write (kv : KVStore) (key : Bytes) (value : Option Bytes) : KVStore :=
  ⟨kv.seq + 1, kv.entries.insert key (kv.seq + 1, value)⟩

def put (kv : KVStore) (key value : Bytes) : KVStore :=
  kv.write key (some value)

def delete (kv : KVStore) (key : Bytes) : KVStore :=
  kv.write key none

/-- A tombstone is dropped.  The compaction of this engine keeps them all; a store that
drops some may do so at any time. -/
def compact (kv : KVStore) (key : Bytes) : KVStore :=
  if kv.get key = some none then { kv with entries := kv.entries.erase key } else kv

end KVStore

/-! ## Keys -/

/-- The bytes before the kind. -/
def collectionPrefix (collection : Bytes) : Bytes :=
  2 :: (littleEndian 2 collection.length ++ collection)

def makeCollectionConfigKey (collection : Bytes) : Bytes :=
  collectionPrefix collection ++ [0]

def makeVectorKey (collection : Bytes) (id : ExternalID) : Bytes :=
  collectionPrefix collection ++ 1 :: id

/-! ## Collections -/

structure CollectionConfig where
  dim : Nat
  metric : UInt8
  m : Nat
  efConstruct : Nat
  efSearch : Nat
  maxVectors : Int64
  deriving DecidableEq, Repr

def encodeCollectionConfig (cfg : CollectionConfig) : Bytes :=
  1 :: (littleEndian 2 cfg.dim ++ (cfg.metric :: (littleEndian 2 cfg.m ++
    (littleEndian 2 cfg.efConstruct ++ (littleEndian 2 cfg.efSearch ++
      littleEndian 8 cfg.maxVectors.toUInt64.toNat)))))

inductive Distance where
  | l2Squared
  | cosine
  | innerProduct
  deriving DecidableEq, Repr

def metricToDistanceFunc (metric : UInt8) : Option Distance :=
  if metric = 1 then some .l2Squared
  else if metric = 2 then some .cosine
  else if metric = 3 then some .innerProduct
  else none

/-- The 64-bit FNV-1a hash. -/
def fnv1a (bytes : Bytes) : UInt64 :=
  bytes.foldl (fun hash byte => (hash ^^^ byte.toUInt64) * 1099511628211) 14695981039346656037

/-- A hash of what has to be the same on all replicas. -/
def configDigest (cfg : CollectionConfig) : UInt64 :=
  fnv1a (littleEndian 4 cfg.dim ++ (cfg.metric :: (littleEndian 4 cfg.m ++
    littleEndian 4 cfg.efConstruct)))

/-- The options of a collection's graph. -/
def CollectionConfig.options (cfg : CollectionConfig) : Hnsw.Options :=
  ⟨cfg.m, cfg.efConstruct, cfg.efSearch, cfg.dim, 0⟩

/-- The state of a collection in memory. -/
structure Collection where
  graph : Graph
  /-- The distance function of the graph. -/
  dist : Distance
  config : CollectionConfig
  ids : ExtTreeMap ExternalID Nat
  nextID : Nat

structure VectorStore where
  collections : ExtTreeMap Bytes Collection
  kv : KVStore

inductive StoreError where
  | collectionNotFound
  | collectionExists
  | unknownMetric (metric : UInt8)
  | createGraph (err : Graph.OptionsError)
  | dimensionMismatch
  | encode (err : EncodeError)
  | maxVectors (collection : Bytes) (limit : Int64)
  | indexingFailed (err : GraphError)
  | search (err : GraphError)
  | decode (err : DecodeError)
  deriving DecidableEq, Repr

/-- A search result, read from the key-value store. -/
structure Result (D : Type) where
  id : ExternalID
  record : VectorRecord
  distance : D

structure LatestEntry where
  version : VectorVersion
  vector : Vec
  found : Bool
  deleted : Bool

/-- The entry is live and its version is not older. -/
def KVStore.stale (kv : KVStore) (key : Bytes) (ver : VectorVersion) : Bool :=
  !ver.isZero &&
    match kv.get key with
    | some (some data) =>
      match decodeVectorVersion data with
      | .ok existing => !ver.after existing
      | .error _ => false
    | _ => false

/-- Mark the node of an identifier as deleted, if it has one. -/
def Collection.unlink (col : Collection) (id : ExternalID) (graph : Graph) : Graph :=
  match col.ids[id]? with
  | some old => graph.markDeleted old
  | none => graph

section

variable {D K : Type} [LinearOrder K] (metric : Distance → Metric D K)

/-- Insert the new node, then mark the old one as deleted.  The number of a node that
is refused is used up. -/
def Collection.index (col : Collection) (id : ExternalID) (vec : Vec) (level : Nat) :
    Option (Except StoreError Unit × Collection) :=
  (col.graph.insert (metric col.dist) col.nextID id vec level).map fun
    | .error err => (.error (.indexingFailed err), { col with nextID := col.nextID + 1 })
    | .ok graph =>
      (.ok (), { col with
        graph := col.unlink id graph
        ids := col.ids.insert id col.nextID
        nextID := col.nextID + 1 })

namespace VectorStore

def empty : VectorStore :=
  ⟨∅, .empty⟩

def createCollection (vs : VectorStore) (name : Bytes) (cfg : CollectionConfig) :
    Except StoreError Unit × VectorStore :=
  match metricToDistanceFunc cfg.metric with
  | none => (.error (.unknownMetric cfg.metric), vs)
  | some dist =>
    if name ∈ vs.collections then (.error .collectionExists, vs)
    else
      match Graph.new cfg.options with
      | .error err => (.error (.createGraph err), vs)
      | .ok graph =>
        (.ok (), ⟨vs.collections.insert name ⟨graph, dist, cfg, ∅, 0⟩,
          vs.kv.put (makeCollectionConfigKey name) (encodeCollectionConfig cfg)⟩)

/-- A write that is not newer is skipped without an error. -/
def put (vs : VectorStore) (collection : Bytes) (id : ExternalID) (vec : Vec)
    (metadata : Metadata) (ver : VectorVersion) (level : Nat) :
    Option (Except StoreError Unit × VectorStore) :=
  match vs.collections[collection]? with
  | none => some (.error .collectionNotFound, vs)
  | some col =>
    if vec.length ≠ col.config.dim then some (.error .dimensionMismatch, vs)
    else
      match encodeVector vec metadata ver with
      | .error err => some (.error (.encode err), vs)
      | .ok encoded =>
        if vs.kv.stale (makeVectorKey collection id) ver then some (.ok (), vs)
        else if id ∉ col.ids ∧ 0 < col.config.maxVectors ∧
            col.config.maxVectors.toInt ≤ col.ids.size then
          some (.error (.maxVectors collection col.config.maxVectors), vs)
        else
          (col.index metric id vec level).map fun (result, col) =>
            (result, ⟨vs.collections.insert collection col,
              vs.kv.put (makeVectorKey collection id) encoded⟩)

/-- A deletion leaves a tombstone without a version. -/
def delete (vs : VectorStore) (collection : Bytes) (id : ExternalID) (ver : VectorVersion) :
    Except StoreError Unit × VectorStore :=
  match vs.collections[collection]? with
  | none => (.error .collectionNotFound, vs)
  | some col =>
    if vs.kv.stale (makeVectorKey collection id) ver then (.ok (), vs)
    else if id ∉ col.ids then (.ok (), vs)
    else
      (.ok (), ⟨vs.collections.insert collection { col with
          graph := col.unlink id col.graph
          ids := col.ids.erase id },
        vs.kv.delete (makeVectorKey collection id)⟩)

/-- Read the candidates from the key-value store, until there are `k` results. -/
def verify (vs : VectorStore) (collection : Bytes) (k : Nat) :
    List (Result D) → List (SearchResult D) → List (Result D)
  | results, [] => results
  | results, c :: candidates =>
    match vs.kv.get (makeVectorKey collection c.externalID) with
    | some (some data) =>
      match decodeVector data with
      | .error _ => verify vs collection k results candidates
      | .ok record =>
        let results := results ++ [⟨c.externalID, record, c.distance⟩]
        if results.length = k then results else verify vs collection k results candidates
    | _ => verify vs collection k results candidates

/-- Twice as many candidates as results are asked for, unless `efSearch` is given. -/
def search (vs : VectorStore) (collection : Bytes) (query : Vec) (k efSearch : Nat) :
    Option (Except StoreError (List (Result D))) :=
  match vs.collections[collection]? with
  | none => some (.error .collectionNotFound)
  | some col =>
    let ef := if 0 < efSearch then efSearch else k * 2
    (col.graph.search (metric col.dist) query ef ef).map fun
      | .error err => .error (.search err)
      | .ok candidates => .ok (vs.verify collection k [] candidates)

/-- A tombstone has the zero version. -/
def getLatest (vs : VectorStore) (collection : Bytes) (id : ExternalID) :
    Except StoreError LatestEntry :=
  if collection ∉ vs.collections then .error .collectionNotFound
  else
    match vs.kv.get (makeVectorKey collection id) with
    | none => .ok ⟨.zero, [], false, false⟩
    | some none => .ok ⟨.zero, [], true, true⟩
    | some (some data) =>
      match decodeVector data with
      | .error err => .error (.decode err)
      | .ok record => .ok ⟨record.version, record.vector, true, false⟩

/-- The record under an identifier, if it can be read. -/
def record (vs : VectorStore) (collection : Bytes) (id : ExternalID) : Option VectorRecord :=
  match vs.kv.get (makeVectorKey collection id) with
  | some (some data) => (decodeVector data).toOption
  | _ => none

theorem record_eq_some_iff {vs : VectorStore} {collection : Bytes} {id : ExternalID}
    {record : VectorRecord} :
    vs.record collection id = some record ↔
      ∃ data, vs.kv.get (makeVectorKey collection id) = some (some data) ∧
        decodeVector data = .ok record := by
  rw [VectorStore.record]
  cases found : vs.kv.get (makeVectorKey collection id) with
  | none => simp
  | some value =>
    cases value with
    | none => simp
    | some data => cases decoded : decodeVector data <;> simp [decoded, Except.toOption]

end VectorStore

end

end Theseon.Vector
