import Theseon.Vector.History

/-!
# What the vector store writes

A call of the vector store writes at most one record: the configuration of a new
collection, an encoded vector, or the tombstone of one.
-/

namespace Theseon.Vector

open Lib Hnsw

/-- What a call does to the key-value store. -/
inductive StoreCall.Writes (kv : KVStore) : StoreCall → KVStore → Prop where
  | nothing (call : StoreCall) : Writes kv call kv
  | config (name : Bytes) (cfg : CollectionConfig) :
      Writes kv (.createCollection name cfg)
        (kv.put (makeCollectionConfigKey name) (encodeCollectionConfig cfg))
  | vector {collection : Bytes} {id : UUID} {vec : Vec} {metadata : Metadata} {ver : VectorVersion}
      {level : Nat} {data : Bytes} (encoded : encodeVector vec metadata ver = .ok data) :
      Writes kv (.put collection id vec metadata ver level)
        (kv.put (makeVectorKey collection id.val) data)
  | tombstone (collection : Bytes) (id : UUID) (ver : VectorVersion) :
      Writes kv (.delete collection id ver) (kv.delete (makeVectorKey collection id.val))
  | compacted (key : Bytes) : Writes kv (.compact key) (kv.compact key)

namespace VectorStore

variable {vs next : VectorStore} {D K : Type} [LinearOrder K] {metric : Distance → Metric D K}

theorem createCollection_writes (name : Bytes) (cfg : CollectionConfig) :
    StoreCall.Writes vs.kv (.createCollection name cfg) (vs.createCollection name cfg).2.kv := by
  rw [createCollection]
  split
  · exact .nothing _
  split
  · exact .nothing _
  split
  · exact .nothing _
  · exact .config name cfg

theorem put_writes {collection : Bytes} {id : UUID} {vec : Vec} {metadata : Metadata}
    {ver : VectorVersion} {level : Nat} {result : Except StoreError Unit}
    (stepped : vs.put metric collection id.val vec metadata ver level = some (result, next)) :
    StoreCall.Writes vs.kv (.put collection id vec metadata ver level) next.kv := by
  rw [put] at stepped
  split at stepped
  · cases stepped
    exact .nothing _
  split at stepped
  · cases stepped
    exact .nothing _
  split at stepped
  · cases stepped
    exact .nothing _
  rename_i encoded
  split at stepped
  · cases stepped
    exact .nothing _
  split at stepped
  · cases stepped
    exact .nothing _
  rcases Option.map_eq_some_iff.mp stepped with ⟨_, _, same⟩
  cases same
  exact .vector encoded

theorem delete_writes (collection : Bytes) (id : UUID) (ver : VectorVersion) :
    StoreCall.Writes vs.kv (.delete collection id ver) (vs.delete collection id.val ver).2.kv := by
  rw [delete]
  split
  · exact .nothing _
  split
  · exact .nothing _
  split
  · exact .nothing _
  · exact .tombstone collection id ver

theorem step_writes {call : StoreCall} (stepped : vs.step metric call = some next) :
    call.Writes vs.kv next.kv := by
  cases call with
  | createCollection name cfg =>
    cases stepped
    exact createCollection_writes name cfg
  | put collection id vec metadata ver level =>
    rcases Option.map_eq_some_iff.mp stepped with ⟨⟨result, state⟩, ran, rfl⟩
    exact put_writes ran
  | delete collection id ver =>
    cases stepped
    exact delete_writes collection id ver
  | compact key =>
    cases stepped
    exact .compacted key

end VectorStore

end Theseon.Vector
