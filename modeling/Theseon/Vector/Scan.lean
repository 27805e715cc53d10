import Theseon.KV.Key
import Theseon.Vector.Recovery

/-!
# What a scan of a collection finds

If the names of all collections fit into the two bytes of their length field, a scan of
a collection finds its own vectors, each once, and nothing else.
-/

namespace Theseon.Vector

open Lib Hnsw List
open Std (ExtTreeMap)

variable {name other key : Bytes} {id : ExternalID}

/-- Names of less than two to the sixteen bytes are told apart by their keys. -/
theorem collectionPrefix_append_inj (short : name.length < 2 ^ 16)
    (otherShort : other.length < 2 ^ 16) {rest rest' : Bytes}
    (same : collectionPrefix name ++ rest = collectionPrefix other ++ rest') :
    name = other ∧ rest = rest' := by
  rw [collectionPrefix, collectionPrefix, cons_append, cons_append, append_assoc,
    append_assoc] at same
  rcases littleEndian_two_append_inj (cons.inj same).2 with ⟨residues, rests⟩
  rw [Nat.mod_eq_of_lt short, Nat.mod_eq_of_lt otherShort] at residues
  exact append_inj rests residues

/-- The keys of different collections do not extend one another. -/
theorem collectionPrefix_unrelated (short : name.length < 2 ^ 16)
    (otherShort : other.length < 2 ^ 16) (different : name ≠ other) :
    Unrelated (collectionPrefix name) (collectionPrefix other) := by
  constructor
  · rintro ⟨rest, same⟩
    rw [← append_nil (collectionPrefix other)] at same
    exact different (collectionPrefix_append_inj short otherShort same).1
  · rintro ⟨rest, same⟩
    rw [← append_nil (collectionPrefix name)] at same
    exact different (collectionPrefix_append_inj otherShort short same).1.symm

/-- The bounds of a scan, followed by the same bytes, have between them the vector keys of
the collection, followed by bytes that are not below those. -/
theorem ownKey_in_range_iff (short : name.length < 2 ^ 16) (otherShort : other.length < 2 ^ 16)
    (own : VectorStore.OwnKey other key) {front back : Bytes}
    (covers : ∀ id : ExternalID, front ≤ id ++ back) :
    makeVectorKeyPrefix name ++ front ≤ key ++ back ∧
        key ++ back < makeVectorKeyPrefixEnd name ++ front ↔
      ∃ id : ExternalID, id.length = 16 ∧ key = makeVectorKey name id := by
  rw [makeVectorKeyPrefix, makeVectorKeyPrefixEnd, append_assoc, append_assoc]
  constructor
  · rintro ⟨first, last⟩
    have outside (rest : Bytes) (isKey : key ++ back = collectionPrefix other ++ rest) :
        name = other := by
      by_contra different
      have unrelated := collectionPrefix_unrelated short otherShort different
      rw [isKey, append_lt_append_iff_of_unrelated unrelated.symm] at last
      rw [isKey] at first
      exact first.not_gt (append_lt_append_of_lt last unrelated.symm _ _)
    rcases own with rfl | ⟨id, sixteen, rfl⟩
    · cases outside _ (append_assoc _ _ _)
      rw [makeCollectionConfigKey, append_assoc, append_le_append_left_iff] at first
      exact absurd first (not_le.mpr (cons_lt_cons_iff.mpr (.inl (by decide))))
    · cases outside _ (append_assoc _ _ _)
      exact ⟨id, sixteen, rfl⟩
  · rintro ⟨id, _, rfl⟩
    rw [makeVectorKey, append_assoc, append_le_append_left_iff, append_lt_append_left_iff]
    exact ⟨cons_le_cons _ (covers id), cons_lt_cons_iff.mpr (.inl (by decide))⟩

/-- A scan without bytes behind its bounds. -/
theorem ownKey_between_iff (short : name.length < 2 ^ 16) (otherShort : other.length < 2 ^ 16)
    (own : VectorStore.OwnKey other key) :
    makeVectorKeyPrefix name ≤ key ∧ key < makeVectorKeyPrefixEnd name ↔
      ∃ id : ExternalID, id.length = 16 ∧ key = makeVectorKey name id := by
  have iff := @ownKey_in_range_iff _ _ _ short otherShort own [] [] fun id =>
    le_append_right_self [] (id ++ [])
  simpa only [append_nil] using iff

theorem parse_collectionPrefix (short : name.length < 2 ^ 16) (kind : UInt8) (rest : Bytes) :
    parseVectorKey (collectionPrefix name ++ kind :: rest) =
      if kind = 0 then .ok (name, replicate 16 0, kind)
      else if kind = 1 then
        if rest.length < 16 then .error .truncatedUUID else .ok (name, rest.take 16, kind)
      else .error (.unknownKind kind) := by
  have isKey : collectionPrefix name ++ kind :: rest =
      2 :: (littleEndian 2 name.length ++ (name ++ kind :: rest)) := by
    rw [collectionPrefix, cons_append, append_assoc]
  rw [isKey]
  generalize isAll : 2 :: (littleEndian 2 name.length ++ (name ++ kind :: rest)) = key
  have long : key.length = 4 + name.length + rest.length := by
    rw [← isAll]
    simp only [length_cons, length_append, littleEndian_length]
    omega
  have isLen : ofLittleEndian ((key.drop 1).take 2) = name.length := by
    rw [← isAll, drop_one, tail_cons, take_left' (littleEndian_length _ _),
      ofLittleEndian_of_lt short]
  have afterLength : key.drop 3 = name ++ kind :: rest := by
    rw [← isAll, drop_succ_cons, drop_left' (littleEndian_length _ _)]
  have afterName : key.drop (3 + name.length) = kind :: rest := by
    rw [← drop_drop, afterLength, drop_left' rfl]
  have afterKind : key.drop (4 + name.length) = rest := by
    rw [show 4 + name.length = 3 + name.length + 1 by omega, ← drop_drop, afterName]
    rfl
  rw [parseVectorKey, isLen, long]
  dsimp only
  rw [if_neg (by omega), if_neg (by rw [← isAll]; simp), if_neg (by omega), afterLength, afterName,
    afterKind, headD_cons, take_left' rfl]
  simp only [Nat.add_lt_add_iff_left]

theorem parse_makeVectorKey (short : name.length < 2 ^ 16) (sixteen : id.length = 16) :
    parseVectorKey (makeVectorKey name id) = .ok (name, id, 1) := by
  rw [makeVectorKey, parse_collectionPrefix short, if_neg (by decide), if_pos rfl,
    if_neg (by omega), take_of_length_le sixteen.le]

theorem parse_makeCollectionConfigKey (short : name.length < 2 ^ 16) :
    parseVectorKey (makeCollectionConfigKey name) = .ok (name, replicate 16 0, 0) := by
  rw [makeCollectionConfigKey, parse_collectionPrefix short, if_pos rfl]

/-- A name whose length fits, and the identifier of a vector or none for the
configuration. -/
structure CollectionKey where
  name : { name : Bytes // name.length ≤ 65535 }
  id : Option UUID
  deriving DecidableEq

def CollectionKey.bytes (k : CollectionKey) : Bytes :=
  match k.id with
  | none => makeCollectionConfigKey k.name
  | some id => makeVectorKey k.name id.val

theorem CollectionKey.own (k : CollectionKey) : VectorStore.OwnKey k.name k.bytes := by
  rcases k with ⟨name, _ | id⟩
  · exact .inl rfl
  · exact .inr ⟨id.val, id.property, rfl⟩

/-- The keys of all collections can be parsed, do not extend one another, and the bounds of
a collection have its own vectors between them, as user keys and as internal keys. -/
theorem vector_key_space (k k' : CollectionKey) :
    parseVectorKey k.bytes = .ok (k.name, k.id.elim (replicate 16 0) Subtype.val,
      if k.id.isSome then 1 else 0) ∧
    (k.bytes <+: k'.bytes → k = k') ∧
    (makeVectorKeyPrefix k.name ≤ k'.bytes ∧ k'.bytes < makeVectorKeyPrefixEnd k.name ↔
      k'.name = k.name ∧ k'.id.isSome) ∧
    ∀ seq, KV.makeSearchKey (makeVectorKeyPrefix k.name) ≤ KV.makeInternalKey k'.bytes seq ∧
        KV.makeInternalKey k'.bytes seq < KV.makeSearchKey (makeVectorKeyPrefixEnd k.name) ↔
      k'.name = k.name ∧ k'.id.isSome := by
  have short (k : CollectionKey) : k.name.val.length < 2 ^ 16 := Nat.lt_succ_of_le k.name.property
  have injective {k k' : CollectionKey} (front : k.bytes <+: k'.bytes) : k = k' := by
    rcases front with ⟨rest, same⟩
    rcases k with ⟨name, _ | id⟩ <;> rcases k' with ⟨name', _ | id'⟩ <;>
      rcases collectionPrefix_append_inj (short ⟨name, none⟩) (short ⟨name', none⟩)
        ((append_assoc _ _ _).symm.trans same) with ⟨sameName, sameRest⟩ <;>
      cases Subtype.ext sameName
    · rfl
    · cases sameRest
    · cases sameRest
    · have sameID := append_inj ((cons.inj sameRest).2.trans (append_nil id'.val).symm)
        (id.property.trans id'.property.symm)
      rw [Subtype.ext sameID.1]
  have isVector : (∃ id : ExternalID, id.length = 16 ∧ k'.bytes = makeVectorKey k.name id) ↔
      k'.name = k.name ∧ k'.id.isSome := by
    constructor
    · rintro ⟨id, sixteen, same⟩
      rw [@injective k' ⟨k.name, some ⟨id, sixteen⟩⟩ (same ▸ prefix_refl _)]
      exact ⟨rfl, rfl⟩
    · rintro ⟨sameName, isSome⟩
      rcases Option.isSome_iff_exists.mp isSome with ⟨id, isID⟩
      refine ⟨id.val, id.property, ?_⟩
      rw [CollectionKey.bytes, isID, sameName]
  refine ⟨?_, injective, ?_, ?_⟩
  · rcases k with ⟨name, _ | id⟩
    · exact parse_makeCollectionConfigKey (short ⟨name, none⟩)
    · exact parse_makeVectorKey (short ⟨name, some id⟩) id.property
  · rw [ownKey_between_iff (short k) (short k') k'.own, isVector]
  · intro seq
    rw [← isVector, ← ownKey_in_range_iff (short k) (short k') k'.own]
    · exact Iff.rfl
    · intro id
      exact KV.invertedSeq_maxSeqNum_le (by simp)

namespace KVStore

variable {kv : KVStore}

/-- The keys belong to collections whose names fit. -/
def Owned (kv : KVStore) : Prop :=
  ∀ key ∈ kv.entries, ∃ name : Bytes, name.length < 2 ^ 16 ∧ VectorStore.OwnKey name key

theorem vectorKey_of_scanned (owned : kv.Owned) (short : name.length < 2 ^ 16)
    {entry : Bytes × (Nat × Option Bytes)}
    (mem : entry ∈ kv.scanRange (makeVectorKeyPrefix name) (makeVectorKeyPrefixEnd name)) :
    kv.entries[entry.1]? = some entry.2 ∧
      ∃ id : ExternalID, id.length = 16 ∧ entry.1 = makeVectorKey name id := by
  rcases mem_filter.mp mem with ⟨inEntries, inRange⟩
  have found : kv.entries[entry.1]? = some entry.2 :=
    ExtTreeMap.mem_toList_iff_getElem?_eq_some.mp inEntries
  rcases owned entry.1 (mem_iff_get?.mpr ⟨_, found⟩) with ⟨owner, ownerShort, own⟩
  exact ⟨found, (ownKey_between_iff short ownerShort own).mp (of_decide_eq_true inRange)⟩

theorem mem_vectorEntries_iff (owned : kv.Owned) (short : name.length < 2 ^ 16)
    {value : Nat × Option Bytes} :
    (id, value) ∈ kv.vectorEntries name ↔
      id.length = 16 ∧ kv.entries[makeVectorKey name id]? = some value := by
  rw [vectorEntries, mem_filterMap]
  constructor
  · rintro ⟨entry, mem, parsed⟩
    rcases vectorKey_of_scanned owned short mem with ⟨found, id', sixteen, isKey⟩
    rw [isKey, parse_makeVectorKey short sixteen] at parsed
    cases parsed
    rw [isKey] at found
    exact ⟨sixteen, found⟩
  · rintro ⟨sixteen, found⟩
    refine ⟨(makeVectorKey name id, value), ?_, ?_⟩
    · apply mem_filter.mpr
      exact ⟨ExtTreeMap.mem_toList_iff_getElem?_eq_some.mpr found,
        decide_eq_true
          ((ownKey_between_iff short short (.inr ⟨id, sixteen, rfl⟩)).mpr ⟨id, sixteen, rfl⟩)⟩
    · simp only [parse_makeVectorKey short sixteen]

theorem nodup_vectorEntries (owned : kv.Owned) (short : name.length < 2 ^ 16) :
    ((kv.vectorEntries name).map Prod.fst).Nodup := by
  rw [List.Nodup, pairwise_map, vectorEntries, pairwise_filterMap]
  have distinct : (kv.scanRange (makeVectorKeyPrefix name) (makeVectorKeyPrefixEnd name)).Pairwise
      fun first second => ¬ compare first.1 second.1 = .eq :=
    ExtTreeMap.distinct_keys_toList.filter _
  apply distinct.imp_of_mem
  intro first second firstMem secondMem different entry parsed entry' parsed' same
  rcases vectorKey_of_scanned owned short firstMem with ⟨_, id, sixteen, isKey⟩
  rcases vectorKey_of_scanned owned short secondMem with ⟨_, id', sixteen', isKey'⟩
  rw [isKey, parse_makeVectorKey short sixteen] at parsed
  rw [isKey', parse_makeVectorKey short sixteen'] at parsed'
  cases parsed
  cases parsed'
  have sameID : id = id' := same
  apply different
  rw [isKey, isKey', sameID]
  exact Std.ReflCmp.compare_self

end KVStore

end Theseon.Vector
