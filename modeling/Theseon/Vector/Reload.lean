import Theseon.Vector.Scan
import Theseon.Vector.Writes

/-!
# Loading the collections after a restart

The configurations are found by a scan of all the keys that begin with the byte of the
vector store; then every collection is loaded from its snapshot, or rebuilt.  What is
loaded depends on nothing but the values under those keys, and on which of them are
newer than the snapshots.
-/

namespace Theseon.Vector

open Lib Hnsw List
open Std (ExtTreeMap)

/-- The keys that the vector store keeps for itself. -/
def InNamespace (key : Bytes) : Prop :=
  key.head? = some 2

instance (key : Bytes) : Decidable (InNamespace key) :=
  inferInstanceAs (Decidable (key.head? = some 2))

theorem configKey_inNamespace (name : Bytes) : InNamespace (makeCollectionConfigKey name) :=
  rfl

theorem vectorKey_inNamespace (name : Bytes) (id : ExternalID) :
    InNamespace (makeVectorKey name id) :=
  rfl

/-! ## Loading -/

/-- A configuration gives an empty collection.  What cannot be read is skipped. -/
def loadConfigEntry (collections : ExtTreeMap Bytes Collection) :
    Bytes × (Nat × Option Bytes) → Except Graph.OptionsError (ExtTreeMap Bytes Collection)
  | (_, _, none) => .ok collections
  | (key, _, some value) =>
    match parseVectorKey key with
    | .error _ => .ok collections
    | .ok (name, _, kind) =>
      if kind ≠ 0 then .ok collections
      else
        match decodeCollectionConfig value with
        | .error _ => .ok collections
        | .ok cfg =>
          match metricToDistanceFunc cfg.metric with
          | none => .ok collections
          | some dist =>
            match Graph.new cfg.options with
            | .error err => .error err
            | .ok graph => .ok (collections.insert name ⟨graph, dist, cfg, ∅, 0⟩)

def KVStore.loadCollectionConfigs (kv : KVStore) :
    Except Graph.OptionsError (ExtTreeMap Bytes Collection) :=
  (kv.scanRange [2] [3]).foldlM loadConfigEntry ∅

section

variable {D K : Type} [LinearOrder K] (metric : Distance → Metric D K)
  (level : ExternalID → Nat)

/-- A snapshot that does not fit is given up for a rebuild. -/
def Collection.load (col : Collection) (name : Bytes) (snapshot : Option SnapshotData)
    (kv : KVStore) : Option Collection :=
  match snapshot with
  | none => col.fullRebuild metric level name kv
  | some data =>
    (col.loadFromSnapshot metric level name data.seq data kv).bind fun
      | .ok loaded => some loaded
      | .error _ => col.fullRebuild metric level name kv

def KVStore.loadCollections (kv : KVStore) (snapshots : ExtTreeMap Bytes SnapshotData) :
    Option (Except Graph.OptionsError (ExtTreeMap Bytes Collection)) :=
  match kv.loadCollectionConfigs with
  | .error err => some (.error err)
  | .ok collections =>
    (collections.toList.foldlM (fun loaded (item : Bytes × Collection) =>
      (item.2.load metric level item.1 snapshots[item.1]? kv).map fun col =>
        loaded.insert item.1 col) ∅).map .ok

end

/-! ## What is loaded -/

/-- The two stores have the same values under the keys of the vector store. -/
def KVStore.SameValues (kv kv' : KVStore) : Prop :=
  ∀ key, InNamespace key → kv.get key = kv'.get key

/-- The entries of the vector store ask for the same after snapshots at the two
sequence numbers. -/
def KVStore.SameSince (kv kv' : KVStore) (snapSeq snapSeq' : Nat) : Prop :=
  ∀ key, InNamespace key →
    (kv.entries[key]?).map (actionOf snapSeq) = (kv'.entries[key]?).map (actionOf snapSeq')

/-- A snapshot but for its sequence number. -/
def content (data : SnapshotData) : SnapshotData :=
  { data with seq := 0 }

/-- Two snapshots have the same content, and the stores ask for the same after them. -/
def SameSnapshots (kv kv' : KVStore) : (snapshot snapshot' : Option SnapshotData) → Prop
  | none, none => True
  | some data, some data' =>
    content data = content data' ∧ kv.SameSince kv' data.seq data'.seq
  | _, _ => False

section

variable {kv kv' : KVStore} {first last name key : Bytes} {β : Type}
  {f f' : Nat × Option Bytes → β}

/-- A scan sees only the keys in its range. -/
theorem KVStore.map_scanRange_eq
    (same : ∀ key, first ≤ key → key < last →
      (kv.entries[key]?).map f = (kv'.entries[key]?).map f') :
    (kv.scanRange first last).map (fun e => (e.1, f e.2)) =
      (kv'.scanRange first last).map (fun e => (e.1, f' e.2)) := by
  have maps : (kv.entries.filter fun key _ => first ≤ key ∧ key < last).map (fun _ e => f e) =
      (kv'.entries.filter fun key _ => first ≤ key ∧ key < last).map (fun _ e => f' e) := by
    apply ExtTreeMap.ext_getElem?
    intro key
    have filtered : ∀ store : KVStore,
        (store.entries.filter fun key _ => first ≤ key ∧ key < last)[key]? =
          if first ≤ key ∧ key < last then store.entries[key]? else none := by
      intro store
      rw [ExtTreeMap.getElem?_filter]
      simp only [ExtTreeMap.getKey_eq, Option.pfilter_eq_filter]
      cases store.entries[key]? with
      | none => split <;> rfl
      | some e => simp only [Option.filter_some, decide_eq_true_eq]
    rw [ExtTreeMap.getElem?_map, ExtTreeMap.getElem?_map, filtered, filtered]
    split
    · rename_i inRange
      exact same key inRange.1 inRange.2
    · rfl
  have lists := congrArg ExtTreeMap.toList maps
  rw [ExtTreeMap.toList_map, ExtTreeMap.toList_map, ExtTreeMap.toList_filter,
    ExtTreeMap.toList_filter] at lists
  exact lists

theorem inNamespace_of_range (lower : [2] ≤ key) (upper : key < [3]) : InNamespace key := by
  cases key with
  | nil => exact absurd lower (by decide)
  | cons byte rest =>
    have less : byte < 3 := by
      rcases cons_lt_cons_iff.mp upper with less | ⟨_, none⟩
      · exact less
      · exact absurd none (not_lt_nil rest)
    have most : 2 ≤ byte := by
      by_contra below
      exact absurd lower (not_le.mpr (cons_lt_cons_iff.mpr (.inl (not_le.mp below))))
    have isTwo : byte = 2 := by
      rw [UInt8.le_iff_toNat_le] at most
      rw [UInt8.lt_iff_toNat_lt] at less
      exact UInt8.toNat_inj.mp (le_antisymm (Nat.lt_succ_iff.mp less) most)
    exact congrArg some isTwo

theorem inNamespace_of_vectorRange (lower : makeVectorKeyPrefix name ≤ key)
    (upper : key < makeVectorKeyPrefixEnd name) : InNamespace key := by
  apply inNamespace_of_range ((le_append_right_self [2] _).trans lower)
  exact upper.trans (cons_lt_cons_iff.mpr (.inl (by decide)))

theorem map_vectorEntries_eq
    (same : ∀ key, InNamespace key → (kv.entries[key]?).map f = (kv'.entries[key]?).map f') :
    (kv.vectorEntries name).map (fun e => (e.1, f e.2)) =
      (kv'.vectorEntries name).map (fun e => (e.1, f' e.2)) := by
  have parsed : ∀ (store : KVStore) (g : Nat × Option Bytes → β),
      (store.vectorEntries name).map (fun e => (e.1, g e.2)) =
        ((store.scanRange (makeVectorKeyPrefix name) (makeVectorKeyPrefixEnd name)).map
          fun e => (e.1, g e.2)).filterMap fun e =>
            (parseVectorKey e.1).toOption.map fun parts => (parts.2.1, e.2) := by
    intro store g
    rw [KVStore.vectorEntries, map_filterMap, filterMap_map]
    apply filterMap_congr
    intro e _
    dsimp only [Function.comp]
    cases parseVectorKey e.1 with
    | error err => rfl
    | ok parts => rfl
  rw [parsed, parsed, KVStore.map_scanRange_eq fun key lower upper =>
    same key (inNamespace_of_vectorRange lower upper)]

theorem loadCollectionConfigs_eq (same : kv.SameValues kv') :
    kv.loadCollectionConfigs = kv'.loadCollectionConfigs := by
  -- the sequence number of a configuration is not looked at
  have valueOnly : ∀ store : KVStore, store.loadCollectionConfigs =
      ((store.scanRange [2] [3]).map fun e => (e.1, e.2.2)).foldlM
        (fun collections e => loadConfigEntry collections (e.1, 0, e.2)) ∅ := by
    intro store
    rw [KVStore.loadCollectionConfigs, foldlM_map]
    congr 1
    funext collections e
    rcases e with ⟨key, seq, _ | value⟩
    · rfl
    · rfl
  rw [valueOnly, valueOnly, KVStore.map_scanRange_eq fun key lower upper =>
    same key (inNamespace_of_range lower upper)]

end

namespace Collection

variable {D K : Type} [LinearOrder K] {metric : Distance → Metric D K}
  {level : ExternalID → Nat} {kv kv' : KVStore} {name : Bytes}

theorem fullRebuild_eq (same : kv.SameValues kv') (col : Collection) :
    col.fullRebuild metric level name kv = col.fullRebuild metric level name kv' := by
  have valueOnly : ∀ store : KVStore, col.fullRebuild metric level name store =
      ((store.vectorEntries name).map fun e => (e.1, e.2.2)).foldlM
        (fun col e => col.rebuildEntry metric level (e.1, 0, e.2)) col := by
    intro store
    rw [fullRebuild, foldlM_map]
    congr 1
    funext col e
    rcases e with ⟨id, seq, _ | data⟩
    · rfl
    · rfl
  rw [valueOnly, valueOnly, map_vectorEntries_eq same]

theorem loadFromSnapshot_eq {data data' : SnapshotData} (same : content data = content data')
    (since : kv.SameSince kv' data.seq data'.seq) (col : Collection) :
    col.loadFromSnapshot metric level name data.seq data kv =
      col.loadFromSnapshot metric level name data'.seq data' kv' := by
  have restored : col.graph.restoreFromSnapshot data = col.graph.restoreFromSnapshot data' := by
    change col.graph.restoreFromSnapshot (content data) = _
    rw [same]
    rfl
  have nodes : data.nodes = data'.nodes := by
    change (content data).nodes = _
    rw [same]
    rfl
  have entries := @map_vectorEntries_eq kv kv' name _ (actionOf data.seq) (actionOf data'.seq) since
  rw [loadFromSnapshot, loadFromSnapshot, restored, nodes]
  cases col.graph.restoreFromSnapshot data' with
  | error err => rfl
  | ok graph =>
    -- only the identifiers and what is asked for are looked at
    have reconciled : ∀ (store : KVStore) (snapSeq : Nat) (start : Collection),
        (store.vectorEntries name).foldlM (reconcileEntry metric level snapSeq) start =
          ((store.vectorEntries name).map fun e => (e.1, actionOf snapSeq e.2)).foldlM
            (act metric level) start := by
      intro store snapSeq start
      rw [foldlM_map]
      congr 1
      funext col e
      exact reconcileEntry_eq metric level snapSeq col e
    have erased : ∀ (store : KVStore) (snapSeq : Nat) (ids : ExtTreeMap ExternalID Nat),
        (store.vectorEntries name).foldl (fun unseen e => unseen.erase e.1) ids =
          ((store.vectorEntries name).map fun e => (e.1, actionOf snapSeq e.2)).foldl
            (fun unseen e => unseen.erase e.1) ids := by
      intro store snapSeq ids
      rw [foldl_map]
    dsimp only
    rw [reconciled, reconciled, erased kv data.seq, erased kv' data'.seq, entries]

theorem load_eq (same : kv.SameValues kv') {snapshot snapshot' : Option SnapshotData}
    (snapshots : SameSnapshots kv kv' snapshot snapshot') (col : Collection) :
    col.load metric level name snapshot kv = col.load metric level name snapshot' kv' := by
  cases snapshot with
  | none =>
    cases snapshot' with
    | none => exact fullRebuild_eq same col
    | some data' => exact snapshots.elim
  | some data =>
    cases snapshot' with
    | none => exact snapshots.elim
    | some data' =>
      rw [load, load, loadFromSnapshot_eq snapshots.1 snapshots.2, fullRebuild_eq same]

end Collection

/-- What is loaded is a matter of the vector store's own entries. -/
theorem KVStore.loadCollections_eq {D K : Type} [LinearOrder K] {metric : Distance → Metric D K}
    {level : ExternalID → Nat} {kv kv' : KVStore} (same : kv.SameValues kv')
    {snapshots snapshots' : ExtTreeMap Bytes SnapshotData}
    (sameSnapshots : ∀ name : Bytes, SameSnapshots kv kv' snapshots[name]? snapshots'[name]?) :
    kv.loadCollections metric level snapshots = kv'.loadCollections metric level snapshots' := by
  rw [loadCollections, loadCollections, loadCollectionConfigs_eq same]
  cases kv'.loadCollectionConfigs with
  | error err => rfl
  | ok collections =>
    dsimp only
    congr 2
    funext loaded item
    rw [Collection.load_eq same (sameSnapshots item.1)]

end Theseon.Vector
