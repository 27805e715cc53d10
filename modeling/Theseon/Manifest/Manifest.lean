import Theseon.Lib.KeyedMap
import Theseon.Lib.Maximum
import Theseon.Lib.RecordLog
import Theseon.Lib.Sorter
import Theseon.Manifest.Encoding

/-!
# The manifest

The manifest is a log of records; replaying it gives the tables of every level,
the two counters and the index snapshots.  A call appends its own record and,
every 64 records, a snapshot of the whole state with the counters behind it.

Each call has one effect on the replayed state, whether or not a snapshot was
written with it.
-/

namespace Theseon

open Std List
open Lib KV Manifest

/-- What the records of a manifest say. -/
structure ManifestContents where
  tables : ExtTreeMap Nat SSTableInfo
  nextMemID : Nat
  nextSeq : Nat
  hnswSnapshots : ExtTreeMap Bytes HNSWSnapshotInfo

/-- `Manifest`, without the file. -/
structure Manifest extends ManifestContents where
  recordsSinceSnapshot : Nat

namespace ManifestContents

def empty : ManifestContents :=
  ⟨∅, 0, 0, ∅⟩

def applyRecord (m : ManifestContents) : Record → ManifestContents
  | .sstableAdded info => { m with tables := m.tables.insert info.id info }
  | .sstableRemoved id _ => { m with tables := m.tables.erase id }
  | .snapshot sstables hnswSnapshots =>
    { m with
      tables := insertAll SSTableInfo.id ∅ sstables
      hnswSnapshots := insertAll HNSWSnapshotInfo.collection ∅ hnswSnapshots }
  | .nextIDs nextMemID nextSeq => { m with nextMemID := nextMemID, nextSeq := nextSeq }
  | .hnswSnapshot info =>
    { m with hnswSnapshots := m.hnswSnapshots.insert info.collection info }

/-- The entries of both maps are stored under their own names. -/
structure Named (m : ManifestContents) : Prop where
  tables : Keyed SSTableInfo.id m.tables
  hnswSnapshots : Keyed HNSWSnapshotInfo.collection m.hnswSnapshots

theorem empty_named : empty.Named := by
  constructor
  · exact keyed_empty
  · exact keyed_empty

/-- The table entries, by ascending identifier. -/
def infos (m : ManifestContents) : List SSTableInfo :=
  m.tables.toList.map Prod.snd

end ManifestContents

namespace Manifest

structure State where
  l0 : List SSTableInfo
  levels : List (List SSTableInfo)
  nextMemID : Nat
  nextSeq : Nat
  hnswSnapshots : ExtTreeMap Bytes HNSWSnapshotInfo

/-- The length of `Levels`.  It is computed in one byte. -/
def numLevels (m : ManifestContents) : Nat :=
  let maxLevel := (m.infos.map SSTableInfo.level).foldl max 0
  if maxLevel = 0 then 0 else (maxLevel + 1).toNat

/-- Every table below L0 has its place in `Levels`. -/
def Placed (m : ManifestContents) : Prop :=
  ∀ info ∈ m.infos, info.level ≠ 0 → info.level.toNat < numLevels m

instance (m : ManifestContents) : Decidable (Placed m) :=
  inferInstanceAs (Decidable (∀ info ∈ m.infos, _ → _))

/-- The state that `buildState` fills.  Tables with the same first key may be sorted
either way. -/
def stateOf (sorter : Sorter SSTableInfo.firstKey) (m : ManifestContents) : State where
  l0 := (m.infos.filter fun info => info.level = 0).insertionSort fun first second =>
    second.id ≤ first.id
  levels := (List.range (numLevels m)).map fun level =>
    if level = 0 then [] else sorter.sort (m.infos.filter fun info => info.level.toNat = level)
  nextMemID := m.nextMemID
  nextSeq := m.nextSeq
  hnswSnapshots := m.hnswSnapshots

/-- `buildState` panics when a table has no place. -/
def buildState (sorter : Sorter SSTableInfo.firstKey) (m : ManifestContents) : Option State :=
  if Placed m then some (stateOf sorter m) else none

/-- Only level 255 has no place: with it the length wraps to zero. -/
theorem placed_iff {m : ManifestContents} : Placed m ↔ ∀ info ∈ m.infos, info.level ≤ 254 := by
  have bounded : ∀ info ∈ m.infos, info.level ≤ (m.infos.map SSTableInfo.level).foldl max 0 :=
    fun info mem => le_foldl_max (mem_map_of_mem mem) 0
  rw [Placed, numLevels]
  generalize isMax : (m.infos.map SSTableInfo.level).foldl max 0 = maxLevel at bounded
  have succ : (maxLevel + 1).toNat = (maxLevel.toNat + 1) % 2 ^ 8 := UInt8.toNat_add _ _
  have small := maxLevel.toNat_lt
  constructor
  · intro placed info mem
    by_contra large
    have atMost := UInt8.le_iff_toNat_le.mp (bounded info mem)
    have isLarge : 254 < info.level.toNat := UInt8.lt_iff_toNat_lt.mp (lt_of_not_ge large)
    have below := placed info mem fun zero => large (by rw [zero]; decide)
    split at below
    · omega
    · omega
  · intro others info mem positive
    have atMost := UInt8.le_iff_toNat_le.mp (bounded info mem)
    have notLast : maxLevel ≤ 254 := by
      rw [← isMax]
      exact foldl_max_le_iff.mpr ⟨by decide, forall_mem_map.mpr others⟩
    have below : maxLevel.toNat ≤ 254 := UInt8.le_iff_toNat_le.mp notLast
    split
    · rename_i zero
      rw [zero] at atMost
      exact absurd (UInt8.toNat_inj.mp (Nat.le_zero.mp atMost)) positive
    · omega

section

variable (sorter : Sorter SSTableInfo.firstKey) (m : ManifestContents)

theorem mem_stateOf_l0 {info : SSTableInfo} :
    info ∈ (stateOf sorter m).l0 ↔ info ∈ m.infos ∧ info.level = 0 := by
  rw [stateOf, mem_insertionSort, mem_filter, decide_eq_true_eq]

/-- L0 is listed by descending identifier. -/
theorem stateOf_l0_descending :
    (stateOf sorter m).l0.Pairwise fun first second => second.id ≤ first.id := by
  have total : Std.Total fun first second : SSTableInfo => second.id ≤ first.id :=
    ⟨fun first second => le_total second.id first.id⟩
  have trans : IsTrans SSTableInfo fun first second => second.id ≤ first.id :=
    ⟨fun _ _ _ below above => above.trans below⟩
  exact pairwise_insertionSort _ _

variable {m}

/-- The tables of a level below L0, sorted by their first keys. -/
theorem stateOf_level (placed : Placed m) {i : Nat} (positive : i ≠ 0) :
    (stateOf sorter m).levels.getD i [] =
      sorter.sort (m.infos.filter fun info => info.level.toNat = i) := by
  rw [stateOf]
  simp only [getD_eq_getElem?_getD, getElem?_map]
  by_cases within : i < numLevels m
  · rw [getElem?_range within]
    simp [positive]
  have none : (m.infos.filter fun info => info.level.toNat = i) = [] := by
    apply filter_eq_nil_iff.mpr
    intro info mem isLevel
    rw [decide_eq_true_eq] at isLevel
    subst isLevel
    exact within (placed info mem fun zero => positive (by rw [zero]; rfl))
  rw [getElem?_eq_none (by simpa using within), none]
  exact (sorter.perm []).eq_nil.symm

end

/-- All tables are within the limits of the format. -/
def TablesFit (m : ManifestContents) : Prop :=
  ∀ (id : Nat) (info : SSTableInfo), m.tables[id]? = some info → info.Fits

theorem tablesFit_empty : TablesFit .empty := by
  rintro id info ⟨⟩

theorem TablesFit.applyRecord {m : ManifestContents} (fit : TablesFit m) {record : Record}
    (fits : record.FieldsFit) : TablesFit (m.applyRecord record) := by
  cases record with
  | sstableAdded info => exact forall_insert fit fits
  | sstableRemoved id level => exact forall_erase fit id
  | snapshot sstables hnswSnapshots =>
    exact forall_insertAll (fun id info none => tablesFit_empty id info none) fits.1.2
  | nextIDs nextMemID nextSeq => exact fit
  | hnswSnapshot info => exact fit

theorem TablesFit.foldl {m : ManifestContents} (fit : TablesFit m) {records : List Record}
    (fits : ∀ record ∈ records, record.Fits) :
    TablesFit (records.foldl ManifestContents.applyRecord m) := by
  induction records generalizing m with
  | nil => exact fit
  | cons record rest ih =>
    exact ih (fit.applyRecord (fits record mem_cons_self).fields) fun later mem =>
      fits later (mem_cons_of_mem _ mem)

theorem TablesFit.placed {m : ManifestContents} (fit : TablesFit m) : Placed m := by
  apply placed_iff.mpr
  intro info mem
  rcases mem_map.mp mem with ⟨⟨id, info⟩, listed, rfl⟩
  exact (fit id info (ExtTreeMap.mem_toList_iff_getElem?_eq_some.mp listed)).level

/-- `buildState` does not panic. -/
theorem TablesFit.buildState_eq {m : ManifestContents} (fit : TablesFit m)
    (sorter : Sorter SSTableInfo.firstKey) : buildState sorter m = some (stateOf sorter m) :=
  if_pos fit.placed

/-- The errors that `Open` takes for a torn tail. -/
def DecodeError.isTail : DecodeError → Bool
  | .corrupt => true
  | .short => true
  | .unknownType => false

/-- The records of the manifest. -/
def codec : Codec Record DecodeError where
  encode := encodeRecord
  decode := decodeRecord
  isTail := DecodeError.isTail

theorem codec_encode : codec.encode = encodeRecord :=
  rfl

theorem codec_decode : codec.decode = decodeRecord :=
  rfl

theorem codec_lawful : codec.Lawful Record.Fits id := by
  constructor
  · intro record
    exact frame_ne_nil _
  · intro record fits rest
    rw [codec_encode, codec_decode, decodeRecord_encodeRecord fits, id]
  · intro record fits data isPrefix proper
    rw [codec_encode] at isPrefix proper
    rw [codec_decode, decodeRecord_cut fits isPrefix proper]
    exact ⟨.short, rfl, rfl⟩

/-- `Open` up to `buildState`, on the content of the file. -/
def openFile (data : Bytes) : Except DecodeError Manifest :=
  (codec.replay ManifestContents.applyRecord data.length data .empty).map fun contents =>
    ⟨contents, 0⟩

/-- The state that `Open` returns, or none if it panics. -/
def openState (sorter : Sorter SSTableInfo.firstKey) (data : Bytes) :
    Except DecodeError (Option State) :=
  (openFile data).map fun m => buildState sorter m.toManifestContents

/-! ## Calls -/

/-- The calls that change a manifest. -/
inductive Call where
  | addSSTable (info : SSTableInfo)
  | removeSSTable (id : Nat) (level : UInt8)
  | updateNextIDs (nextMemID nextSeq : Nat)
  | addHNSWSnapshot (info : HNSWSnapshotInfo)
  deriving DecidableEq, Repr

/-- The record that a call appends first. -/
def Call.record : Call → Record
  | addSSTable info => .sstableAdded info
  | removeSSTable id level => .sstableRemoved id level
  | updateNextIDs nextMemID nextSeq => .nextIDs nextMemID nextSeq
  | addHNSWSnapshot info => .hnswSnapshot info

/-- The call ends with `maybeSnapshot`. -/
def Call.mayWriteSnapshot : Call → Bool
  | addSSTable _ => true
  | removeSSTable _ _ => true
  | updateNextIDs _ _ => false
  | addHNSWSnapshot _ => false

/-- The orders in which the two maps are iterated. -/
structure MapOrder where
  tables : Arrangement SSTableInfo
  hnswSnapshots : Arrangement HNSWSnapshotInfo

def snapshotInterval : Nat := 64

/-- The records of a snapshot: the whole state and the counters. -/
def snapshotRecords (order : MapOrder) (m : ManifestContents) : List Record :=
  [.snapshot (order.tables.arrange m.infos)
      (order.hnswSnapshots.arrange (m.hnswSnapshots.toList.map Prod.snd)),
    .nextIDs m.nextMemID m.nextSeq]

/-- What a call changes in memory. -/
def update (m : ManifestContents) : Call → ManifestContents
  | .addSSTable info => { m with tables := m.tables.insert info.id info }
  | .removeSSTable id _ => { m with tables := m.tables.erase id }
  | .updateNextIDs nextMemID nextSeq => { m with nextMemID := nextMemID, nextSeq := nextSeq }
  | .addHNSWSnapshot info =>
    { m with hnswSnapshots := m.hnswSnapshots.insert info.collection info }

/-- Replaying the record of a call changes the same. -/
theorem applyRecord_record (m : ManifestContents) (call : Call) :
    m.applyRecord call.record = update m call := by
  cases call <;> rfl

theorem named_update {m : ManifestContents} (named : m.Named) (call : Call) :
    (update m call).Named := by
  rcases named with ⟨tables, hnswSnapshots⟩
  cases call with
  | addSSTable info => exact ⟨tables.insert info, hnswSnapshots⟩
  | removeSSTable id level => exact ⟨tables.erase id, hnswSnapshots⟩
  | updateNextIDs nextMemID nextSeq => exact ⟨tables, hnswSnapshots⟩
  | addHNSWSnapshot info => exact ⟨tables, hnswSnapshots.insert info⟩

/-- The manifest with the effect of a call, whose record has been counted. -/
def effect (m : Manifest) (call : Call) : Manifest :=
  ⟨update m.toManifestContents call, m.recordsSinceSnapshot + 1⟩

/-- `maybeSnapshot` is due at the end of the call. -/
def snapshotDue (m : Manifest) (call : Call) : Bool :=
  call.mayWriteSnapshot && decide (snapshotInterval ≤ (m.effect call).recordsSinceSnapshot)

/-- The records that a call appends. -/
def records (order : MapOrder) (m : Manifest) (call : Call) : List Record :=
  call.record ::
    if m.snapshotDue call then snapshotRecords order (m.effect call).toManifestContents else []

/-- The manifest after a call that returned nil. -/
def perform (m : Manifest) (call : Call) : Manifest :=
  if m.snapshotDue call then { m.effect call with recordsSinceSnapshot := 0 } else m.effect call

@[simp]
theorem perform_contents (m : Manifest) (call : Call) :
    (m.perform call).toManifestContents = update m.toManifestContents call := by
  rw [perform]
  split <;> rfl

/-- Replaying a snapshot of the current state changes nothing. -/
theorem applyRecord_snapshot {m : ManifestContents} (named : m.Named) (order : MapOrder) :
    m.applyRecord (.snapshot (order.tables.arrange m.infos)
      (order.hnswSnapshots.arrange (m.hnswSnapshots.toList.map Prod.snd))) = m := by
  rw [ManifestContents.applyRecord, ManifestContents.infos,
    insertAll_values named.tables (order.tables.perm _),
    insertAll_values named.hnswSnapshots (order.hnswSnapshots.perm _)]

/-- However many of its records are replayed, a call has its effect or none. -/
theorem foldl_take_records (order : MapOrder) {m : Manifest}
    (named : m.toManifestContents.Named) (call : Call) (n : Nat) :
    ((m.records order call).take n).foldl ManifestContents.applyRecord m.toManifestContents =
      if n = 0 then m.toManifestContents else update m.toManifestContents call := by
  have after := named_update named call
  cases n with
  | zero => rfl
  | succ n =>
    rw [records, take_succ_cons, foldl_cons, if_neg (Nat.succ_ne_zero n), applyRecord_record]
    split
    · have snapshot := applyRecord_snapshot after order
      rcases n with _ | _ | n
      · rfl
      · simp only [snapshotRecords, effect, take_succ_cons, take_zero, foldl_cons,
          foldl_nil]
        exact snapshot
      · simp only [snapshotRecords, effect, take_succ_cons, take_nil, foldl_cons,
          foldl_nil]
        rw [snapshot]
        rfl
    · rw [take_nil]
      rfl

end Manifest

end Theseon
