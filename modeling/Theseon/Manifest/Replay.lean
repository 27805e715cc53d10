import Theseon.Manifest.Runs

/-!
# Replaying a manifest

A manifest that is opened for the first time after any sequence of calls has the
effect of the records that lie wholly within its file, and of the whole file that is
the state of the writer.  The snapshots between the records change nothing, as long as
their length can be written in four bytes.
-/

namespace Theseon.Manifest

open Std (ExtTreeMap)
open Lib KV List

/-- The manifest after calls that returned nil. -/
def afterCalls (m : Manifest) (calls : List Call) : Manifest :=
  calls.foldl perform m

/-- The records that calls append, with the snapshots between them. -/
def writtenBy (order : MapOrder) : Manifest → List Call → List Record
  | _, [] => []
  | m, call :: rest => m.records order call ++ writtenBy order (m.perform call) rest

/-- The calls on a new manifest, `Create` first. -/
def sinceCreate (nextMemID nextSeq : Nat) (calls : List Call) : List Call :=
  .updateNextIDs nextMemID nextSeq :: calls

/-- The records of a new manifest. -/
def fileRecords (order : MapOrder) (nextMemID nextSeq : Nat) (calls : List Call) : List Record :=
  writtenBy order ⟨.empty, 0⟩ (sinceCreate nextMemID nextSeq calls)

/-- The writer's own state of a new manifest. -/
def writerState (nextMemID nextSeq : Nat) (calls : List Call) : ManifestContents :=
  (afterCalls ⟨.empty, 0⟩ (sinceCreate nextMemID nextSeq calls)).toManifestContents

/-- The snapshot that `maybeSnapshot` writes. -/
def snapshotRecord (order : MapOrder) (m : ManifestContents) : Record :=
  .snapshot (order.tables.arrange m.infos)
    (order.hnswSnapshots.arrange (m.hnswSnapshots.toList.map Prod.snd))

variable {record : Record}

section

variable {order : MapOrder} {sorter : Sorter SSTableInfo.firstKey}

/-- Replaying the records gives the writer's own state. -/
theorem foldl_writtenBy {m : Manifest} (named : m.toManifestContents.Named) (calls : List Call) :
    (writtenBy order m calls).foldl ManifestContents.applyRecord m.toManifestContents =
      (afterCalls m calls).toManifestContents := by
  induction calls generalizing m with
  | nil => rfl
  | cons call rest ih =>
    have replayed := foldl_take_records order named call (m.records order call).length
    rw [take_length, if_neg (by simp [records]), ← perform_contents] at replayed
    have namedNext : (m.perform call).toManifestContents.Named := by
      rw [perform_contents]
      exact named_update named call
    rw [writtenBy, foldl_append, replayed, ih namedNext]
    rfl

/-! ## The records are within the limits -/

/-- Everything in the manifest fits the fields of a snapshot. -/
structure Bounded (m : ManifestContents) : Prop where
  tables : TablesFit m
  hnswSnapshots : ∀ (name : Bytes) (info : HNSWSnapshotInfo),
    m.hnswSnapshots[name]? = some info → info.Fits
  nextMemID : m.nextMemID ≤ maxSeqNum
  nextSeq : m.nextSeq ≤ maxSeqNum

theorem bounded_empty : Bounded .empty := by
  constructor
  · exact tablesFit_empty
  · rintro name info ⟨⟩
  · exact Nat.zero_le _
  · exact Nat.zero_le _

variable {m : ManifestContents}

theorem Bounded.update (bounded : Bounded m) {call : Call} (fits : call.record.FieldsFit) :
    Bounded (update m call) := by
  cases call with
  | addSSTable added =>
    exact ⟨forall_insert bounded.tables fits, bounded.hnswSnapshots, bounded.nextMemID,
      bounded.nextSeq⟩
  | removeSSTable removed level =>
    exact ⟨forall_erase bounded.tables removed, bounded.hnswSnapshots, bounded.nextMemID,
      bounded.nextSeq⟩
  | updateNextIDs nextMemID nextSeq =>
    exact ⟨bounded.tables, bounded.hnswSnapshots, fits.1, fits.2⟩
  | addHNSWSnapshot added =>
    exact ⟨bounded.tables, forall_insert bounded.hnswSnapshots fits, bounded.nextMemID,
      bounded.nextSeq⟩

theorem length_le_length_flatMap {α : Type} {encode : α → Bytes}
    (nonempty : ∀ item, 0 < (encode item).length) (items : List α) :
    items.length ≤ (items.flatMap encode).length := by
  induction items with
  | nil => exact le_rfl
  | cons item rest ih =>
    have one := nonempty item
    rw [length_cons, flatMap_cons, length_append]
    omega

/-- A snapshot whose length fits its field is within the limits. -/
theorem Bounded.fits_snapshot (bounded : Bounded m) (named : m.Named) (order : MapOrder)
    (payload : (encodePayload (snapshotRecord order m)).length < 2 ^ 32) :
    (snapshotRecord order m).Fits := by
  have tableBytes := @length_le_length_flatMap _ encodeSSTableInfo
    (fun info => by simp [encodeSSTableInfo]) (order.tables.arrange m.infos)
  have snapshotBytes := @length_le_length_flatMap _ encodeHNSWSnapshot
    (fun info => by simp [encodeHNSWSnapshot, appendSized])
    (order.hnswSnapshots.arrange (m.hnswSnapshots.toList.map Prod.snd))
  refine ⟨⟨⟨?_, ?_⟩, ?_, ?_⟩, payload⟩
  · simp only [snapshotRecord, encodePayload, encodeSnapshot, length_cons,
      length_append] at payload
    omega
  · intro info mem
    have listed := order.tables.mem_arrange.mp mem
    exact bounded.tables info.id info ((mem_values_iff named.tables).mp listed)
  · simp only [snapshotRecord, encodePayload, encodeSnapshot, length_cons,
      length_append] at payload
    omega
  · intro info mem
    have listed := order.hnswSnapshots.mem_arrange.mp mem
    exact bounded.hnswSnapshots info.collection info
      ((mem_values_iff named.hnswSnapshots).mp listed)

theorem named_afterCalls {m : Manifest} (named : m.toManifestContents.Named) (calls : List Call) :
    (afterCalls m calls).toManifestContents.Named := by
  induction calls generalizing m with
  | nil => exact named
  | cons call rest ih =>
    apply ih
    rw [perform_contents]
    exact named_update named call

theorem bounded_afterCalls {m : Manifest} (bounded : Bounded m.toManifestContents)
    {calls : List Call} (fields : ∀ call ∈ calls, call.record.FieldsFit) :
    Bounded (afterCalls m calls).toManifestContents := by
  induction calls generalizing m with
  | nil => exact bounded
  | cons call rest ih =>
    apply ih _ fun later mem => fields later (mem_cons_of_mem _ mem)
    rw [perform_contents]
    exact bounded.update (fields call mem_cons_self)

/-- A call appends its own record, a snapshot and the counters. -/
theorem cases_of_mem_records {m : Manifest} {call : Call} (mem : record ∈ m.records order call) :
    record = call.record ∨
      record = snapshotRecord order (update m.toManifestContents call) ∨
      record = .nextIDs (update m.toManifestContents call).nextMemID
        (update m.toManifestContents call).nextSeq := by
  rcases mem_cons.mp mem with isOwn | inSnapshot
  · exact .inl isOwn
  split at inSnapshot
  · rcases mem_cons.mp inSnapshot with isSnapshot | counters
    · exact .inr (.inl isSnapshot)
    · exact .inr (.inr (mem_singleton.mp counters))
  · cases inSnapshot

/-- Every record was appended by one of the calls. -/
theorem exists_of_mem_writtenBy {m : Manifest} {calls : List Call}
    (mem : record ∈ writtenBy order m calls) :
    ∃ before call after, calls = before ++ call :: after ∧
      record ∈ (afterCalls m before).records order call := by
  induction calls generalizing m with
  | nil => cases mem
  | cons call rest ih =>
    rcases mem_append.mp mem with now | later
    · exact ⟨[], call, rest, rfl, now⟩
    · rcases ih later with ⟨before, next, after, rfl, inRecords⟩
      exact ⟨call :: before, next, after, rfl, inRecords⟩

/-- All records that are written are within the limits if their lengths are. -/
theorem fits_of_mem_writtenBy {m : Manifest} (named : m.toManifestContents.Named)
    (bounded : Bounded m.toManifestContents) {calls : List Call}
    (fields : ∀ call ∈ calls, call.record.FieldsFit)
    (small : ∀ record ∈ writtenBy order m calls, (encodePayload record).length < 2 ^ 32) :
    ∀ record ∈ writtenBy order m calls, record.Fits := by
  intro record mem
  have payload := small record mem
  rcases exists_of_mem_writtenBy mem with ⟨before, call, after, rfl, inRecords⟩
  have callFits := fields call (mem_append_right _ mem_cons_self)
  have namedNext := named_update (named_afterCalls named before) call
  have boundedNext := (bounded_afterCalls bounded fun call mem =>
    fields call (mem_append_left _ mem)).update callFits
  rcases cases_of_mem_records inRecords with rfl | rfl | rfl
  · exact ⟨callFits, payload⟩
  · exact boundedNext.fits_snapshot namedNext order payload
  · exact ⟨⟨boundedNext.nextMemID, boundedNext.nextSeq⟩, payload⟩

/-! ## The state -/

/-- The state lists the tables of the manifest, those of L0 by descending identifier and
those of a deeper level by ascending first key. -/
structure Describes (state : State) (m : ManifestContents) : Prop where
  l0 : ∀ info : SSTableInfo,
    info ∈ state.l0 ↔ m.tables[info.id]? = some info ∧ info.level = 0
  newestFirst : state.l0.Pairwise fun first second => second.id < first.id
  levels : ∀ i, i ≠ 0 → ∀ info : SSTableInfo,
    info ∈ state.levels.getD i [] ↔ m.tables[info.id]? = some info ∧ info.level.toNat = i
  ascending : ∀ i, i ≠ 0 →
    (state.levels.getD i []).Pairwise fun first second => first.firstKey ≤ second.firstKey
  nextMemID : state.nextMemID = m.nextMemID
  nextSeq : state.nextSeq = m.nextSeq
  hnswSnapshots : state.hnswSnapshots = m.hnswSnapshots

theorem mem_l0_iff (named : m.Named) {info : SSTableInfo} :
    info ∈ (stateOf sorter m).l0 ↔ m.tables[info.id]? = some info ∧ info.level = 0 := by
  rw [mem_stateOf_l0]
  exact and_congr_left fun _ => mem_values_iff named.tables

theorem describes_stateOf (named : m.Named) (placed : Placed m) :
    Describes (stateOf sorter m) m := by
  constructor
  · exact fun info => mem_l0_iff named
  · have distinct : (stateOf sorter m).l0.Pairwise fun first second => first.id ≠ second.id := by
      have ids : (((m.infos.filter fun info => info.level = 0).insertionSort fun first second =>
          second.id ≤ first.id).map SSTableInfo.id).Nodup := by
        apply ((perm_insertionSort _ _).map SSTableInfo.id).nodup_iff.mpr
        exact (named.tables.nodup_keys).sublist (filter_sublist.map _)
      exact pairwise_map.mp ids
    apply ((stateOf_l0_descending sorter m).and distinct).imp
    rintro first second ⟨below, different⟩
    exact lt_of_le_of_ne below different.symm
  · intro i positive info
    rw [stateOf_level sorter placed positive, sorter.mem_sort, mem_filter, decide_eq_true_eq]
    exact and_congr_left fun _ => mem_values_iff named.tables
  · intro i positive
    rw [stateOf_level sorter placed positive]
    exact sorter.sorted _
  · rfl
  · rfl
  · rfl

theorem openState_take {written : List Record} (fits : ∀ record ∈ written, record.Fits)
    (n : Nat) :
    openState sorter ((written.flatMap encodeRecord).take n) =
      .ok (some (stateOf sorter
        ((recordsWithin codec written n).foldl ManifestContents.applyRecord .empty))) := by
  have fit : TablesFit _ :=
    tablesFit_empty.foldl fun record (mem : record ∈ recordsWithin codec _ n) =>
    fits record (mem_of_mem_recordsWithin mem)
  have replayed := codec_lawful.replay_take ManifestContents.applyRecord fits
    (le_refl ((written.flatMap encodeRecord).take n).length) .empty
  rw [map_id] at replayed
  rw [openState, openFile]
  change ((codec.replay _ _ ((written.flatMap codec.encode).take n) _).map _).map _ = _
  rw [replayed, ← fit.buildState_eq]
  rfl

theorem openState_whole {written : List Record} (fits : ∀ record ∈ written, record.Fits) :
    openState sorter (written.flatMap encodeRecord) =
      .ok (some (stateOf sorter (written.foldl ManifestContents.applyRecord .empty))) := by
  have all : recordsWithin codec written (written.flatMap encodeRecord).length = written :=
    recordsWithin_of_length_le (le_refl _)
  have opened := @openState_take sorter written fits (written.flatMap encodeRecord).length
  rwa [take_length, all] at opened

theorem foldl_fileRecords (order : MapOrder) (nextMemID nextSeq : Nat) (calls : List Call) :
    (fileRecords order nextMemID nextSeq calls).foldl ManifestContents.applyRecord .empty =
      writerState nextMemID nextSeq calls :=
  @foldl_writtenBy order ⟨.empty, 0⟩ ManifestContents.empty_named _

theorem writerState_named (nextMemID nextSeq : Nat) (calls : List Call) :
    (writerState nextMemID nextSeq calls).Named :=
  named_afterCalls ManifestContents.empty_named _

end

/-- A table on the last level that a byte can name. -/
def topTable : SSTableInfo :=
  ⟨1, 255, [97], [98]⟩

end Theseon.Manifest
