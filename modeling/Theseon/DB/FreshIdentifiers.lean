import Theseon.DB.Identifiers

/-!
# Fresh identifiers across crashes

As long as `Open` finds a counter that is not behind the tables of the manifest,
every identifier that is handed out is new.  A crash after a compaction has
recorded an output, and before it records the counter, makes the next `Open` hand
out the identifier of that output again.
-/

namespace Theseon

open Std List
open Lib KV SSTable Compaction Manifest

namespace Store

/-- The identifier that `nextMemID.Add(1)` returns in the step. -/
def handedOut (s : Store) : StoreAction → Option Nat
  | .rotate => s.process.map fun p => addUint64 p.db.nextMemID 1
  | .allocate => s.process.map fun p => addUint64 p.db.nextMemID 1
  | .reopen _ =>
    if s.disk.wals.isEmpty then some (addUint64 s.disk.manifest.nextMemID 1) else none
  | _ => none

/-- No table takes the place of another one: the outputs that a compaction is
still going to add are not in the manifest under their identifiers, and a memtable
is flushed to an identifier under which the manifest has at most its own table of
L0. -/
structure NoneReplaced (s : Store) (p : Process) : Prop where
  outputs : ∀ id ∈ p.compactor.pending, id ∉ s.disk.manifest.tables ∧ id ∉ s.disk.wals
  flushes : ∀ m ∈ p.db.memtables, ∀ info, s.disk.manifest.tables[m.id]? = some info →
    info.level = 0

/-- The counter does not wrap, and `Open` finds one that is not behind the tables
of the manifest. -/
def CounterAhead (s : Store) : StoreAction → Prop
  | .rotate => ∀ p ∈ s.process, p.db.nextMemID < maxSeqNum
  | .allocate => ∀ p ∈ s.process, p.db.nextMemID < maxSeqNum
  | .reopen _ => (∀ id ∈ s.disk.manifest.tables.keys, id ≤ s.disk.recoveredMemID) ∧
      (s.disk.wals.isEmpty → s.disk.recoveredMemID < maxSeqNum)
  | _ => True

instance (s : Store) (a : StoreAction) : Decidable (s.CounterAhead a) := by
  cases a <;> unfold CounterAhead <;> infer_instance

end Store

/-! ## Opening -/

/-- Tables and manifest entries are stored under their own identifiers. -/
structure Disk.Keyed (disk : Disk) : Prop where
  tables : Lib.Keyed Reader.id disk.tables
  manifest : disk.manifest.Named

namespace Disk

variable {disk : Disk}

theorem Keyed.call (keyed : disk.Keyed) (c : Manifest.Call) : (disk.call c).Keyed := by
  refine ⟨keyed.tables, ?_⟩
  rw [Disk.call, Manifest.applyRecord_record]
  exact Manifest.named_update keyed.manifest c

theorem Keyed.putTable (keyed : disk.Keyed) (r : Reader) : (disk.putTable r).Keyed :=
  ⟨keyed.tables.insert r, keyed.manifest⟩

theorem Keyed.removeTable (keyed : disk.Keyed) (r : Reader) : (disk.removeTable r).Keyed :=
  ⟨keyed.tables.erase r.id, keyed.manifest⟩

theorem Keyed.foldl {f : Disk → Reader → Disk}
    (kept : ∀ {disk : Disk}, disk.Keyed → ∀ r, (f disk r).Keyed)
    (keyed : disk.Keyed) (tables : List Reader) : (tables.foldl f disk).Keyed := by
  induction tables generalizing disk with
  | nil => exact keyed
  | cons r rest ih => exact ih (kept keyed r)

end Disk

/-- Tables below L0 have no log. -/
def Disk.DeepWithoutLog (disk : Disk) : Prop :=
  ∀ id info, disk.manifest.tables[id]? = some info → info.level ≠ 0 → id ∉ disk.wals

section

variable {opts : Options} {sorter : Sorter SSTableInfo.firstKey} {disk next : Disk} {db : DB}
  (opens : openDB opts sorter disk = .ok (db, next))

theorem Disk.le_recoveredMemID {id : Nat} (isLog : id ∈ disk.wals) : id ≤ disk.recoveredMemID :=
  le_foldl_max (ExtTreeMap.mem_keys.mpr isLog) _

include opens

/-- Every table that is opened is in the manifest. -/
theorem id_mem_manifest (keyed : disk.Keyed) {r : Reader} (mem : r ∈ db.tables) :
    r.id ∈ disk.manifest.tables := by
  have isLive := (Disk.tables_of_opened keyed.manifest opens).subset mem
  rcases mem_filterMap.mp isLive with ⟨info, infoMem, onDisk⟩
  rw [keyed.tables info.id r onDisk]
  exact mem_iff_get?.mpr ⟨info, (mem_values_iff keyed.manifest.tables).mp infoMem⟩

/-- The identifiers of the memtables that are opened. -/
theorem held_of_opened {id : Nat} (held : Held next ⟨db, .idle, .idle, .idle⟩ id) :
    id ∈ disk.wals ∨ disk.wals.isEmpty ∧ id = addUint64 disk.manifest.nextMemID 1 := by
  rcases openDB_eq_ok opens with ⟨recovered, _, _, logs, _, cases⟩
  have ids := Disk.recoverDir_ids logs
  rcases cases with ⟨rfl, memtables, counter, rfl⟩ | ⟨init, last, rfl, active, immutables, _, rfl⟩
  · have noLog : disk.wals.isEmpty := by
      rw [← ExtTreeMap.isEmpty_keys, ← ids]
      rfl
    cases held with
    | wal mem =>
      rcases mem_insert_key.mp mem with same | old
      · exact .inr ⟨noLog, by rw [← same, counter]⟩
      · exact .inl old
    | memtable mem =>
      rw [memtables, mem_singleton] at mem
      exact .inr ⟨noLog, by rw [mem, ← counter]; rfl⟩
    | flushing flushed => cases flushed
  left
  cases held with
  | wal mem => exact mem
  | @memtable m mem =>
    rw [← ExtTreeMap.mem_keys, ← ids]
    rcases mem_cons.mp mem with rfl | isImmutable
    · simp [active]
    rw [immutables, mem_reverse, mem_map] at isImmutable
    rcases isImmutable with ⟨rw, rwMem, rfl⟩
    simp only [Memtable.freeze_id, RecoveredWAL.memtable_id]
    exact mem_map_of_mem (mem_append_left _ rwMem)
  | flushing flushed => cases flushed

/-- Where the counter starts. -/
theorem nextMemID_of_opened (room : disk.wals.isEmpty → disk.recoveredMemID < maxSeqNum) :
    if disk.wals.isEmpty then
      disk.recoveredMemID = disk.manifest.nextMemID ∧ db.nextMemID = disk.recoveredMemID + 1
    else db.nextMemID = disk.recoveredMemID := by
  rcases openDB_eq_ok opens with ⟨recovered, _, _, logs, _, cases⟩
  have ids := Disk.recoverDir_ids logs
  rw [← ExtTreeMap.isEmpty_keys, ← ids]
  rcases cases with ⟨rfl, _, counter, _⟩ | ⟨init, last, rfl, _, _, counter, _⟩
  · have noLog : disk.recoveredMemID = disk.manifest.nextMemID := by
      rw [Disk.recoveredMemID, ← ids]
      rfl
    have isEmpty : disk.wals.isEmpty := by
      rw [← ExtTreeMap.isEmpty_keys, ← ids]
      rfl
    rw [if_pos (by simp), counter, ← noLog]
    exact ⟨rfl, addUint64_eq (room isEmpty)⟩
  · rw [if_neg (by simp)]
    exact counter

theorem manifest_of_opened :
    next.manifest = disk.manifest ∧ next.tables = disk.tables := by
  rcases openDB_eq_ok opens with ⟨_, _, _, _, _, ⟨_, _, _, rfl⟩ | ⟨_, _, _, _, _, _, rfl⟩⟩
  · exact ⟨rfl, rfl⟩
  · exact ⟨rfl, rfl⟩

theorem Disk.Keyed.opened (keyed : disk.Keyed) : next.Keyed := by
  rcases manifest_of_opened opens with ⟨manifest, tables⟩
  exact ⟨tables ▸ keyed.tables, manifest ▸ keyed.manifest⟩

/-- `Open` starts with a counter that is not behind, if it finds one. -/
theorem Numbered.opened (keyed : disk.Keyed) (deep : disk.DeepWithoutLog)
    (ahead : ∀ id ∈ disk.manifest.tables, id ≤ disk.recoveredMemID)
    (room : disk.wals.isEmpty → disk.recoveredMemID < maxSeqNum) :
    Numbered next ⟨db, .idle, .idle, .idle⟩ := by
  have counter := nextMemID_of_opened opens room
  have heldBound : ∀ id, Held next ⟨db, .idle, .idle, .idle⟩ id →
      id ∈ disk.wals ∨ id = disk.recoveredMemID + 1 ∧ id ≤ db.nextMemID := by
    intro id isHeld
    rcases held_of_opened opens isHeld with isLog | ⟨noLog, isNew⟩
    · exact .inl isLog
    rw [if_pos noLog] at counter
    rw [← counter.1, addUint64_eq (room noLog)] at isNew
    exact .inr ⟨isNew, by rw [counter.2, isNew]⟩
  have start : disk.recoveredMemID ≤ db.nextMemID := by
    split at counter
    · omega
    · omega
  constructor
  · intro id isTaken
    cases isTaken with
    | manifest mem =>
      rw [(manifest_of_opened opens).1] at mem
      exact (ahead id mem).trans start
    | table mem => exact (ahead _ (id_mem_manifest opens keyed mem)).trans start
    | held isHeld =>
      rcases heldBound id isHeld with isLog | ⟨_, bound⟩
      · exact (Disk.le_recoveredMemID isLog).trans start
      · exact bound
  · exact fun id isDrawn => absurd isDrawn not_mem_nil
  · exact fun id isPending => absurd isPending not_mem_nil
  · exact fun id isPending => absurd isPending not_mem_nil
  · exact nodup_nil
  · intro id info found isDeep isHeld
    rw [(manifest_of_opened opens).1] at found
    rcases heldBound id isHeld with isLog | ⟨isNew, _⟩
    · exact deep id info found isDeep isLog
    · have := ahead id (mem_iff_get?.mpr ⟨_, found⟩)
      omega

end

/-! ## Every run -/

/-- The identifier that a running engine hands out next is not in use. -/
theorem Numbered.next_fresh {disk : Disk} {p : Process} (numbered : Numbered disk p)
    (room : p.db.nextMemID < maxSeqNum) :
    ¬ Taken disk p (addUint64 p.db.nextMemID 1) ∧
      addUint64 p.db.nextMemID 1 ∉ p.compactor.drawn := by
  rw [addUint64_eq room]
  constructor
  · intro isTaken
    have := numbered.bound _ isTaken
    omega
  · intro isDrawn
    have := numbered.drawn _ isDrawn
    omega

namespace Store

variable {opts : Options} {s next : Store}

/-- What every run keeps in which `Open` finds a counter that is not behind. -/
structure Kept (s : Store) : Prop where
  keyed : s.disk.Keyed
  deep : s.disk.DeepWithoutLog
  numbered : ∀ p, s.process = some p → Numbered s.disk p

theorem init_kept : init.Kept := by
  constructor
  · exact ⟨keyed_empty, ManifestContents.empty_named⟩
  · intro id info found
    simp [init, Disk.empty, ManifestContents.empty] at found
  · intro p running
    cases running

/-- A running engine keeps the tables below L0 apart from its logs. -/
theorem kept_of_numbered {disk : Disk} {p : Process} {history : History}
    (keyed : disk.Keyed) (numbered : Numbered disk p) : (⟨disk, some p, history⟩ : Store).Kept := by
  constructor
  · exact keyed
  · intro id info found isDeep isLog
    exact numbered.deep id info found isDeep (.wal isLog)
  · intro q running
    cases running
    exact numbered

theorem keyed_flush {disk disk' : Disk} {p p' : Process} (keyed : disk.Keyed)
    (flushes : Flushes opts disk p disk' p') : disk'.Keyed := by
  cases flushes with
  | build stage oldest built => exact keyed.putTable _
  | add stage => exact keyed.call _
  | load stage => exact keyed
  | record stage => exact keyed.call _
  | swap stage => exact keyed
  | clean stage => exact ⟨keyed.tables, keyed.manifest⟩

theorem keyed_compact {disk disk' : Disk} {p p' : Process} {sorter : Sorter Reader.firstKey}
    (keyed : disk.Keyed) (compacts : Compacts opts sorter disk p disk' p') : disk'.Keyed := by
  cases compacts with
  | pick stage picked => exact keyed
  | abandon stage => exact keyed
  | write stage done count => exact keyed.foldl Disk.Keyed.putTable _
  | call stage => exact keyed.call _
  | load stage => exact keyed
  | record stage => exact keyed.call _
  | apply stage => exact keyed.foldl Disk.Keyed.removeTable _

theorem Kept.step (kept : s.Kept) {a : StoreAction} (ahead : s.CounterAhead a)
    (stepped : s.step opts a = some next) : next.Kept := by
  cases stepped_of_step stepped with
  | begin running began =>
    exact kept_of_numbered kept.keyed ((kept.numbered _ running).begin began)
  | append running stage =>
    apply kept_of_numbered _ ((kept.numbered _ running).appended _ _)
    exact ⟨kept.keyed.tables, kept.keyed.manifest⟩
  | rotate running stage =>
    apply kept_of_numbered _ ((kept.numbered _ running).rotated (ahead _ running) _)
    exact ⟨kept.keyed.tables, kept.keyed.manifest⟩
  | flush running flushes =>
    exact kept_of_numbered (keyed_flush kept.keyed flushes)
      ((kept.numbered _ running).flush flushes)
  | allocate running allocated =>
    exact kept_of_numbered kept.keyed
      ((kept.numbered _ running).allocate (ahead _ running) allocated)
  | compact running compacts =>
    exact kept_of_numbered (keyed_compact kept.keyed compacts)
      ((kept.numbered _ running).compact compacts)
  | crash =>
    constructor
    · exact kept.keyed
    · exact kept.deep
    · intro p running
      cases running
  | reopen down opened =>
    exact kept_of_numbered (kept.keyed.opened opened) (.opened opened kept.keyed kept.deep
      (fun id mem => ahead.1 id (ExtTreeMap.mem_keys.mpr mem)) ahead.2)

/-- In every run in which `Open` finds a counter that is not behind the manifest,
every identifier that is handed out is new, and no table takes the place of
another one. -/
theorem identifiers_fresh (reached : Reached (step opts) CounterAhead init s) :
    (∀ a next id, s.CounterAhead a → s.step opts a = some next → s.handedOut a = some id →
      id ∉ s.disk.manifest.tables ∧ id ∉ s.disk.wals ∧
        ∀ p, s.process = some p → ¬ Taken s.disk p id ∧ id ∉ p.compactor.drawn) ∧
      ∀ p, s.process = some p → s.NoneReplaced p := by
  have kept : s.Kept := reached.invariant Kept init_kept fun kept ahead stepped =>
    kept.step ahead stepped
  constructor
  · intro a next id ahead stepped handed
    -- a running engine draws from its own counter
    have running : ∀ p, s.process = some p → p.db.nextMemID < maxSeqNum →
        addUint64 p.db.nextMemID 1 = id → id ∉ s.disk.manifest.tables ∧ id ∉ s.disk.wals ∧
          ∀ q, s.process = some q → ¬ Taken s.disk q id ∧ id ∉ q.compactor.drawn := by
      rintro p isProcess room rfl
      have fresh := (kept.numbered p isProcess).next_fresh room
      refine ⟨fun mem => fresh.1 (.manifest mem), fun mem => fresh.1 (.held (.wal mem)), ?_⟩
      intro q isQ
      cases isProcess.symm.trans isQ
      exact fresh
    cases a with
    | rotate =>
      rcases Option.map_eq_some_iff.mp handed with ⟨p, isProcess, isID⟩
      exact running p isProcess (ahead p isProcess) isID
    | allocate =>
      rcases Option.map_eq_some_iff.mp handed with ⟨p, isProcess, isID⟩
      exact running p isProcess (ahead p isProcess) isID
    | reopen sorter =>
      rw [handedOut] at handed
      split at handed
      · rename_i noLog
        cases handed
        have noKeys : s.disk.wals.keys = [] :=
          isEmpty_iff.mp (ExtTreeMap.isEmpty_keys.trans noLog)
        have stopped : s.process = none := by
          cases stepped_of_step stepped with
          | reopen down opened => exact down
        have start : s.disk.recoveredMemID = s.disk.manifest.nextMemID := by
          rw [Disk.recoveredMemID, noKeys]
          rfl
        have room := ahead.2 noLog
        rw [start] at room
        rw [addUint64_eq room]
        refine ⟨?_, ?_, ?_⟩
        · intro mem
          have := ahead.1 _ (ExtTreeMap.mem_keys.mpr mem)
          omega
        · rw [← ExtTreeMap.mem_keys, noKeys]
          exact not_mem_nil
        · intro p isProcess
          rw [stopped] at isProcess
          cases isProcess
      · cases handed
    | begin ops => cases handed
    | append => cases handed
    | flush => cases handed
    | compact sorter => cases handed
    | crash => cases handed
  · intro p isProcess
    have numbered := kept.numbered p isProcess
    constructor
    · intro id isPending
      have unused := numbered.unused id isPending
      exact ⟨fun mem => unused (.manifest mem), fun mem => unused (.held (.wal mem))⟩
    · intro m mMem info found
      by_contra isDeep
      exact numbered.deep m.id info found isDeep (.memtable mMem)

/-! ## A crash before the counter is recorded -/

/-- Every write fills its memtable, and every table of L0 is compacted. -/
def eagerOptions : Options :=
  { defaultOptions with
    memtableSize := 1
    compaction :=
      { Compaction.defaultConfig with
        l0CompactionTrigger := 1, levelSizeBase := 10, maxLevels := 4 } }

/-- A write up to its rotation. -/
def putActions (key value : UInt8) : List StoreAction :=
  [.begin [.put [key] (some [value])], .append]

/-- The steps of one flush. -/
def flushActions : List StoreAction :=
  List.replicate 6 .flush

/-- The first write is flushed as table 1 and compacted to table 3, whose record and
`rest` are the last steps before the crash. -/
def crashedCompaction (rest : List StoreAction) : List StoreAction :=
  [.reopen (.insertion _)] ++ putActions 97 49 ++ [.rotate] ++ flushActions ++
    [.compact (.insertion _), .allocate, .compact (.insertion _), .compact (.insertion _)] ++
    rest ++ [.crash, .reopen (.insertion _)]

/-- After `Open` a second write fills its memtable. -/
def crashAfterAdd : List StoreAction :=
  crashedCompaction [] ++ putActions 98 50

/-- The rotation hands out the identifier of the table that the compaction has
recorded. -/
theorem outputID_handed_out_again :
    (run (step eagerOptions) init crashAfterAdd).map (fun s =>
        (s.handedOut .rotate, (s.step eagerOptions .rotate).isSome, s.disk.manifest.tables.keys)) =
      some (some 3, true, [1, 3]) := by
  decide +kernel

/-- The same run with the crash after the counter has been recorded. -/
def crashAfterNextIDs : List StoreAction :=
  crashedCompaction (List.replicate 3 (.compact (.insertion _))) ++ putActions 98 50

theorem crashAfterNextIDs_fresh :
    ∃ s next, Reached (step eagerOptions) CounterAhead init s ∧
      s.step eagerOptions .rotate = some next ∧ s.handedOut .rotate = some 4 ∧
      4 ∉ s.disk.manifest.tables ∧ 4 ∉ s.disk.wals := by
  have evaluated : ∃ s ∈ runAllowed (step eagerOptions) CounterAhead init crashAfterNextIDs,
      s.handedOut .rotate = some 4 ∧ s.CounterAhead .rotate ∧
        ∃ next ∈ s.step eagerOptions .rotate, True := by
    decide +kernel
  rcases Reached.of_evaluated evaluated with ⟨s, reached, handed, ahead, next, isNext, _⟩
  rcases (identifiers_fresh reached).1 .rotate next 4 ahead isNext handed with
    ⟨notInManifest, notLog, _⟩
  exact ⟨s, next, reached, isNext, handed, notInManifest, notLog⟩

end Store

end Theseon
