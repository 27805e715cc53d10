import Theseon.DB.DistinctKeys

/-!
# Versions found by `Open`

`Open` takes every table of the manifest and every log.  If no internal key is in
two of them, and the counter that it recovers is not behind a table, the engine
starts without holding a version twice and never does.
-/

namespace Theseon

open Std (ExtTreeMap)
open Lib KV SSTable Compaction Manifest Iterator List

/-- The internal keys that a log replays. -/
def RecoveredWAL.keys (rw : RecoveredWAL) : List Bytes :=
  rw.entries.map fun e => e.version.key

/-- The tables are as they were built. -/
def TablesSound (tables : ExtTreeMap Nat Reader) : Prop :=
  ∀ (id : Nat) (r : Reader), tables[id]? = some r → r.WellFormed ∧ r.Healthy

namespace TablesSound

variable {tables : ExtTreeMap Nat Reader}

theorem insert (sound : TablesSound tables) {table : Reader}
    (isSound : table.WellFormed ∧ table.Healthy) : TablesSound (tables.insert table.id table) :=
  forall_insert sound isSound

theorem erase (sound : TablesSound tables) (removed : Nat) : TablesSound (tables.erase removed) :=
  forall_erase sound removed

end TablesSound

variable {disk : Disk}

theorem tablesSound_foldl_putTable {new : List Reader} (sound : TablesSound disk.tables)
    (isSound : ∀ r ∈ new, r.WellFormed ∧ r.Healthy) :
    TablesSound (new.foldl Disk.putTable disk).tables := by
  induction new generalizing disk with
  | nil => exact sound
  | cons table rest ih =>
    apply ih
    · exact sound.insert (isSound table mem_cons_self)
    · exact fun r mem => isSound r (mem_cons_of_mem _ mem)

theorem tablesSound_foldl_removeTable {removed : List Reader} (sound : TablesSound disk.tables) :
    TablesSound (removed.foldl Disk.removeTable disk).tables := by
  induction removed generalizing disk with
  | nil => exact sound
  | cons table rest ih => exact ih (sound.erase table.id)

namespace Disk

variable {disk next : Disk} {opts : Options} {sorter : Sorter SSTableInfo.firstKey} {db : DB}

/-- The logs, none if one of them cannot be read. -/
def recoveredLogs (disk : Disk) : List RecoveredWAL :=
  match disk.recoverDir with
  | .ok recovered => recovered
  | .error _ => []

/-- The internal keys of the tables and of the logs. -/
def keys (disk : Disk) : List Bytes :=
  disk.liveTables.flatMap Reader.keys ++ disk.recoveredLogs.flatMap RecoveredWAL.keys

/-- The sequence counter that `Open` finds. -/
def recoveredSeq (disk : Disk) : Nat :=
  (disk.recoveredLogs.flatMap fun rw => rw.entries.map WAL.Entry.seq).foldl max
    disk.manifest.nextSeq

/-- No internal key is in two tables or logs, or twice in one, and none in a table
is above the counter. -/
def HeldOnce (disk : Disk) : Prop :=
  disk.keys.Nodup ∧ ∀ r ∈ disk.liveTables, ∀ key ∈ r.keys, seqNum key ≤ disk.recoveredSeq

instance (disk : Disk) : Decidable disk.HeldOnce :=
  inferInstanceAs (Decidable (_ ∧ _))

theorem recoveredLogs_eq {recovered : List RecoveredWAL} (logs : disk.recoverDir = .ok recovered) :
    disk.recoveredLogs = recovered := by
  rw [recoveredLogs, logs]

end Disk

theorem RecoveredWAL.keys_memtable (rw : RecoveredWAL) : rw.memtable.keys.Perm rw.keys := by
  have perm := (Memtable.foldl_put_perm (.new rw.id) (rw.entries.map WAL.Entry.version)).map
    Entry.key
  rw [Memtable.new_entries, append_nil, map_map] at perm
  exact perm

theorem RecoveredWAL.long {rw : RecoveredWAL} {entry : Entry} (mem : entry ∈ rw.memtable.entries) :
    entry.Long := by
  rcases Memtable.mem_foldl_put.mp mem with isVersion | isOld
  · rcases mem_map.mp isVersion with ⟨e, _, rfl⟩
    rw [Entry.Long, WAL.Entry.version, makeInternalKey_length]
    exact Nat.le_add_left _ _
  · cases isOld

/-- The number of a replayed version is not above that of its log entry. -/
theorem WAL.Entry.seqNum_version_le (e : WAL.Entry) : seqNum e.version.key ≤ e.seq := by
  by_cases fits : e.seq ≤ maxSeqNum
  · exact (seqNum_makeInternalKey fits).le
  · exact (seqNum_le _).trans (Nat.le_of_not_le fits)

namespace Disk

variable {disk next : Disk} {opts : Options} {sorter : Sorter SSTableInfo.firstKey} {db : DB}

/-- The memtables that are opened hold the keys of the logs. -/
theorem memtables_of_opened (opened : openDB opts sorter disk = .ok (db, next)) :
    (db.memtables.flatMap Memtable.keys).Perm (disk.recoveredLogs.flatMap RecoveredWAL.keys) ∧
      (∀ m ∈ db.memtables, ∀ entry ∈ m.entries, entry.Long) ∧ db.nextSeq = disk.recoveredSeq := by
  rcases openDB_eq_ok opened with ⟨recovered, _, _, logs, counter, cases⟩
  rw [recoveredSeq, recoveredLogs_eq logs]
  rcases cases with ⟨rfl, memtables, _, _⟩ | ⟨init, last, rfl, active, immutables, _, _⟩
  · rw [memtables]
    refine ⟨List.Perm.refl _, ?_, counter⟩
    intro m mMem
    rw [mem_singleton.mp mMem]
    exact forall_mem_nil _
  refine ⟨?_, ?_, counter⟩
  · rw [DB.memtables, active, immutables]
    have newestFirst : last.memtable.keys ++
        ((init.map fun rw => rw.memtable.freeze).reverse).flatMap Memtable.keys =
          (init ++ [last]).reverse.flatMap fun rw => rw.memtable.keys := by
      rw [reverse_append, ← map_reverse, flatMap_map]
      rfl
    rw [flatMap_cons, newestFirst]
    apply ((reverse_perm _).flatMap_right _).trans
    exact List.Perm.flatMap_left _ fun rw _ => rw.keys_memtable
  intro m mMem entry entryMem
  rcases mem_cons.mp mMem with rfl | isImmutable
  · rw [active] at entryMem
    exact RecoveredWAL.long entryMem
  rw [immutables, mem_reverse] at isImmutable
  rcases mem_map.mp isImmutable with ⟨rw, _, rfl⟩
  exact RecoveredWAL.long entryMem

/-- `Open` starts without holding a version twice. -/
theorem HeldOnce.opened (held : disk.HeldOnce) (named : disk.manifest.Named)
    (sound : TablesSound disk.tables)
    (opened : openDB opts sorter disk = .ok (db, next)) :
    HoldsOnce ⟨db, .idle, .idle, .idle⟩ := by
  have tables := tables_of_opened named opened
  rcases memtables_of_opened opened with ⟨memtables, long, counter⟩
  constructor
  · have all : db.keys.Subperm disk.keys := by
      apply ((memtables.subperm).append (subperm_flatMap tables Reader.keys)).trans
      exact perm_append_comm.subperm
    rcases all with ⟨kept, perm, sub⟩
    exact perm.nodup_iff.mp (held.1.sublist sub)
  · intro key mem
    change seqNum key ≤ db.nextSeq
    rw [counter]
    rcases mem_append.mp mem with inMemtable | inTable
    · rcases mem_flatMap.mp (memtables.mem_iff.mp inMemtable) with ⟨rw, rwMem, keyMem⟩
      rcases mem_map.mp keyMem with ⟨e, eMem, rfl⟩
      apply e.seqNum_version_le.trans
      exact le_foldl_max (mem_flatMap.mpr ⟨rw, rwMem, mem_map_of_mem eMem⟩) _
    · rcases mem_flatMap.mp inTable with ⟨r, rMem, keyMem⟩
      exact held.2 r (tables.subset rMem) key keyMem
  · rintro _ _ ⟨⟩
  · exact long
  · intro r rMem
    rcases mem_filterMap.mp (tables.subset rMem) with ⟨info, _, found⟩
    exact sound info.id r found
  · rintro _ ⟨⟩
  · rintro _ ⟨⟩
  · exact forall_mem_nil _

end Disk

/-! ## Every run -/

namespace Store

variable {opts : Options} {s next : Store}

/-- At every `Open` no version is found twice and the counter is not behind, and it
does not wrap. -/
def FindsOnce (s : Store) : StoreAction → Prop
  | .begin ops => ∀ p ∈ s.process, p.db.nextSeq + ops.length ≤ maxSeqNum
  | .reopen _ => s.disk.HeldOnce
  | _ => True

instance (s : Store) : (a : StoreAction) → Decidable (s.FindsOnce a)
  | .begin _ => inferInstanceAs (Decidable (∀ p ∈ s.process, _))
  | .reopen _ => inferInstanceAs (Decidable s.disk.HeldOnce)
  | .append | .rotate | .flush | .allocate | .compact _ | .crash => .isTrue trivial

/-- What every such run keeps. -/
structure Once (s : Store) : Prop where
  keyed : s.disk.Keyed
  sound : TablesSound s.disk.tables
  running : ∀ p, s.process = some p → HoldsOnce p

theorem init_once : init.Once where
  keyed := ⟨keyed_empty, ManifestContents.empty_named⟩
  sound := by
    intro id r found
    simp [init, Disk.empty] at found
  running := fun p running => absurd running.symm (Option.some_ne_none p)

variable {p : Process}

theorem once_of_running {history : History} (keyed : disk.Keyed) (sound : TablesSound disk.tables)
    (held : HoldsOnce p) :
    (⟨disk, some p, history⟩ : Store).Once := by
  refine ⟨keyed, sound, ?_⟩
  intro q running
  cases running
  exact held

theorem Once.flushes (once : s.Once) {p' : Process} (held : HoldsOnce p)
    (step : Flushes opts s.disk p disk p') : TablesSound disk.tables := by
  cases step with
  | @build newer mt table stage oldest built =>
    have mtMem : mt ∈ p.db.memtables := by simp [DB.memtables, oldest]
    exact once.sound.insert (flushTable_eq_ok (held.long mt mtMem) built).2
  | add stage => exact once.sound
  | load stage => exact once.sound
  | record stage => exact once.sound
  | swap stage => exact once.sound
  | clean stage => exact once.sound

theorem Once.compacts (once : s.Once) {p' : Process} {sorter : Sorter Reader.firstKey}
    (held : HoldsOnce p) (step : Compacts opts sorter s.disk p disk p') :
    TablesSound disk.tables := by
  have outputs := (held.compacts step).outputs
  cases step with
  | pick stage picked => exact once.sound
  | abandon stage => exact once.sound
  | write stage done count => exact tablesSound_foldl_putTable once.sound outputs
  | call stage => exact once.sound
  | load stage => exact once.sound
  | record stage => exact once.sound
  | apply stage => exact tablesSound_foldl_removeTable once.sound

theorem Once.step (once : s.Once) {a : StoreAction} (finds : s.FindsOnce a)
    (stepped : s.step opts a = some next) : next.Once := by
  cases stepped_of_step stepped with
  | begin running began =>
    exact once_of_running once.keyed once.sound
      ((once.running _ running).begin (finds _ running) began)
  | append running stage =>
    exact once_of_running ⟨once.keyed.tables, once.keyed.manifest⟩ once.sound
      ((once.running _ running).appended stage)
  | rotate running stage =>
    exact once_of_running ⟨once.keyed.tables, once.keyed.manifest⟩ once.sound
      ((once.running _ running).rotated stage)
  | flush running flushes =>
    have held := once.running _ running
    exact once_of_running (keyed_flush once.keyed flushes) (once.flushes held flushes)
      (held.flushes flushes)
  | allocate running allocated =>
    exact once_of_running once.keyed once.sound ((once.running _ running).allocated allocated)
  | compact running compacts =>
    have held := once.running _ running
    exact once_of_running (keyed_compact once.keyed compacts) (once.compacts held compacts)
      (held.compacts compacts)
  | crash =>
    exact ⟨once.keyed, once.sound, fun p running => absurd running.symm (Option.some_ne_none p)⟩
  | reopen down opened =>
    apply once_of_running (once.keyed.opened opened)
    · rw [(manifest_of_opened opened).2]
      exact once.sound
    · exact Disk.HeldOnce.opened finds once.keyed.manifest once.sound opened

/-- The inputs of a picked task hold no version twice. -/
theorem distinct_of_picked (held : HoldsOnce p) {task : CompactionTask}
    (picked : Picked p.db.buildLevelState task) : task.Distinct := by
  have located := located_of_picked picked
  have inputs : task.allInputs.Subperm p.db.tables := by
    have moved := @DB.applyCompactionResult_subperm p.db task (.insertion _) [] located
    rw [append_nil] at moved
    exact (sublist_append_left _ _).subperm.trans moved
  rcases subperm_flatMap inputs Reader.keys with ⟨kept, perm, sub⟩
  rw [CompactionTask.Distinct, map_key_entriesOf]
  apply perm.nodup_iff.mp
  exact held.once.sublist (sub.trans (sublist_append_right _ _))

/-- In every run in which `Open` finds no version twice, the merged stream over the
inputs of every task that is picked ascends strictly, and `Execute` does not fail
for the order of its keys. -/
theorem compaction_keys_ascending (reached : Reached (step opts) FindsOnce init s) {p : Process}
    (running : s.process = some p) {task : CompactionTask}
    (picked : pickCompaction p.db.buildLevelState opts.compaction = some task) :
    ∃ emitted final, Drains task.merge emitted final ∧
      (emitted.Pairwise fun first second => first.1 < second.1) ∧
      ∀ execOpts k prev, execute execOpts task ≠ .error (.addKey (.keysNotSorted k prev)) := by
  have held :=
    (reached.invariant Once init_once fun once finds => once.step finds).running p running
  have isPicked := (picked_of_pickCompaction picked).1
  apply execute_inOrder
  · intro r rMem
    exact (held.tables r (DB.mem_tables_of_located (located_of_picked isPicked) rMem)).1
  · exact distinct_of_picked held isPicked

/-- An engine that rotates after every write and compacts every table of L0 into
tables of more than one entry. -/
def wideOptions : Options :=
  { eagerOptions with compaction := { eagerOptions.compaction with levelSizeBase := 1000 } }

/-- A memtable is flushed up to a step of the flush, the process crashes, and after
`Open` the memtable is flushed again. -/
def flushedAgain (before : List StoreAction) : List StoreAction :=
  [.reopen (.insertion _)] ++ putActions 97 49 ++ [.rotate] ++ before ++
    [.crash, .reopen (.insertion _)] ++ flushActions

/-- How the compaction that is picked after a run fails. -/
def compactionError (actions : List StoreAction) : Option ExecuteError :=
  (run (step wideOptions) init actions).bind fun s =>
    s.process.bind fun p =>
      (pickCompaction p.db.buildLevelState wideOptions.compaction).bind fun task =>
        match execute (Process.executeOptions wideOptions [9]) task with
        | .error err => some err
        | .ok _ => none

/-- The process crashes between `AddSSTable` and the removal of the log, and L0 then
holds the table twice.  Or it crashes between `AddSSTable` and `RemoveSSTable` of a
compaction, and L0 and L1 hold the same version.  The next compaction fails. -/
theorem crash_wedges_compaction :
    compactionError (flushedAgain [.flush, .flush]) =
        some (.addKey (.keysNotSorted (makeInternalKey [97] 1) (makeInternalKey [97] 1))) ∧
      compactionError (crashedCompaction []) =
        some (.addKey (.keysNotSorted (makeInternalKey [97] 1) (makeInternalKey [97] 1))) := by
  constructor
  · decide +kernel
  · decide +kernel

/-- The process crashes before `AddSSTable`. -/
theorem crashBeforeAdd_ascending :
    ∃ s p task, Reached (step wideOptions) FindsOnce init s ∧ s.process = some p ∧
      pickCompaction p.db.buildLevelState wideOptions.compaction = some task ∧
      ∃ emitted final, Drains task.merge emitted final ∧
        (emitted.Pairwise fun first second => first.1 < second.1) ∧
        ∀ execOpts k prev, execute execOpts task ≠ .error (.addKey (.keysNotSorted k prev)) := by
  have evaluated : ∃ s ∈ runAllowed (step wideOptions) FindsOnce init (flushedAgain [.flush]),
      ∃ p ∈ s.process, ∃ task ∈ pickCompaction p.db.buildLevelState wideOptions.compaction,
        task.inputs.length = 1 := by
    decide +kernel
  rcases Reached.of_evaluated evaluated with ⟨s, reached, p, isRunning, task, picked, _⟩
  exact ⟨s, p, task, reached, isRunning, picked, compaction_keys_ascending reached isRunning picked⟩

end Store

end Theseon
