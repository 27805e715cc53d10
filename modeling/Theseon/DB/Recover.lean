import Mathlib.Data.List.Perm.Subperm
import Theseon.DB.Ordered
import Theseon.Manifest.Manifest
import Theseon.WAL.Recover

/-!
# Opening the engine

`Open` takes the tables and the counters from the manifest and replays the
write-ahead logs in the order of their identifiers.  The memtable of the last
log becomes the active one, whose log is opened for appending; without any log a
new memtable is started.

The records of the manifest are replayed into `ManifestContents`, so the disk
holds these and not the bytes of the file.
-/

namespace Theseon

open Std List
open Lib KV SSTable Manifest

/-- What survives a crash: the manifest, the tables and the write-ahead logs by
their identifiers. -/
structure Disk where
  manifest : ManifestContents
  tables : ExtTreeMap Nat Reader
  wals : ExtTreeMap Nat Bytes

/-- The errors of `recover`. -/
inductive OpenError where
  /-- A table at level 255: `buildState` panics. -/
  | levelOutOfRange
  | openTable (id : Nat)
  | recoverWAL (id : Nat) (err : WAL.DecodeError)
  deriving DecidableEq, Repr

/-- The version that a log entry stands for. -/
def WAL.Entry.version (e : WAL.Entry) : KV.Entry :=
  ⟨makeInternalKey e.key e.seq, e.value⟩

/-- The log entries of a batch, when the counter stands at `seq`. -/
def logEntries : Nat → List BatchOp → List WAL.Entry
  | _, [] => []
  | seq, op :: rest =>
    ⟨addUint64 seq 1, op.key, op.stored⟩ :: logEntries (addUint64 seq 1) rest

/-- The log and the memtable get the same versions. -/
theorem map_version_logEntries (seq : Nat) (ops : List BatchOp) :
    (logEntries seq ops).map WAL.Entry.version = stamp seq ops := by
  induction ops generalizing seq with
  | nil => rfl
  | cons op rest ih =>
    rw [logEntries, map_cons, ih]
    rfl

/-! ## The parts of `recover` -/

structure RecoveredWAL where
  id : Nat
  entries : List WAL.Entry

namespace Disk

/-- An empty directory, once `Open` has created the manifest. -/
def empty : Disk :=
  ⟨.empty, ∅, ∅⟩

/-- `wal.Create`, which truncates. -/
def createWAL (disk : Disk) (id : Nat) : Disk :=
  { disk with wals := disk.wals.insert id [] }

/-- `OpenReader` on the tables of a list. -/
def openTables (disk : Disk) : List SSTableInfo → Except OpenError (List Reader)
  | [] => .ok []
  | info :: rest =>
    match disk.tables[info.id]? with
    | none => .error (.openTable info.id)
    | some r => (disk.openTables rest).map fun readers => r :: readers

/-- The tables of `count` levels from level `level` on.  Level 0 is opened
apart. -/
def openLevels (disk : Disk) (levels : List (List SSTableInfo)) :
    Nat → Nat → Except OpenError (List (List Reader))
  | 0, _ => .ok []
  | count + 1, level =>
    match disk.openTables (if level = 0 then [] else levels.getD level []) with
    | .error err => .error err
    | .ok tables =>
      (disk.openLevels levels count (level + 1)).map fun deeper => tables :: deeper

/-- `Recover` on the logs of a list. -/
def recoverWALs : List (Nat × Bytes) → Except OpenError (List RecoveredWAL)
  | [] => .ok []
  | (id, data) :: rest =>
    match WAL.recover data with
    | .error err => .error (.recoverWAL id err)
    | .ok entries => (recoverWALs rest).map fun recovered => ⟨id, entries⟩ :: recovered

/-- `RecoverDir`: the logs by ascending identifier. -/
def recoverDir (disk : Disk) : Except OpenError (List RecoveredWAL) :=
  recoverWALs disk.wals.toList

end Disk

/-- The state of `recover` while it replays the logs. -/
structure Replay where
  active : Option Memtable
  immutables : List Memtable
  nextMemID : Nat
  nextSeq : Nat

namespace Replay

/-- One entry of a log: the memtable takes it and the counter catches up. -/
def entry (state : Memtable × Nat) (e : WAL.Entry) : Memtable × Nat :=
  (state.1.put (makeInternalKey e.key e.seq) e.value,
    if state.2 ≤ e.seq then e.seq else state.2)

/-- One log: its memtable becomes the active one. -/
def log (state : Replay) (rw : RecoveredWAL) : Replay :=
  let replayed := rw.entries.foldl entry (.new rw.id, state.nextSeq)
  { active := some replayed.1
    immutables :=
      match state.active with
      | none => state.immutables
      | some old => old.freeze :: state.immutables
    nextMemID := if state.nextMemID ≤ rw.id then rw.id else state.nextMemID
    nextSeq := replayed.2 }

end Replay

/-- The engine with the tables and what has been replayed. -/
def Replay.db (replayed : Replay) (l0 : List Reader) (levels : List (List Reader))
    (active : Memtable) : DB where
  active := active
  immutables := replayed.immutables
  l0 := l0
  levels := levels
  nextMemID := replayed.nextMemID
  nextSeq := replayed.nextSeq

/-- `Open`.  Without a log it starts a memtable, and so creates a log. -/
def openDB (opts : Options) (sorter : Sorter SSTableInfo.firstKey) (disk : Disk) :
    Except OpenError (DB × Disk) :=
  match buildState sorter disk.manifest with
  | none => .error .levelOutOfRange
  | some state =>
    match disk.openTables state.l0 with
    | .error err => .error err
    | .ok l0 =>
      match disk.openLevels state.levels opts.compaction.maxLevels.toNat 0 with
      | .error err => .error err
      | .ok levels =>
        match disk.recoverDir with
        | .error err => .error err
        | .ok recovered =>
          let replayed := recovered.foldl Replay.log ⟨none, [], state.nextMemID, state.nextSeq⟩
          match replayed.active with
          | some active => .ok (replayed.db l0 levels active, disk)
          | none =>
            let db := (replayed.db l0 levels (.new 0)).newMemtable
            .ok (db, disk.createWAL db.active.id)

/-! ## Replaying the logs -/

/-- The memtable that a log is replayed into. -/
def RecoveredWAL.memtable (rw : RecoveredWAL) : Memtable :=
  Memtable.memtableOf rw.id (rw.entries.map WAL.Entry.version)

@[simp]
theorem RecoveredWAL.memtable_id (rw : RecoveredWAL) : rw.memtable.id = rw.id :=
  Memtable.foldl_put_id _ _

theorem foldl_entry (entries : List WAL.Entry) (m : Memtable) (seq : Nat) :
    entries.foldl Replay.entry (m, seq) =
      ((entries.map WAL.Entry.version).foldl (fun m entry => m.put entry.key entry.value) m,
        (entries.map WAL.Entry.seq).foldl max seq) := by
  induction entries generalizing m seq with
  | nil => rfl
  | cons e rest ih =>
    have next : Replay.entry (m, seq) e = (m.put e.version.key e.version.value, max seq e.seq) := by
      rw [Replay.entry]
      split
      · rename_i le
        rw [max_eq_right le]
        rfl
      rename_i lt
      rw [max_eq_left (Nat.le_of_not_le lt)]
      rfl
    rw [foldl_cons, next, ih]
    rfl

/-- Replaying the logs: all memtables but the last are frozen, newest first, and
the counters are maxima. -/
theorem foldl_log (recovered : List RecoveredWAL) (memID seq : Nat) :
    recovered.foldl Replay.log ⟨none, [], memID, seq⟩ =
      { active := recovered.getLast?.map RecoveredWAL.memtable
        immutables := (recovered.dropLast.map fun rw => rw.memtable.freeze).reverse
        nextMemID := (recovered.map RecoveredWAL.id).foldl max memID
        nextSeq := (recovered.flatMap fun rw => rw.entries.map WAL.Entry.seq).foldl max seq } := by
  induction recovered using List.reverseRecOn with
  | nil => rfl
  | append_singleton init last ih =>
    rw [foldl_append, ih, foldl_cons, foldl_nil, Replay.log, foldl_entry]
    have laterID : ∀ current : Nat, (if current ≤ last.id then last.id else current) =
        max current last.id := by
      intro current
      split
      · rename_i le
        rw [max_eq_right le]
      · rename_i lt
        rw [max_eq_left (Nat.le_of_not_le lt)]
    simp only [laterID, map_append, foldl_append, flatMap_append,
      dropLast_concat, getLast?_append, map_cons, map_nil, foldl_cons,
      foldl_nil, flatMap_cons, flatMap_nil, append_nil]
    congr 1
    rcases eq_nil_or_concat' init with rfl | ⟨front, previous, rfl⟩
    · rfl
    · simp

/-! ## What is opened -/

section

variable {disk : Disk}

/-- Tables whose files exist are opened. -/
theorem Disk.openTables_eq_ok {infos : List SSTableInfo} {holds : SSTableInfo → Reader → Prop}
    (found : ∀ info ∈ infos, ∃ r, disk.tables[info.id]? = some r ∧ holds info r) :
    ∃ readers, disk.openTables infos = .ok readers ∧ List.Forall₂ holds infos readers := by
  induction infos with
  | nil => exact ⟨[], rfl, .nil⟩
  | cons info rest ih =>
    rcases found info mem_cons_self with ⟨r, isTable, here⟩
    rcases ih fun later mem => found later (mem_cons_of_mem _ mem) with
      ⟨readers, opened, there⟩
    refine ⟨r :: readers, ?_, .cons here there⟩
    rw [openTables, isTable]
    simp only [opened]
    rfl

/-- Logs that can be read are recovered. -/
theorem Disk.recoverWALs_eq_ok {files : List (Nat × Bytes)}
    {holds : Nat → List WAL.Entry → Prop}
    (readable : ∀ file ∈ files, ∃ entries, WAL.recover file.2 = .ok entries ∧
      holds file.1 entries) :
    ∃ recovered, recoverWALs files = .ok recovered ∧ ∀ rw ∈ recovered, holds rw.id rw.entries := by
  induction files with
  | nil => exact ⟨[], rfl, fun rw mem => absurd mem (not_mem_nil)⟩
  | cons file rest ih =>
    rcases readable file mem_cons_self with ⟨entries, isLog, here⟩
    rcases ih fun later mem => readable later (mem_cons_of_mem _ mem) with
      ⟨recovered, replayed, there⟩
    refine ⟨⟨file.1, entries⟩ :: recovered, ?_, ?_⟩
    · rw [recoverWALs, isLog]
      simp only [replayed]
      rfl
    intro rw rwMem
    rcases mem_cons.mp rwMem with rfl | later
    · exact here
    · exact there rw later

/-- Every log is recovered under its identifier. -/
theorem Disk.recoverWALs_ids {files : List (Nat × Bytes)} {recovered : List RecoveredWAL}
    (done : recoverWALs files = .ok recovered) :
    recovered.map RecoveredWAL.id = files.map Prod.fst := by
  induction files generalizing recovered with
  | nil =>
    cases done
    rfl
  | cons file rest ih =>
    rw [recoverWALs] at done
    split at done
    · cases done
    rcases map_eq_ok.mp done with ⟨others, found, rfl⟩
    rw [map_cons, map_cons, ih found]

theorem Disk.recoverDir_ids {recovered : List RecoveredWAL}
    (done : disk.recoverDir = .ok recovered) :
    recovered.map RecoveredWAL.id = disk.wals.keys := by
  rw [recoverWALs_ids done, ExtTreeMap.map_fst_toList_eq_keys]

end

/-- The identifier counter that `Open` finds. -/
def Disk.recoveredMemID (disk : Disk) : Nat :=
  disk.wals.keys.foldl max disk.manifest.nextMemID

theorem placed_of_opened {opts : Options} {sorter : Sorter SSTableInfo.firstKey} {disk next : Disk}
    {db : DB} (opened : openDB opts sorter disk = .ok (db, next)) : Placed disk.manifest := by
  by_contra panics
  rw [openDB, buildState, if_neg panics] at opened
  cases opened

/-- What `Open` returns. -/
theorem openDB_eq_ok {opts : Options} {sorter : Sorter SSTableInfo.firstKey} {disk next : Disk}
    {db : DB} (opened : openDB opts sorter disk = .ok (db, next)) :
    ∃ recovered, disk.openTables (stateOf sorter disk.manifest).l0 = .ok db.l0 ∧
      disk.openLevels (stateOf sorter disk.manifest).levels opts.compaction.maxLevels.toNat 0 =
        .ok db.levels ∧
      disk.recoverDir = .ok recovered ∧
      db.nextSeq = (recovered.flatMap fun rw => rw.entries.map WAL.Entry.seq).foldl max
        disk.manifest.nextSeq ∧
      ((recovered = [] ∧ db.memtables = [.new db.nextMemID] ∧
          db.nextMemID = addUint64 disk.manifest.nextMemID 1 ∧ next = disk.createWAL db.nextMemID) ∨
        ∃ init last, recovered = init ++ [last] ∧ db.active = last.memtable ∧
          db.immutables = (init.map fun rw => rw.memtable.freeze).reverse ∧
          db.nextMemID = disk.recoveredMemID ∧ next = disk) := by
  rw [openDB, buildState, if_pos (placed_of_opened opened)] at opened
  simp only at opened
  split at opened
  · cases opened
  rename_i l0 tablesOpened
  split at opened
  · cases opened
  rename_i levels levelsOpened
  split at opened
  · cases opened
  rename_i recovered logs
  rw [foldl_log] at opened
  rcases eq_nil_or_concat' recovered with rfl | ⟨init, last, rfl⟩
  · cases opened
    exact ⟨[], tablesOpened, levelsOpened, logs, rfl, .inl ⟨rfl, rfl, rfl, rfl⟩⟩
  simp only [getLast?_concat, Option.map_some, dropLast_concat] at opened
  cases opened
  refine ⟨init ++ [last], tablesOpened, levelsOpened, logs, rfl,
    .inr ⟨init, last, rfl, rfl, rfl, ?_, rfl⟩⟩
  rw [Disk.recoveredMemID, ← Disk.recoverDir_ids logs]
  rfl

/-! ## The tables that are opened -/

namespace Disk

variable {disk next : Disk} {opts : Options} {sorter : Sorter SSTableInfo.firstKey} {db : DB}

/-- The tables that the manifest names. -/
def liveTables (disk : Disk) : List Reader :=
  disk.manifest.infos.filterMap fun info => disk.tables[info.id]?

theorem openTables_eq {infos : List SSTableInfo} {readers : List Reader}
    (opened : disk.openTables infos = .ok readers) :
    readers = infos.filterMap fun info => disk.tables[info.id]? := by
  induction infos generalizing readers with
  | nil =>
    cases opened
    rfl
  | cons info rest ih =>
    rw [openTables] at opened
    split at opened
    · cases opened
    rename_i r isTable
    rcases map_eq_ok.mp opened with ⟨others, found, rfl⟩
    rw [filterMap_cons, isTable, ← ih found]

/-- The tables that are listed at the levels below L0. -/
def listed (levels : List (List SSTableInfo)) (level : Nat) : List SSTableInfo :=
  if level = 0 then [] else levels.getD level []

theorem openLevels_flatten {infos : List (List SSTableInfo)} {count level : Nat}
    {levels : List (List Reader)} (opened : disk.openLevels infos count level = .ok levels) :
    levels.flatten = ((List.range' level count).flatMap (listed infos)).filterMap
      fun info => disk.tables[info.id]? := by
  induction count generalizing level levels with
  | zero =>
    cases opened
    rfl
  | succ count ih =>
    rw [openLevels] at opened
    split at opened
    · cases opened
    rename_i here isHere
    rcases map_eq_ok.mp opened with ⟨deeper, found, rfl⟩
    rw [range'_succ, flatMap_cons, filterMap_append, flatten_cons,
      ih found, openTables_eq isHere]
    rfl

/-- Every table is listed at most once. -/
theorem listed_subperm (named : disk.manifest.Named) (placed : Placed disk.manifest) (count : Nat) :
    ((stateOf sorter disk.manifest).l0 ++
      (List.range' 0 count).flatMap (listed (stateOf sorter disk.manifest).levels)).Subperm
        disk.manifest.infos := by
  have infosNodup : disk.manifest.infos.Nodup := named.tables.nodup_keys.of_map _
  have atLevel : ∀ {i info}, info ∈ listed (stateOf sorter disk.manifest).levels i →
      i ≠ 0 ∧ info ∈ disk.manifest.infos ∧ info.level.toNat = i := by
    intro i info mem
    rw [listed] at mem
    split at mem
    · cases mem
    rename_i positive
    rw [stateOf_level sorter placed positive] at mem
    rcases mem_filter.mp (sorter.mem_sort.mp mem) with ⟨infoMem, isLevel⟩
    exact ⟨positive, infoMem, of_decide_eq_true isLevel⟩
  apply List.Nodup.subperm
  · apply nodup_append.mpr
    refine ⟨?_, ?_, ?_⟩
    · exact (perm_insertionSort _ _).nodup_iff.mpr (infosNodup.filter _)
    · apply nodup_flatMap.mpr
      constructor
      · intro i _
        rw [listed]
        split
        · exact nodup_nil
        rename_i positive
        rw [stateOf_level sorter placed positive]
        exact (sorter.perm _).nodup_iff.mpr (infosNodup.filter _)
      · have distinct : (List.range' 0 count).Pairwise fun i j => i ≠ j := nodup_range'
        apply distinct.imp
        intro i j different info inFirst inSecond
        exact different ((atLevel inFirst).2.2.symm.trans (atLevel inSecond).2.2)
    · rintro info inL0 _ deep rfl
      rcases mem_flatMap.mp deep with ⟨i, _, inLevel⟩
      have isL0 := ((mem_stateOf_l0 sorter _).mp inL0).2
      exact (atLevel inLevel).1 ((atLevel inLevel).2.2.symm.trans (by rw [isL0]; rfl))
  · intro info mem
    rcases mem_append.mp mem with inL0 | deep
    · exact ((mem_stateOf_l0 sorter _).mp inL0).1
    · rcases mem_flatMap.mp deep with ⟨i, _, inLevel⟩
      exact (atLevel inLevel).2.1

/-- The tables that are opened are among those of the manifest. -/
theorem tables_of_opened (named : disk.manifest.Named)
    (opened : openDB opts sorter disk = .ok (db, next)) : db.tables.Subperm disk.liveTables := by
  rcases openDB_eq_ok opened with ⟨_, l0, levels, _⟩
  have below : (db.tables).Sublist (db.l0 ++ db.levels.flatten) :=
    ((drop_sublist 1 db.levels).flatten).append_left db.l0
  rw [openTables_eq l0, openLevels_flatten levels, ← filterMap_append] at below
  rcases @listed_subperm disk sorter named (placed_of_opened opened) opts.compaction.maxLevels.toNat
    with ⟨ordered, perm, sub⟩
  apply below.subperm.trans
  exact ⟨_, perm.filterMap _, sub.filterMap _⟩

end Disk

end Theseon
