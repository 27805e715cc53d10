import Theseon.DB.Durability

/-!
# Opening a durable disk

`Open` finds everything that a durable disk holds.  The engine that it returns is
live: its memtables are the logs, its tables of L0 are those of the manifest, and
its counters are not behind.
-/

namespace Theseon

open Std List
open Lib KV SSTable Compaction Manifest

/-- Sequence numbers are in range.  A log is only started after a write, so the
length of the history bounds the identifiers. -/
structure Disk.Sized (history : History) (disk : Disk) : Prop where
  inRange : ∀ logged ∈ history, 0 < logged.2.seq ∧ logged.2.seq < maxSeqNum
  logs : ∀ id ∈ disk.wals, id ≤ history.length + 1
  counter : disk.manifest.nextMemID ≤ history.length + 1
  unopened : disk.wals.isEmpty → disk.manifest.nextMemID = 0

/-! ## A live engine -/

/-- The operations fit the formats when the counter stands at `seq`. -/
structure Writable (seq : Nat) (ops : List BatchOp) : Prop where
  clean : ∀ op ∈ ops, op.stored.Clean
  fits : WAL.Fits (logEntries seq ops)
  room : seq + ops.length < maxSeqNum

instance (seq : Nat) (ops : List BatchOp) : Decidable (Writable seq ops) :=
  decidable_of_iff
    ((∀ op ∈ ops, op.stored.Clean) ∧ WAL.Fits (logEntries seq ops) ∧ seq + ops.length < maxSeqNum)
    ⟨fun ⟨clean, fits, room⟩ => ⟨clean, fits, room⟩, fun ⟨clean, fits, room⟩ => ⟨clean, fits, room⟩⟩

/-- The table holds the oldest immutable memtable. -/
structure Flushing (history : History) (tables : ExtTreeMap Nat Reader)
    (immutables : List Memtable) (table : Reader) : Prop where
  oldest : ∃ newer mt, immutables = newer ++ [mt] ∧ mt.id = table.id
  onDisk : tables[table.id]? = some table
  holds : HoldsTable history table

/-- The manifest has the table, and a counter that is not behind it. -/
structure Recorded (history : History) (manifest : ManifestContents) (id : Nat) : Prop where
  added : id ∈ manifest.tables
  ahead : ∀ entry, (id, entry) ∈ history → entry.seq ≤ manifest.nextSeq

/-- What holds while a write is under way. -/
def Writer.Holds (history : History) (db : DB) : Writer → Prop
  | idle => (∀ logged ∈ history, logged.2.seq ≤ db.nextSeq) ∧ db.nextMemID ≤ history.length + 1
  | logging seq ops => (∀ logged ∈ history, logged.2.seq ≤ seq) ∧
      db.nextMemID ≤ history.length + 1 ∧ ops ≠ [] ∧ Writable seq ops ∧
      db.nextSeq = seq + ops.length
  | rotating => (∀ logged ∈ history, logged.2.seq ≤ db.nextSeq) ∧ db.nextMemID ≤ history.length

/-- What holds while a flush is under way. -/
def Flusher.Holds (history : History) (disk : Disk) (db : DB) : Flusher → Prop
  | idle => True
  | built table => Flushing history disk.tables db.immutables table
  | added table => Flushing history disk.tables db.immutables table ∧
      table.id ∈ disk.manifest.tables
  | loaded table nextMemID nextSeq => Flushing history disk.tables db.immutables table ∧
      table.id ∈ disk.manifest.tables ∧ nextMemID ≤ history.length + 1 ∧
      ∀ id ∈ disk.manifest.tables, ∀ entry, (id, entry) ∈ history → entry.seq ≤ nextSeq
  | recorded table => Flushing history disk.tables db.immutables table ∧
      Recorded history disk.manifest table.id
  | swapped id => Recorded history disk.manifest id ∧ id < db.active.id ∧
      ∀ m ∈ db.immutables, id < m.id

/-- The identifier of the log that is going to be removed. -/
def Flusher.swappedID : Flusher → Option Nat
  | idle => none
  | built _ => none
  | added _ => none
  | loaded _ _ _ => none
  | recorded _ => none
  | swapped id => some id

/-- A running engine and its disk hold the history. -/
structure Live (history : History) (disk : Disk) (p : Process) : Prop where
  holds : p.db.Holds history
  descending : (p.db.memtables.map Memtable.id).Pairwise fun first second => second < first
  l0 : ∀ r ∈ p.db.l0, r.id < p.db.active.id
  counter : p.db.active.id ≤ p.db.nextMemID
  logs : ∀ id, id ∈ disk.wals ↔
    id ∈ p.db.memtables.map Memtable.id ∨ p.flusher.swappedID = some id
  writer : p.writer.Holds history p.db
  flusher : p.flusher.Holds history disk p.db

/-! ## What `Open` finds -/

theorem Disk.openLevels_nil (disk : Disk) {levels : List (List SSTableInfo)}
    (none : ∀ i, i ≠ 0 → levels.getD i [] = []) (count level : Nat) :
    disk.openLevels levels count level = .ok (List.replicate count []) := by
  induction count generalizing level with
  | zero => rfl
  | succ count ih =>
    have nothing : (if level = 0 then [] else levels.getD level []) = [] := by
      split
      · rfl
      · rename_i positive
        exact none level positive
    rw [openLevels, nothing]
    simp only [openTables, ih]
    rfl

/-- `Open` returns once its parts do. -/
theorem openDB_of_parts {opts : Options} {sorter : Sorter SSTableInfo.firstKey} {disk : Disk}
    {l0 : List Reader} {levels : List (List Reader)} {recovered : List RecoveredWAL}
    (placed : Placed disk.manifest)
    (tables : disk.openTables (stateOf sorter disk.manifest).l0 = .ok l0)
    (deep : disk.openLevels (stateOf sorter disk.manifest).levels
      opts.compaction.maxLevels.toNat 0 = .ok levels)
    (logs : disk.recoverDir = .ok recovered) :
    ∃ db next, openDB opts sorter disk = .ok (db, next) := by
  rw [openDB, buildState, if_pos placed]
  simp only [tables, deep, logs]
  split
  · exact ⟨_, _, rfl⟩
  · exact ⟨_, _, rfl⟩

/-- The log has been read back. -/
structure Replayed (history : History) (id : Nat) (entries : List WAL.Entry) : Prop where
  holds : history.Holds id (entries.map WAL.Entry.version)
  seqs : ∀ e ∈ entries, e.version.seq = e.seq

section Open

variable {history : History} {disk : Disk}

/-- The records of a log are read back as they were written. -/
theorem HoldsLog.recover {id : Nat} {data : Bytes} (log : HoldsLog history id data)
    (chronological : history.Chronological) :
    ∃ entries, WAL.recover data = .ok entries ∧ Replayed history id entries := by
  rcases log with ⟨records, fits, rfl, holds⟩
  have unchanged : records.flatten.map WAL.Entry.readBack = records.flatten := by
    have same : ∀ e ∈ records.flatten, e.readBack = e := by
      intro e eMem
      have logged := (holds e.version).mp (mem_map_of_mem eMem)
      have clean : e.value.Clean := chronological.clean _ logged
      rw [WAL.Entry.readBack, clean.stored_eq]
    rw [map_congr_left same, map_id']
  refine ⟨records.flatten, ?_, holds, ?_⟩
  · rw [WAL.recover_records fits, unchanged]
  intro e eMem
  rcases mem_flatten.mp eMem with ⟨record, recordMem, inRecord⟩
  exact seqNum_makeInternalKey ((fits record recordMem).entry e inRecord).seq

theorem Disk.Durable.recoverDir (durable : disk.Durable history) :
    ∃ recovered, disk.recoverDir = .ok recovered ∧
      ∀ rw ∈ recovered, Replayed history rw.id rw.entries := by
  apply Disk.recoverWALs_eq_ok
  intro file fileMem
  have found := ExtTreeMap.mem_toList_iff_getElem?_eq_some.mp fileMem
  exact (durable.logs file.1 file.2 found).recover durable.chronological

/-- The tables of the manifest are opened in the order of the manifest. -/
theorem Disk.Durable.openTables (durable : disk.Durable history)
    (sorter : Sorter SSTableInfo.firstKey) :
    ∃ readers, disk.openTables (stateOf sorter disk.manifest).l0 = .ok readers ∧
      (∀ r ∈ readers, HoldsTable history r) ∧
      readers.map Reader.id = (stateOf sorter disk.manifest).l0.map SSTableInfo.id := by
  have found : ∀ info ∈ (stateOf sorter disk.manifest).l0,
      ∃ r, disk.tables[info.id]? = some r ∧ r.id = info.id ∧ HoldsTable history r := by
    intro info infoMem
    have listed := ((mem_stateOf_l0 sorter _).mp infoMem).1
    have entry := (mem_values_iff durable.named.tables).mp listed
    exact (durable.tables info.id info entry).2
  rcases Disk.openTables_eq_ok found with ⟨readers, opened, related⟩
  refine ⟨readers, opened, ?_, ?_⟩
  · intro r rMem
    rw [Disk.openTables_eq opened] at rMem
    rcases mem_filterMap.mp rMem with ⟨info, infoMem, onDisk⟩
    rcases found info infoMem with ⟨same, isSame, _, holds⟩
    cases onDisk.symm.trans isSame
    exact holds
  · rw [eq_comm, ← List.forall₂_eq_eq_eq, List.forall₂_map_left_iff, List.forall₂_map_right_iff]
    exact related.imp fun _ _ both => both.1.symm

/-- Without a table below L0, `buildState` does not panic. -/
theorem Disk.Durable.placed (durable : disk.Durable history) : Placed disk.manifest := by
  intro info infoMem positive
  have entry := (mem_values_iff durable.named.tables).mp infoMem
  exact absurd (durable.tables info.id info entry).1 positive

theorem Disk.Durable.openLevels (durable : disk.Durable history)
    (sorter : Sorter SSTableInfo.firstKey) (count level : Nat) :
    disk.openLevels (stateOf sorter disk.manifest).levels count level =
      .ok (List.replicate count []) := by
  apply Disk.openLevels_nil
  intro i positive
  have none : (disk.manifest.infos.filter fun info => info.level.toNat = i) = [] := by
    apply filter_eq_nil_iff.mpr
    intro info infoMem isLevel
    have entry := (mem_values_iff durable.named.tables).mp infoMem
    rw [(durable.tables info.id info entry).1, decide_eq_true_eq] at isLevel
    exact positive isLevel.symm
  rw [stateOf_level sorter durable.placed positive, none]
  exact eq_nil_iff_forall_not_mem.mpr fun info mem => by
    rw [sorter.mem_sort] at mem
    cases mem

/-- The tables of L0 that are opened are those of the manifest. -/
theorem Disk.Durable.mem_l0 (durable : disk.Durable history)
    {sorter : Sorter SSTableInfo.firstKey} {id : Nat} :
    id ∈ (stateOf sorter disk.manifest).l0.map SSTableInfo.id ↔ id ∈ disk.manifest.tables := by
  rw [mem_map, mem_iff_get?]
  constructor
  · rintro ⟨info, infoMem, rfl⟩
    have listed := ((mem_stateOf_l0 sorter _).mp infoMem).1
    exact ⟨info, (mem_values_iff durable.named.tables).mp listed⟩
  · rintro ⟨info, found⟩
    have named : info.id = id := durable.named.tables id info found
    have listed : info ∈ disk.manifest.infos :=
      (mem_values_iff durable.named.tables).mpr (named ▸ found)
    exact ⟨info, (mem_stateOf_l0 sorter _).mpr ⟨listed, (durable.tables id info found).1⟩, named⟩

/-- The memtable of a log that has been read back. -/
theorem Replayed.memtable {rw : RecoveredWAL} (replayed : Replayed history rw.id rw.entries) :
    history.Holds rw.memtable.id rw.memtable.entries := by
  intro entry
  rw [RecoveredWAL.memtable_id, RecoveredWAL.memtable, Memtable.mem_memtableOf]
  exact replayed.holds entry

end Open

section Opened

variable {history : History} {opts : Options} {sorter : Sorter SSTableInfo.firstKey}
  {disk next : Disk} {db : DB}

section

variable (durable : disk.Durable history) (sized : disk.Sized history)

include durable sized

/-- What `Open` makes of a disk without logs, on which nothing has been written. -/
theorem Live.opened_empty (noLog : disk.wals.isEmpty)
    (l0 : db.l0.map Reader.id = (stateOf sorter disk.manifest).l0.map SSTableInfo.id)
    (levels : (db.levels.drop 1).flatten = []) (memtables : db.memtables = [.new db.nextMemID])
    (counter : db.nextMemID = addUint64 disk.manifest.nextMemID 1) :
    (disk.createWAL db.nextMemID).Durable history ∧ (disk.createWAL db.nextMemID).Sized history ∧
      Live history (disk.createWAL db.nextMemID) ⟨db, .idle, .idle, .idle⟩ := by
  have noLogs : ∀ id, id ∉ disk.wals := by
    intro id
    rw [← ExtTreeMap.mem_keys, isEmpty_iff.mp (ExtTreeMap.isEmpty_keys.trans noLog)]
    exact not_mem_nil
  have noTables : ∀ id, id ∉ disk.manifest.tables := by
    intro id mem
    rcases durable.below id mem with ⟨log, isLog, _⟩
    exact noLogs log isLog
  have empty : history = [] := by
    apply eq_nil_iff_forall_not_mem.mpr
    intro logged mem
    rcases durable.complete logged.1 logged.2 mem with isLog | ⟨recorded, _⟩
    · exact noLogs _ isLog
    · exact noTables _ recorded
  have first : db.nextMemID = 1 := by
    rw [counter, sized.unopened noLog]
    rfl
  have active : db.active = .new db.nextMemID := (cons.inj memtables).1
  have noL0 : db.l0 = [] := by
    rw [← map_eq_nil_iff (f := Reader.id), l0]
    exact eq_nil_iff_forall_not_mem.mpr fun id mem => noTables id (durable.mem_l0.mp mem)
  subst empty
  refine ⟨durable.createWAL (fun _ mem => nomatch mem) fun id mem => absurd mem (noTables id),
    ?_, ?_⟩
  · constructor
    · exact sized.inRange
    · intro id mem
      rcases mem_insert_key.mp mem with rfl | old
      · exact first.le
      · exact absurd old (noLogs id)
    · exact sized.counter
    · exact fun _ => sized.unopened noLog
  constructor
  · constructor
    · exact levels
    · intro m mMem entry
      rw [memtables, mem_singleton] at mMem
      subst mMem
      exact ⟨(fun mem => nomatch mem), (fun mem => nomatch mem)⟩
    · rw [noL0]
      exact fun r mem => nomatch mem
    · rw [DB.sourceIDs, memtables, noL0]
      exact pairwise_singleton _ _
    · exact fun id entry mem => nomatch mem
  · rw [memtables]
    exact pairwise_singleton _ _
  · rw [noL0]
    exact fun r mem => nomatch mem
  · rw [active]
    exact le_rfl
  · intro id
    rw [memtables, Disk.createWAL, mem_insert_key]
    simp [noLogs id, Flusher.swappedID, Memtable.new, eq_comm]
  · exact ⟨(fun _ mem => nomatch mem), first.le⟩
  · trivial

/-- What `Open` makes of a disk with logs. -/
theorem Live.opened_logs (isL0 : ∀ r ∈ db.l0, HoldsTable history r)
    (l0 : db.l0.map Reader.id = (stateOf sorter disk.manifest).l0.map SSTableInfo.id)
    (levels : (db.levels.drop 1).flatten = []) {init : List RecoveredWAL} {last : RecoveredWAL}
    (logs : disk.recoverDir = .ok (init ++ [last]))
    (replayed : ∀ rw ∈ init ++ [last], Replayed history rw.id rw.entries)
    (active : db.active = last.memtable)
    (immutables : db.immutables = (init.map fun rw => rw.memtable.freeze).reverse)
    (counter : db.nextMemID = disk.recoveredMemID)
    (seqs : db.nextSeq = ((init ++ [last]).flatMap fun rw => rw.entries.map WAL.Entry.seq).foldl max
      disk.manifest.nextSeq) : Live history disk ⟨db, .idle, .idle, .idle⟩ := by
  have ids : db.memtables.map Memtable.id = disk.wals.keys.reverse := by
    rw [← Disk.recoverDir_ids logs, DB.memtables, active, immutables]
    simp [map_reverse, Function.comp_def]
  have descending : (db.memtables.map Memtable.id).Pairwise fun first second => second < first := by
    rw [ids, pairwise_reverse]
    exact ExtTreeMap.ordered_keys.imp fun less => Nat.compare_eq_lt.mp less
  have isLog : ∀ id, id ∈ db.memtables.map Memtable.id ↔ id ∈ disk.wals := by
    intro id
    rw [ids, mem_reverse, ExtTreeMap.mem_keys]
  have isTable : ∀ id, id ∈ db.l0.map Reader.id ↔ id ∈ disk.manifest.tables := by
    intro id
    rw [l0, durable.mem_l0]
  have latest : ∀ id ∈ disk.wals, id ≤ db.active.id := by
    intro id mem
    rcases mem_cons.mp ((isLog id).mpr mem) with rfl | older
    · exact le_rfl
    · exact ((pairwise_cons.mp descending).1 id older).le
  constructor
  · constructor
    · exact levels
    · intro m mMem
      rcases mem_cons.mp mMem with rfl | isImmutable
      · rw [active]
        exact (replayed last (by simp)).memtable
      rw [immutables, mem_reverse, mem_map] at isImmutable
      rcases isImmutable with ⟨rw, rwMem, rfl⟩
      exact (replayed rw (mem_append_left _ rwMem)).memtable
    · exact isL0
    · rw [DB.sourceIDs, pairwise_append]
      refine ⟨descending.imp Nat.le_of_lt, ?_, ?_⟩
      · rw [l0, pairwise_map]
        exact stateOf_l0_descending sorter _
      · intro log logMem table tableMem
        exact durable.order table ((isTable table).mp tableMem) log ((isLog log).mp logMem)
    · intro id entry logged
      rw [DB.sourceIDs, mem_append, isLog, isTable]
      exact (durable.complete id entry logged).imp_right And.left
  · exact descending
  · intro r rMem
    have recorded := (isTable r.id).mp (mem_map_of_mem rMem)
    rcases durable.below r.id recorded with ⟨log, logMem, less⟩
    exact less.trans_le (latest log logMem)
  · change db.active.id ≤ db.nextMemID
    rw [counter]
    exact Disk.le_recoveredMemID ((isLog _).mp mem_cons_self)
  · intro id
    rw [← isLog]
    simp [Flusher.swappedID]
  · constructor
    · intro logged mem
      change logged.2.seq ≤ db.nextSeq
      rw [seqs]
      rcases durable.complete logged.1 logged.2 mem with hasLog | ⟨_, ahead⟩
      · rw [← ExtTreeMap.mem_keys, ← Disk.recoverDir_ids logs, mem_map] at hasLog
        rcases hasLog with ⟨rw, rwMem, isID⟩
        have there := ((replayed rw rwMem).holds logged.2).mpr (isID ▸ mem)
        rcases mem_map.mp there with ⟨e, eMem, isVersion⟩
        rw [← isVersion, (replayed rw rwMem).seqs e eMem]
        exact le_foldl_max (mem_flatMap.mpr ⟨rw, rwMem, mem_map_of_mem eMem⟩) _
      · exact ahead.trans (start_le_foldl_max _ _)
    · change db.nextMemID ≤ _
      rw [counter, Disk.recoveredMemID, foldl_max_le_iff]
      exact ⟨sized.counter, fun id mem => sized.logs id (ExtTreeMap.mem_keys.mp mem)⟩
  · trivial

/-- A durable disk can be opened. -/
theorem Disk.Durable.opened (opts : Options) (sorter : Sorter SSTableInfo.firstKey) :
    ∃ db next, openDB opts sorter disk = .ok (db, next) ∧ next.Durable history ∧
      next.Sized history ∧ Live history next ⟨db, .idle, .idle, .idle⟩ := by
  rcases durable.openTables sorter with ⟨readers, tablesOpened, isL0, ids⟩
  have levelsOpened := durable.openLevels sorter opts.compaction.maxLevels.toNat 0
  rcases durable.recoverDir with ⟨logs, logsRead, replayed⟩
  rcases openDB_of_parts durable.placed tablesOpened levelsOpened logsRead with ⟨db, next, opened⟩
  refine ⟨db, next, opened, ?_⟩
  rcases openDB_eq_ok opened with ⟨recovered, sameTables, sameLevels, sameLogs, seqs, either⟩
  cases tablesOpened.symm.trans sameTables
  cases logsRead.symm.trans sameLogs
  have levels : (db.levels.drop 1).flatten = [] := by
    rw [← Except.ok.inj (levelsOpened.symm.trans sameLevels), drop_replicate,
      flatten_replicate_nil]
  rcases either with ⟨rfl, memtables, counter, rfl⟩ |
    ⟨init, last, rfl, active, immutables, counter, rfl⟩
  · have noLog : disk.wals.isEmpty := by
      rw [← ExtTreeMap.isEmpty_keys, ← Disk.recoverDir_ids logsRead]
      rfl
    exact Live.opened_empty durable sized noLog ids levels memtables counter
  · exact ⟨durable, sized, Live.opened_logs durable sized isL0 ids levels logsRead replayed active
      immutables counter seqs⟩

end

end Opened

end Theseon
