import Theseon.DB.FreshIdentifiers

/-!
# What is durable without compactions

Every log, memtable and table holds the versions that were written to one log.
The invariant of the disk says which of them are there at any time; it is enough
for `Open` to rebuild an engine that reads what the history demands.
-/

namespace Theseon

open Std List
open Lib KV SSTable Compaction Manifest

/-- The table can be read and holds the versions of the log. -/
structure HoldsTable (history : History) (r : Reader) : Prop where
  holds : history.Holds r.id r.entries
  wellFormed : r.WellFormed
  healthy : r.Healthy

/-- The file consists of whole records with the versions of the log. -/
def HoldsLog (history : History) (id : Nat) (data : Bytes) : Prop :=
  ∃ records : List (List WAL.Entry), (∀ record ∈ records, WAL.Fits record) ∧
    data = records.flatMap WAL.encodeRecord ∧
    history.Holds id (records.flatten.map WAL.Entry.version)

/-- Everything in the history can be found on disk. -/
structure Disk.Durable (history : History) (disk : Disk) : Prop where
  chronological : history.Chronological
  named : disk.manifest.Named
  logs : ∀ id data, disk.wals[id]? = some data → HoldsLog history id data
  tables : ∀ id info, disk.manifest.tables[id]? = some info →
    info.level = 0 ∧ ∃ r, disk.tables[id]? = some r ∧ r.id = id ∧ HoldsTable history r
  complete : ∀ id entry, (id, entry) ∈ history →
    id ∈ disk.wals ∨ id ∈ disk.manifest.tables ∧ entry.seq ≤ disk.manifest.nextSeq
  order : ∀ table ∈ disk.manifest.tables, ∀ log ∈ disk.wals, table ≤ log
  below : ∀ table ∈ disk.manifest.tables, ∃ log ∈ disk.wals, table < log

/-- The identifiers of the sources above the levels, in the order in which they
are asked. -/
def DB.sourceIDs (db : DB) : List Nat :=
  db.memtables.map Memtable.id ++ db.l0.map Reader.id

/-- The memtables and the tables of L0 hold the history, the latest logs first. -/
structure DB.Holds (history : History) (db : DB) : Prop where
  levels : (db.levels.drop 1).flatten = []
  memtables : ∀ m ∈ db.memtables, history.Holds m.id m.entries
  l0 : ∀ r ∈ db.l0, HoldsTable history r
  newestFirst : db.sourceIDs.Pairwise fun first second => second ≤ first
  complete : ∀ id entry, (id, entry) ∈ history → id ∈ db.sourceIDs

section Reads

variable {history : History} {db : DB}

theorem DB.Holds.source (holds : db.Holds history) :
    db.sources = db.memtables.map .memtable ++ db.l0.map .table := by
  rw [sources_eq, holds.levels]
  simp

/-- The identifier of a source. -/
def Source.id : Source → Nat
  | memtable m => m.id
  | table r => r.id

theorem DB.Holds.holds_source (holds : db.Holds history) {source : Source}
    (mem : source ∈ db.sources) : history.Holds source.id source.entries := by
  rw [holds.source, mem_append, mem_map, mem_map] at mem
  rcases mem with ⟨m, mMem, rfl⟩ | ⟨r, rMem, rfl⟩
  · exact holds.memtables m mMem
  · exact (holds.l0 r rMem).holds

theorem DB.Holds.map_id_sources (holds : db.Holds history) :
    db.sources.map Source.id = db.sourceIDs := by
  rw [holds.source, map_append, map_map, map_map]
  rfl

theorem DB.Holds.readable (holds : db.Holds history) (chronological : history.Chronological) :
    db.Readable := by
  constructor
  · intro source sourceMem
    cases source with
    | memtable m =>
      intro entry entryMem
      exact chronological.long _ ((holds.holds_source sourceMem entry).mp entryMem)
    | table r =>
      rw [holds.source, mem_append, mem_map, mem_map] at sourceMem
      rcases sourceMem with ⟨m, _, same⟩ | ⟨t, tMem, same⟩
      · cases same
      · cases same
        exact ⟨(holds.l0 r tMem).wellFormed, (holds.l0 r tMem).healthy⟩
  · have ordered := holds.newestFirst
    rw [← holds.map_id_sources, pairwise_map] at ordered
    apply ordered.imp_of_mem
    intro first second firstMem secondMem later
    exact (holds.holds_source firstMem).covers chronological (holds.holds_source secondMem) later

theorem DB.Holds.mem_entries (holds : db.Holds history) (entry : Entry) :
    entry ∈ db.entries ↔ entry ∈ history.versions := by
  rw [DB.entries, mem_flatMap, History.mem_versions]
  constructor
  · rintro ⟨source, sourceMem, entryMem⟩
    exact ⟨source.id, (holds.holds_source sourceMem entry).mp entryMem⟩
  · rintro ⟨id, logged⟩
    have isSource := holds.complete id entry logged
    rw [← holds.map_id_sources, mem_map] at isSource
    rcases isSource with ⟨source, sourceMem, rfl⟩
    exact ⟨source, sourceMem, (holds.holds_source sourceMem entry).mpr logged⟩

/-- Such an engine reads what the history demands. -/
theorem DB.Holds.getAt_newestAt (holds : db.Holds history) (chronological : history.Chronological)
    (free : PrefixFree history.versions) (user : Bytes) (maxSeq : Nat) :
    NewestAt history.versions user maxSeq (db.getAt user maxSeq) := by
  have unshadowed : UnshadowedFor db.entries user :=
    ((Unshadowed.congr holds.mem_entries).mpr free.unshadowed).unshadowedFor user
  rw [← NewestAt.congr holds.mem_entries]
  exact (holds.readable chronological).getAt_newestAt unshadowed maxSeq

end Reads

/-! ## Steps of the disk -/

section Steps

variable {history : History} {disk : Disk}

variable {id : Nat}

theorem HoldsTable.extend_other {r : Reader} (holds : HoldsTable history r) {new : List Entry}
    (different : r.id ≠ id) : HoldsTable (history.extend id new) r :=
  ⟨holds.holds.extend_other different, holds.wellFormed, holds.healthy⟩

theorem HoldsLog.extend_other {other : Nat} {data : Bytes} (log : HoldsLog history other data)
    {new : List Entry} (different : other ≠ id) : HoldsLog (history.extend id new) other data := by
  rcases log with ⟨records, fits, isData, holds⟩
  exact ⟨records, fits, isData, holds.extend_other different⟩

variable {record : List WAL.Entry}

/-- A record is appended to a log. -/
theorem HoldsLog.extend_same {data : Bytes} (log : HoldsLog history id data)
    (fits : WAL.Fits record) :
    HoldsLog (history.extend id (record.map WAL.Entry.version)) id
      (data ++ WAL.encodeRecord record) := by
  rcases log with ⟨records, allFit, rfl, holds⟩
  refine ⟨records ++ [record], ?_, ?_, ?_⟩
  · intro one oneMem
    rcases mem_append.mp oneMem with old | isNew
    · exact allFit one old
    · rw [mem_singleton.mp isNew]
      exact fits
  · simp
  · apply holds.extend_same
    intro entry
    rw [flatten_append, map_append, mem_append, or_comm]
    simp

/-- What a log without records holds. -/
theorem HoldsLog.created (unused : ∀ logged ∈ history, logged.1 ≠ id) : HoldsLog history id [] := by
  refine ⟨[], fun record mem => absurd mem not_mem_nil, rfl, ?_⟩
  intro entry
  constructor
  · intro mem
    cases mem
  · intro logged
    exact absurd rfl (unused _ logged)

namespace Disk

variable {id : Nat}

theorem mem_appendWAL (isLog : id ∈ disk.wals) {log : Nat} :
    log ∈ (disk.appendWAL id record).wals ↔ log ∈ disk.wals := by
  rw [Disk.appendWAL, mem_insert_key]
  exact or_iff_right_of_imp fun same => same ▸ isLog

section

variable (durable : disk.Durable history)

include durable

/-- A record goes to a log that is later than all tables. -/
theorem Durable.appendWAL (isLog : id ∈ disk.wals)
    (above : ∀ table ∈ disk.manifest.tables, table < id) (fits : WAL.Fits record)
    (chronological : (history.extend id (record.map WAL.Entry.version)).Chronological) :
    (disk.appendWAL id record).Durable (history.extend id (record.map WAL.Entry.version)) := by
  constructor
  · exact chronological
  · exact durable.named
  · intro other data found
    rw [Disk.appendWAL, getElem?_insert_if] at found
    split at found
    · rename_i same
      cases same
      cases found
      rcases mem_iff_get?.mp isLog with ⟨old, isOld⟩
      rw [ExtTreeMap.getD_eq_getD_getElem?, isOld]
      exact (durable.logs id old isOld).extend_same fits
    rename_i different
    exact (durable.logs other data found).extend_other (Ne.symm different)
  · intro table info found
    rcases durable.tables table info found with ⟨level, r, onDisk, rfl, holds⟩
    have less := above r.id (mem_iff_get?.mpr ⟨info, found⟩)
    exact ⟨level, r, onDisk, rfl, holds.extend_other less.ne⟩
  · intro other entry logged
    rw [mem_appendWAL isLog]
    rcases History.mem_extend.mp logged with old | ⟨rfl, _⟩
    · exact durable.complete other entry old
    · exact .inl isLog
  · intro table tableMem log logMem
    exact durable.order table tableMem log ((mem_appendWAL isLog).mp logMem)
  · intro table tableMem
    rcases durable.below table tableMem with ⟨log, logMem, less⟩
    exact ⟨log, (mem_appendWAL isLog).mpr logMem, less⟩

/-- A log is created behind all others. -/
theorem Durable.createWAL (unused : ∀ logged ∈ history, logged.1 ≠ id)
    (above : ∀ table ∈ disk.manifest.tables, table ≤ id) : (disk.createWAL id).Durable history := by
  constructor
  · exact durable.chronological
  · exact durable.named
  · intro other data found
    exact forall_insert durable.logs (.created unused) other data found
  · exact durable.tables
  · intro other entry logged
    rcases durable.complete other entry logged with isLog | flushed
    · exact .inl (ExtTreeMap.mem_insert.mpr (.inr isLog))
    · exact .inr flushed
  · intro table tableMem log logMem
    rcases mem_insert_key.mp logMem with rfl | old
    · exact above table tableMem
    · exact durable.order table tableMem log old
  · intro table tableMem
    rcases durable.below table tableMem with ⟨log, logMem, less⟩
    exact ⟨log, ExtTreeMap.mem_insert.mpr (.inr logMem), less⟩

/-- The file of a table is written, possibly in the place of an equal one. -/
theorem Durable.putTable {r : Reader} (holds : HoldsTable history r) :
    (disk.putTable r).Durable history := by
  refine { durable with tables := ?_ }
  intro id info found
  rcases durable.tables id info found with ⟨level, old, onDisk, isOld⟩
  refine ⟨level, ?_⟩
  rw [Disk.putTable, getElem?_insert_if]
  split
  · rename_i same
    exact ⟨r, rfl, same, holds⟩
  · exact ⟨old, onDisk, isOld⟩

/-- A table of L0 is recorded.  No log is older, and one is later. -/
theorem Durable.addSSTable {r : Reader} (onDisk : disk.tables[r.id]? = some r)
    (holds : HoldsTable history r) (oldest : ∀ log ∈ disk.wals, r.id ≤ log)
    (later : ∃ log ∈ disk.wals, r.id < log) :
    (disk.call (.addSSTable (tableInfo 0 r))).Durable history := by
  have cases : ∀ table, table ∈ (disk.call (.addSSTable (tableInfo 0 r))).manifest.tables →
      table = r.id ∨ table ∈ disk.manifest.tables :=
    fun _ tableMem => (mem_insert_key.mp tableMem).imp_left Eq.symm
  constructor
  · exact durable.chronological
  · exact named_update durable.named (.addSSTable (tableInfo 0 r))
  · exact durable.logs
  · exact forall_insert durable.tables ⟨rfl, r, onDisk, rfl, holds⟩
  · intro id entry logged
    rcases durable.complete id entry logged with hasLog | ⟨recorded, seq⟩
    · exact .inl hasLog
    · exact .inr ⟨ExtTreeMap.mem_insert.mpr (.inr recorded), seq⟩
  · intro table tableMem log logMem
    rcases cases table tableMem with rfl | old
    · exact oldest log logMem
    · exact durable.order table old log logMem
  · intro table tableMem
    rcases cases table tableMem with rfl | old
    · exact later
    · exact durable.below table old

/-- Counters are recorded that are not behind any recorded table. -/
theorem Durable.updateNextIDs {nextMemID nextSeq : Nat}
    (ahead : ∀ id ∈ disk.manifest.tables, ∀ entry, (id, entry) ∈ history → entry.seq ≤ nextSeq) :
    (disk.call (.updateNextIDs nextMemID nextSeq)).Durable history := by
  refine { durable with
    named := named_update durable.named (.updateNextIDs nextMemID nextSeq)
    complete := ?_ }
  intro id entry logged
  rcases durable.complete id entry logged with isLog | ⟨recorded, _⟩
  · exact .inl isLog
  · exact .inr ⟨recorded, ahead id recorded entry logged⟩

/-- The log of a recorded table is removed, if it is not the last one. -/
theorem Durable.removeWAL {last : Nat} (recorded : id ∈ disk.manifest.tables)
    (ahead : ∀ entry, (id, entry) ∈ history → entry.seq ≤ disk.manifest.nextSeq)
    (isLast : last ∈ disk.wals) (above : ∀ log ∈ disk.wals, log ≤ last) (less : id < last) :
    (disk.removeWAL id).Durable history := by
  have kept : ∀ log, log ∈ (disk.removeWAL id).wals ↔ log ≠ id ∧ log ∈ disk.wals := by
    intro log
    rw [Disk.removeWAL, mem_erase_key, ne_comm]
  constructor
  · exact durable.chronological
  · exact durable.named
  · intro other data found
    exact forall_erase durable.logs _ other data found
  · exact durable.tables
  · intro other entry logged
    rw [kept]
    rcases durable.complete other entry logged with isLog | flushed
    · by_cases same : other = id
      · subst same
        exact .inr ⟨recorded, ahead entry logged⟩
      · exact .inl ⟨same, isLog⟩
    · exact .inr flushed
  · intro table tableMem log logMem
    exact durable.order table tableMem log ((kept log).mp logMem).2
  · intro table tableMem
    rcases durable.below table tableMem with ⟨log, logMem, tableLess⟩
    exact ⟨last, (kept last).mpr ⟨less.ne', isLast⟩, tableLess.trans_le (above log logMem)⟩

end

end Disk

end Steps

end Theseon
