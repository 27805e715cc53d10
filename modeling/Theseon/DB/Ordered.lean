import Theseon.DB.Compact
import Theseon.DB.Flush

/-!
# The age order of the levels

Every source of a read is newer than the sources asked after it.  Writes,
rotations and flushes keep this order.  Identifiers tell the tables apart.
-/

namespace Theseon

open Lib KV SSTable Compaction List

namespace DB

/-- The memtables, newest first. -/
def memtables (db : DB) : List Memtable :=
  db.active :: db.immutables

/-- The contents of the memtables and of the tables of L0, newest first. -/
def upper (db : DB) : List (List Entry) :=
  db.memtables.map Memtable.entries ++ db.l0.map Reader.entries

/-- The contents of a level below L0. -/
def levelEntries (db : DB) (i : Nat) : List Entry :=
  entriesOf (db.level i)

/-- All tables. -/
def tables (db : DB) : List Reader :=
  db.l0 ++ (db.levels.drop 1).flatten

theorem exists_level {db : DB} {tables : List Reader} (mem : tables ∈ db.levels.drop 1) :
    ∃ i, 0 < i ∧ db.level i = tables := by
  rcases mem_iff_getElem?.mp mem with ⟨i, found⟩
  rw [getElem?_drop] at found
  refine ⟨1 + i, by omega, ?_⟩
  rw [level, getD_eq_getElem?_getD, found]
  rfl

theorem level_mem {db : DB} {i : Nat} (positive : 0 < i) {r : Reader} (mem : r ∈ db.level i) :
    db.level i ∈ db.levels.drop 1 := by
  rw [level, getD_eq_getElem?_getD] at mem ⊢
  cases found : db.levels[i]? with
  | none =>
    rw [found] at mem
    cases mem
  | some tables =>
    refine mem_iff_getElem?.mpr ⟨i - 1, ?_⟩
    rw [getElem?_drop, Nat.add_sub_cancel' positive, found]
    rfl

theorem mem_tables {db : DB} {r : Reader} :
    r ∈ db.tables ↔ r ∈ db.l0 ∨ ∃ i, 0 < i ∧ r ∈ db.level i := by
  rw [tables, mem_append, mem_flatten]
  apply or_congr_right
  constructor
  · rintro ⟨tables, tablesMem, rMem⟩
    rcases exists_level tablesMem with ⟨i, positive, rfl⟩
    exact ⟨i, positive, rMem⟩
  · rintro ⟨i, positive, rMem⟩
    exact ⟨db.level i, level_mem positive rMem, rMem⟩

/-- What holds of any two tables of a level, and of any two tables of different
levels, holds of any two tables below L0. -/
theorem deep_pairwise {db : DB} {related : Reader → Reader → Prop}
    (level : ∀ i, 0 < i → (db.level i).Pairwise related)
    (levels : ∀ i j, 0 < i → i < j → ∀ first ∈ db.level i, ∀ second ∈ db.level j,
      related first second) :
    ((db.levels.drop 1).flatten).Pairwise related := by
  rw [pairwise_flatten]
  constructor
  · intro tables tablesMem
    rcases exists_level tablesMem with ⟨i, positive, rfl⟩
    exact level i positive
  · rw [pairwise_iff_getElem]
    intro i j iLt jLt less first firstMem second secondMem
    have atIndex : ∀ k (kLt : k < (db.levels.drop 1).length),
        db.level (1 + k) = (db.levels.drop 1)[k] := by
      intro k kLt
      rw [DB.level, getD_eq_getElem?_getD, ← getElem?_drop, getElem?_eq_getElem kLt]
      rfl
    rw [← atIndex i iLt] at firstMem
    rw [← atIndex j jLt] at secondMem
    exact levels (1 + i) (1 + j) (by omega) (by omega) first firstMem second secondMem

theorem mem_upper {db : DB} {entries : List Entry} :
    entries ∈ db.upper ↔
      (∃ m ∈ db.memtables, m.entries = entries) ∨ ∃ r ∈ db.l0, r.entries = entries := by
  simp [upper]

/-- The sources of a read are the memtables, L0 and the deeper levels. -/
theorem sources_eq (db : DB) :
    db.sources =
      (db.memtables.map .memtable ++ db.l0.map .table) ++
        ((db.levels.drop 1).flatten).map Source.table := by
  simp [sources, memtables]

theorem map_entries_sources (db : DB) :
    (db.memtables.map Source.memtable ++ db.l0.map Source.table).map Source.entries = db.upper := by
  rw [upper, map_append, map_map, map_map]
  rfl

variable {entry : Entry} {ops : List BatchOp} {opts : Options}

/-- The versions that the engine holds, by memtable and by table. -/
theorem mem_entries_iff {db : DB} :
    entry ∈ db.entries ↔
      (∃ m ∈ db.memtables, entry ∈ m.entries) ∨ entry ∈ entriesOf db.tables := by
  simp only [entries, sources_eq, flatMap_append, flatMap_map, mem_append, mem_flatMap, tables,
    entriesOf, or_assoc]
  rfl

theorem mem_entries {db : DB} :
    entry ∈ db.entries ↔
      (∃ entries ∈ db.upper, entry ∈ entries) ∨ ∃ i, 0 < i ∧ entry ∈ db.levelEntries i := by
  rw [mem_entries_iff, mem_entriesOf]
  constructor
  · rintro (⟨m, mMem, mem⟩ | ⟨r, rMem, mem⟩)
    · exact .inl ⟨m.entries, mem_upper.mpr (.inl ⟨m, mMem, rfl⟩), mem⟩
    · rcases mem_tables.mp rMem with inL0 | ⟨i, positive, inLevel⟩
      · exact .inl ⟨r.entries, mem_upper.mpr (.inr ⟨r, inL0, rfl⟩), mem⟩
      · exact .inr ⟨i, positive, entries_subset inLevel mem⟩
  · rintro (⟨entries, entriesMem, mem⟩ | ⟨i, positive, mem⟩)
    · rcases mem_upper.mp entriesMem with ⟨m, mMem, rfl⟩ | ⟨r, rMem, rfl⟩
      · exact .inl ⟨m, mMem, mem⟩
      · exact .inr ⟨r, mem_tables.mpr (.inl rMem), mem⟩
    · rcases mem_entriesOf.mp mem with ⟨r, rMem, inTable⟩
      exact .inr ⟨r, mem_tables.mpr (.inr ⟨i, positive, rMem⟩), inTable⟩

/-! ## What a write and a flush change -/

/-- The oldest memtable and those that stay when it is flushed. -/
theorem mem_memtables_split {db : DB} {newer : List Memtable} {mt m : Memtable}
    (oldest : db.immutables = newer ++ [mt]) :
    m ∈ db.memtables ↔ m ∈ db.active :: newer ∨ m = mt := by
  simp [memtables, oldest, or_assoc]

/-- The versions held after a write are those held before and the new ones. -/
theorem mem_entries_applyOps {db : DB} :
    entry ∈ (db.applyOps ops).entries ↔
      entry ∈ db.entries ∨ entry ∈ stamp db.nextSeq ops := by
  rw [mem_entries_iff, mem_entries_iff, applyOps_eq]
  simp only [memtables, mem_cons, exists_eq_or_imp, Memtable.mem_foldl_put, tables, or_assoc]
  rw [or_comm]
  simp only [or_assoc]

theorem mem_entries_rotateIfFull {db : DB} :
    entry ∈ (db.rotateIfFull opts).entries ↔ entry ∈ db.entries := by
  rcases rotateIfFull_cases opts db with kept | ⟨_, rotated⟩
  · rw [kept]
  · rw [rotated, mem_entries_iff, mem_entries_iff]
    simp [rotateMemtable, newMemtable, memtables, tables]

theorem mem_entries_applyBatchLocked {db : DB} :
    entry ∈ (db.applyBatchLocked opts ops).entries ↔
      entry ∈ db.entries ∨ entry ∈ stamp db.nextSeq ops := by
  rw [applyBatchLocked, mem_entries_rotateIfFull, mem_entries_applyOps]

theorem nextSeq_applyBatchLocked {db : DB} :
    (db.applyBatchLocked opts ops).nextSeq = addUint64 db.nextSeq ops.length := by
  rw [applyBatchLocked]
  rcases rotateIfFull_cases opts (db.applyOps ops) with kept | ⟨_, rotated⟩
  · rw [kept, applyOps_eq]
  · rw [rotated, applyOps_eq]
    rfl

variable {older : List Memtable}

section

variable {db : DB} {mt : Memtable} {table : Reader} (immutables : db.immutables = older ++ [mt])
  (contents : table.entries = mt.entries)

include immutables contents

theorem upper_flushed :
    ({ db with l0 := table :: db.l0, immutables := older } : DB).upper = db.upper := by
  simp [upper, memtables, immutables, contents]

/-- A flush replaces a memtable by a table with the same contents. -/
theorem mem_entries_flushed :
    entry ∈ ({ db with l0 := table :: db.l0, immutables := older } : DB).entries ↔
      entry ∈ db.entries := by
  rw [mem_entries, mem_entries, upper_flushed immutables contents]
  rfl

end

/-! ## The order -/

/-- Every source is newer than those asked after it, and the tables of a level
below L0 are disjoint. -/
structure Ordered (db : DB) : Prop where
  long : ∀ m ∈ db.memtables, ∀ entry ∈ m.entries, entry.Long
  sound : ∀ r ∈ db.tables, r.WellFormed ∧ r.Healthy
  upper : db.upper.Pairwise Newer
  upperLevels : ∀ entries ∈ db.upper, ∀ i, 0 < i → Newer entries (db.levelEntries i)
  levels : ∀ i j, 0 < i → i < j → Newer (db.levelEntries i) (db.levelEntries j)
  disjoint : ∀ i, 0 < i → Disjoint (db.level i)

namespace Ordered

variable {db : DB}

section

variable (ordered : db.Ordered)

include ordered

theorem wellFormed_level {i : Nat} (positive : 0 < i) {r : Reader} (mem : r ∈ db.level i) :
    r.WellFormed :=
  (ordered.sound r (mem_tables.mpr (.inr ⟨i, positive, mem⟩))).1

/-- The tables below L0 are ordered by age. -/
theorem deep_newer :
    ((db.levels.drop 1).flatten).Pairwise fun first second =>
      Newer first.entries second.entries := by
  apply deep_pairwise
  · intro i positive
    exact (ordered.disjoint i positive).newer fun r mem => ordered.wellFormed_level positive mem
  intro i j positive less first firstMem second secondMem a aMem b bMem
  exact ordered.levels i j positive less a (entries_subset firstMem aMem) b
    (entries_subset secondMem bMem)

/-- Every source is newer than the sources asked after it. -/
theorem sources_newer :
    db.sources.Pairwise fun first second => Newer first.entries second.entries := by
  rw [sources_eq, pairwise_append]
  refine ⟨?_, ?_, ?_⟩
  · have newer := ordered.upper
    rw [← map_entries_sources, pairwise_map] at newer
    exact newer
  · rw [pairwise_map]
    exact ordered.deep_newer
  · intro first firstMem second secondMem
    have isUpper : first.entries ∈ db.upper := by
      rw [← map_entries_sources]
      exact mem_map_of_mem firstMem
    rcases mem_map.mp secondMem with ⟨r, rMem, rfl⟩
    rcases mem_flatten.mp rMem with ⟨tables, tablesMem, inTables⟩
    rcases exists_level tablesMem with ⟨i, positive, rfl⟩
    intro a aMem b bMem
    exact ordered.upperLevels _ isUpper i positive a aMem b (entries_subset inTables bMem)

theorem readable : db.Readable := by
  constructor
  · intro source sourceMem
    rw [sources_eq, mem_append, mem_append, mem_map, mem_map,
      mem_map] at sourceMem
    rcases sourceMem with (⟨m, mMem, rfl⟩ | ⟨r, rMem, rfl⟩) | ⟨r, rMem, rfl⟩
    · exact ordered.long m mMem
    · exact ordered.sound r (mem_append_left _ rMem)
    · exact ordered.sound r (mem_append_right _ rMem)
  · exact ordered.sources_newer.imp Newer.covers

/-! ## Writes, rotations and flushes -/

/-- The active memtable may take in versions that are newer than all others. -/
theorem withActive {active : Memtable} {nextSeq : Nat}
    (grown : ∀ entry ∈ active.entries, entry ∈ db.active.entries ∨
      entry.Long ∧ ∀ old ∈ db.entries, old.seq < entry.seq) :
    ({ db with active := active, nextSeq := nextSeq } : DB).Ordered := by
  have activeUpper : db.active.entries ∈ db.upper :=
    mem_upper.mpr (.inl ⟨_, by simp [memtables], rfl⟩)
  have newerThan : ∀ older, Newer db.active.entries older → (∀ old ∈ older, old ∈ db.entries) →
      Newer active.entries older := by
    intro older wasNewer inDb first firstMem second secondMem sameUser
    rcases grown first firstMem with old | ⟨_, fresh⟩
    · exact wasNewer first old second secondMem sameUser
    · exact fresh second (inDb second secondMem)
  rcases pairwise_cons.mp ordered.upper with ⟨activeNewer, restNewer⟩
  constructor
  · intro m mMem entry entryMem
    rcases mem_cons.mp mMem with rfl | isImmutable
    · rcases grown entry entryMem with old | ⟨long, _⟩
      · exact ordered.long db.active (by simp [memtables]) entry old
      · exact long
    · exact ordered.long m (mem_cons_of_mem _ isImmutable) entry entryMem
  · exact ordered.sound
  · apply pairwise_cons.mpr
    constructor
    · intro older olderMem
      apply newerThan older (activeNewer older olderMem)
      intro old oldMem
      exact mem_entries.mpr (.inl ⟨older, mem_cons_of_mem _ olderMem, oldMem⟩)
    · exact restNewer
  · intro entries entriesMem i positive
    rcases mem_cons.mp entriesMem with rfl | isRest
    · apply newerThan _ (ordered.upperLevels _ activeUpper i positive)
      intro old oldMem
      exact mem_entries.mpr (.inr ⟨i, positive, oldMem⟩)
    · exact ordered.upperLevels entries (mem_cons_of_mem _ isRest) i positive
  · exact ordered.levels
  · exact ordered.disjoint

theorem withNextMemID (nextMemID : Nat) : ({ db with nextMemID := nextMemID } : DB).Ordered :=
  ⟨ordered.long, ordered.sound, ordered.upper, ordered.upperLevels, ordered.levels,
    ordered.disjoint⟩

theorem rotateMemtable : db.rotateMemtable.Ordered := by
  have upperEq : db.rotateMemtable.upper = [] :: db.upper := by
    simp [DB.rotateMemtable, DB.newMemtable, DB.upper, memtables]
  constructor
  · intro m mMem entry entryMem
    rcases mem_cons.mp mMem with rfl | isImmutable
    · cases entryMem
    rcases mem_cons.mp isImmutable with rfl | old
    · exact ordered.long db.active (by simp [memtables]) entry entryMem
    · exact ordered.long m (mem_cons_of_mem _ old) entry entryMem
  · exact ordered.sound
  · rw [upperEq, pairwise_cons]
    exact ⟨fun entries _ => nil_newer entries, ordered.upper⟩
  · intro entries entriesMem i positive
    rw [upperEq] at entriesMem
    rcases mem_cons.mp entriesMem with rfl | old
    · exact nil_newer _
    · exact ordered.upperLevels entries old i positive
  · exact ordered.levels
  · exact ordered.disjoint

theorem rotateIfFull (opts : Options) : (db.rotateIfFull opts).Ordered := by
  rcases rotateIfFull_cases opts db with kept | ⟨_, rotated⟩
  · rw [kept]
    exact ordered
  · rw [rotated]
    exact ordered.rotateMemtable

/-- The flushed table takes the place of its memtable in the order. -/
theorem flushed {mt : Memtable} {table : Reader} (immutables : db.immutables = older ++ [mt])
    (contents : table.entries = mt.entries) (sound : table.WellFormed ∧ table.Healthy) :
    ({ db with l0 := table :: db.l0, immutables := older } : DB).Ordered := by
  constructor
  · intro m mMem
    apply ordered.long m
    rcases mem_cons.mp mMem with rfl | isOlder
    · simp [memtables]
    · simp only [memtables, immutables, mem_cons, mem_append]
      exact .inr (.inl isOlder)
  · intro r rMem
    rcases mem_tables.mp rMem with inL0 | ⟨i, positive, inLevel⟩
    · rcases mem_cons.mp inL0 with rfl | old
      · exact sound
      · exact ordered.sound r (mem_tables.mpr (.inl old))
    · exact ordered.sound r (mem_tables.mpr (.inr ⟨i, positive, inLevel⟩))
  · rw [upper_flushed immutables contents]
    exact ordered.upper
  · rw [upper_flushed immutables contents]
    exact ordered.upperLevels
  · exact ordered.levels
  · exact ordered.disjoint

end

end Ordered

/-! ## Identifiers -/

/-- Identifiers tell memtables and tables apart, and the counter is not behind. -/
structure Identified (db : DB) : Prop where
  memtableBound : ∀ m ∈ db.memtables, m.id ≤ db.nextMemID
  tableBound : ∀ r ∈ db.tables, r.id ≤ db.nextMemID
  memtables : (db.memtables.map Memtable.id).Nodup
  apart : ∀ m ∈ db.memtables, ∀ r ∈ db.tables, r.id ≠ m.id
  tables : ∀ r ∈ db.tables, ∀ t ∈ db.tables, r.id = t.id → r = t

namespace Identified

variable {db : DB}

section

variable (identified : db.Identified)

include identified

theorem withActive {active : Memtable} {nextSeq : Nat} (sameId : active.id = db.active.id) :
    ({ db with active := active, nextSeq := nextSeq } : DB).Identified := by
  rcases identified with ⟨memtableBound, tableBound, memtables, apart, tables⟩
  have ids : ∀ m ∈ active :: db.immutables, ∃ old ∈ db.memtables, old.id = m.id := by
    intro m mMem
    rcases mem_cons.mp mMem with rfl | isImmutable
    · exact ⟨db.active, by simp [DB.memtables], sameId.symm⟩
    · exact ⟨m, mem_cons_of_mem _ isImmutable, rfl⟩
  constructor
  · intro m mMem
    rcases ids m mMem with ⟨old, oldMem, idEq⟩
    rw [← idEq]
    exact memtableBound old oldMem
  · exact tableBound
  · simpa [DB.memtables, sameId] using memtables
  · intro m mMem r rMem
    rcases ids m mMem with ⟨old, oldMem, idEq⟩
    rw [← idEq]
    exact apart old oldMem r rMem
  · exact tables

theorem withNextMemID {nextMemID : Nat} (above : db.nextMemID ≤ nextMemID) :
    ({ db with nextMemID := nextMemID } : DB).Identified :=
  ⟨fun m mMem => (identified.memtableBound m mMem).trans above,
    fun r rMem => (identified.tableBound r rMem).trans above, identified.memtables,
    identified.apart, identified.tables⟩

/-- A rotation draws a fresh identifier, as long as the counter does not wrap. -/
theorem rotateMemtable (fits : db.nextMemID + 1 ≤ maxSeqNum) : db.rotateMemtable.Identified := by
  have id : addUint64 db.nextMemID 1 = db.nextMemID + 1 := addUint64_eq fits
  rcases identified with ⟨memtableBound, tableBound, memtables, apart, tables⟩
  have bound : ∀ m ∈ db.active.freeze :: db.immutables, m.id ≤ db.nextMemID := by
    intro m mMem
    rcases mem_cons.mp mMem with rfl | old
    · exact memtableBound db.active (by simp [DB.memtables])
    · exact memtableBound m (mem_cons_of_mem _ old)
  constructor
  · intro m mMem
    rcases mem_cons.mp mMem with rfl | old
    · exact le_rfl
    · exact (bound m old).trans (by simp [DB.rotateMemtable, newMemtable, id])
  · intro r rMem
    exact (tableBound r rMem).trans (by simp [DB.rotateMemtable, newMemtable, id])
  · apply nodup_cons.mpr
    constructor
    · intro used
      rcases mem_map.mp used with ⟨m, mMem, sameId⟩
      have fresh : m.id = db.nextMemID + 1 := sameId.trans id
      have := bound m mMem
      omega
    · exact memtables
  · intro m mMem r rMem sameId
    rcases mem_cons.mp mMem with rfl | old
    · have fresh : r.id = db.nextMemID + 1 := sameId.trans id
      have := tableBound r rMem
      omega
    rcases mem_cons.mp old with rfl | older
    · exact apart db.active (by simp [DB.memtables]) r rMem sameId
    · exact apart m (mem_cons_of_mem _ older) r rMem sameId
  · exact tables

theorem rotateIfFull (opts : Options) (fits : db.nextMemID + 1 ≤ maxSeqNum) :
    (db.rotateIfFull opts).Identified := by
  rcases rotateIfFull_cases opts db with kept | ⟨_, rotated⟩
  · rw [kept]
    exact identified
  · rw [rotated]
    exact identified.rotateMemtable fits

theorem flushed {mt : Memtable} {table : Reader} (immutables : db.immutables = older ++ [mt])
    (tableId : table.id = mt.id) :
    ({ db with l0 := table :: db.l0, immutables := older } : DB).Identified := by
  rcases identified with ⟨memtableBound, tableBound, memtables, apart, tables⟩
  have mtMem : mt ∈ db.memtables := by
    simp [DB.memtables, immutables]
  have kept : ∀ m ∈ db.active :: older, m ∈ db.memtables := by
    intro m mMem
    simp only [DB.memtables, immutables, mem_cons, mem_append]
    rcases mem_cons.mp mMem with rfl | isOlder
    · exact .inl rfl
    · exact .inr (.inl isOlder)
  have oldTable : ∀ r, r ∈ ({ db with l0 := table :: db.l0, immutables := older } : DB).tables →
      r = table ∨ r ∈ db.tables := by
    intro r rMem
    rcases mem_cons.mp rMem with isNew | old
    · exact .inl isNew
    · exact .inr old
  have different : ∀ m ∈ db.active :: older, m.id ≠ mt.id := by
    intro m mMem same
    have split : db.memtables.map Memtable.id =
        (db.active :: older).map Memtable.id ++ [mt.id] := by
      simp [DB.memtables, immutables]
    rw [split, nodup_append] at memtables
    exact memtables.2.2 m.id (mem_map_of_mem mMem) mt.id (by simp) same
  constructor
  · intro m mMem
    exact memtableBound m (kept m mMem)
  · intro r rMem
    rcases oldTable r rMem with rfl | old
    · rw [tableId]
      exact memtableBound mt mtMem
    · exact tableBound r old
  · apply List.Nodup.sublist _ memtables
    apply List.Sublist.map
    simp only [DB.memtables, immutables]
    exact (sublist_append_left older [mt]).cons_cons _
  · intro m mMem r rMem
    rcases oldTable r rMem with rfl | old
    · rw [tableId]
      exact (different m mMem).symm
    · exact apart m (kept m mMem) r old
  · intro r rMem t tMem sameId
    rcases oldTable r rMem with rfl | rOld
    · rcases oldTable t tMem with rfl | tOld
      · rfl
      · exact absurd (sameId.symm.trans tableId) (apart mt mtMem t tOld)
    rcases oldTable t tMem with rfl | tOld
    · exact absurd (sameId.trans tableId) (apart mt mtMem r rOld)
    · exact tables r rOld t tOld sameId

end

end Identified

end DB

end Theseon
