import Theseon.DB.Engine
import Theseon.Iterator.MergeOrder
import Theseon.Iterator.Snapshot
import Theseon.Memtable.Iterator

/-!
# Scans

A scan merges the versions of all sources and shows the newest visible one of
every user key.  In every state that writes, flushes and compactions lead to, it
ends without an error.
-/

namespace Theseon

open Lib KV SSTable Compaction Iterator List

/-- The iterators that a scan merges. -/
inductive ScanIterator where
  | memtable (it : SkipListIterator)
  | table (it : SSTableIterator)

namespace ScanIterator

instance : Iter ScanIterator ReadError where
  key
    | memtable it => it.key
    | table it => Iter.key it
  value
    | memtable it => it.value
    | table it => Iter.value it
  next
    | memtable it => memtable it.next
    | table it => table (Iter.next it)
  isValid
    | memtable it => it.isValid
    | table it => Iter.isValid it
  err
    | memtable _ => none
    | table it => Iter.err it
  invalid_of_err
    | memtable _, failed => absurd rfl failed
    | table it, failed => Iter.invalid_of_err it failed

theorem memtable_drains (entries : List Entry) :
    Drains (memtable ⟨entries, none⟩) (entries.map shown) (none : Option ReadError) := by
  induction entries with
  | nil => exact Drains.stop rfl
  | cons entry rest ih =>
    apply Drains.step rfl
    have next : (⟨entry :: rest, none⟩ : SkipListIterator).next = ⟨rest, none⟩ :=
      SkipListIterator.checkBound_unbounded rest
    change Drains (memtable (SkipListIterator.next _)) _ _
    rw [next]
    exact ih

theorem table_drains {it : SSTableIterator} {out : List (Bytes × Option Bytes)}
    {final : Option ReadError} (drains : Drains it out final) : Drains (table it) out final := by
  induction drains with
  | @stop it invalid => exact @Drains.stop ScanIterator ReadError _ (table it) invalid
  | @step it out final valid _ ih =>
    exact @Drains.step ScanIterator ReadError _ (table it) out final valid ih

end ScanIterator

/-- `Scan` of a memtable or a table. -/
def Source.scan : Source → ScanIterator
  | memtable m => .memtable m.scan
  | table r => .table r.scan

/-- `ScanRange` of a memtable or a table. -/
def Source.scanRange (start stop : Option Bytes) : Source → ScanIterator
  | memtable m => .memtable (m.scanRange start stop)
  | table r => .table (r.scanRange start stop)

namespace DB

def rawScan (db : DB) : MergeIterator ScanIterator ReadError :=
  .new (db.sources.map Source.scan)

/-- `rawScanRange`.  Unlike `rawScan` it takes the levels from L1 on without asking
whether there are any levels, and panics if there are none. -/
def rawScanRange (db : DB) (start stop : Option Bytes) :
    Option (MergeIterator ScanIterator ReadError) :=
  match db.levels with
  | [] => none
  | _ :: deep =>
    let sources : List Source := .memtable db.active :: db.immutables.map .memtable ++
      (db.l0 ++ deep.flatten).map .table
    some (.new (sources.map (Source.scanRange start stop)))

/-- The scans at a sequence number, with as many rounds as there are versions. -/
def scanAt (db : DB) (maxSeq : Nat) :
    SnapshotIterator (MergeIterator ScanIterator ReadError) ReadError :=
  .new db.rawScan maxSeq (db.entries.length + 1)

def scan (db : DB) : SnapshotIterator (MergeIterator ScanIterator ReadError) ReadError :=
  db.scanAt db.currentSeq

/-- All versions in the order of their internal keys. -/
def scanned (db : DB) : List (Bytes × Option Bytes) :=
  mergePairs (db.sources.map fun source => source.entries.map shown)

theorem length_scanned (db : DB) : db.scanned.length = db.entries.length := by
  rw [scanned, mergePairs, (sortByKey_perm _).length_eq, entries, length_flatten,
    length_flatMap, map_map]
  congr 2
  funext source
  simp

theorem mem_scanned {db : DB} {pair : Bytes × Option Bytes} :
    pair ∈ db.scanned ↔ ∃ entry ∈ db.entries, pair = shown entry := by
  rw [scanned, mem_mergePairs, entries]
  constructor
  · rintro ⟨out, outMem, pairMem⟩
    rcases mem_map.mp outMem with ⟨source, sourceMem, rfl⟩
    rcases mem_map.mp pairMem with ⟨entry, entryMem, rfl⟩
    exact ⟨entry, mem_flatMap.mpr ⟨source, sourceMem, entryMem⟩, rfl⟩
  · rintro ⟨entry, entryMem, rfl⟩
    rcases mem_flatMap.mp entryMem with ⟨source, sourceMem, inSource⟩
    exact ⟨_, mem_map_of_mem sourceMem, mem_map_of_mem inSource⟩

end DB

def Snapshot.scan (s : Snapshot) :
    SnapshotIterator (MergeIterator ScanIterator ReadError) ReadError :=
  s.db.scanAt s.seq

/-! ## Scans end without an error -/

/-- A sound source is read to its end. -/
theorem Source.Sound.scan_drains {source : Source} (sound : source.Sound) :
    Drains source.scan (source.entries.map shown) (none : Option ReadError) := by
  cases source with
  | memtable m =>
    rw [Source.scan, Memtable.scan, SkipListIterator.new, SkipListIterator.checkBound_unbounded]
    exact ScanIterator.memtable_drains m.entries
  | table r =>
    rcases sound with ⟨wellFormed, healthy⟩
    have drains := r.scan_drains wellFormed.blocksNonempty
    rw [healthy.readable_eq] at drains
    exact ScanIterator.table_drains drains

theorem Source.keySorted {source : Source} (sound : source.Sound) :
    KeySorted (source.entries.map shown) := by
  rw [KeySorted, pairwise_map]
  cases source with
  | memtable m => exact m.sorted
  | table r => exact sound.1.ascending.sorted

namespace DB

/-- The memtables hold internal keys and written values, and the tables are well
formed and undamaged. -/
structure Scannable (db : DB) : Prop where
  memtables : ∀ m ∈ db.memtables, ∀ entry ∈ m.entries, entry.Long ∧ entry.value.Written
  tables : ∀ r ∈ db.tables, r.WellFormed ∧ r.Healthy

section

variable {opts : Options} {db next : DB}

theorem Scannable.sound (scannable : db.Scannable) : ∀ source ∈ db.sources, source.Sound := by
  intro source sourceMem
  rw [sources_eq, append_assoc, ← map_append] at sourceMem
  rcases mem_append.mp sourceMem with inMemtables | inTables
  · rcases mem_map.mp inMemtables with ⟨m, mMem, rfl⟩
    exact fun entry entryMem => (scannable.memtables m mMem entry entryMem).1
  · rcases mem_map.mp inTables with ⟨r, rMem, rfl⟩
    exact scannable.tables r rMem

/-- A scan of all versions yields them in the order of their internal keys. -/
theorem rawScan_drains (sound : ∀ source ∈ db.sources, source.Sound) :
    Drains db.rawScan db.scanned none := by
  apply MergeIterator.new_drains_mergePairs
  · rw [List.forall₂_map_left_iff, List.forall₂_map_right_iff, List.forall₂_same]
    exact fun source sourceMem => (sound source sourceMem).scan_drains
  intro out outMem
  rcases mem_map.mp outMem with ⟨source, sourceMem, rfl⟩
  exact Source.keySorted (sound source sourceMem)

theorem scanAt_drains (sound : ∀ source ∈ db.sources, source.Sound) (maxSeq : Nat) :
    Drains (db.scanAt maxSeq) (visible maxSeq none db.scanned) none := by
  apply SnapshotIterator.new_drains (rawScan_drains sound)
  rw [length_scanned]
  exact Nat.lt_succ_self _

theorem fresh_scannable (opts : Options) : (fresh opts).Scannable := by
  constructor
  · intro m mMem entry entryMem
    rw [mem_singleton.mp mMem] at entryMem
    cases entryMem
  · intro r rMem
    simp [tables, fresh, newMemtable] at rMem

theorem Scannable.applyOps (scannable : db.Scannable) (ops : List BatchOp) :
    (db.applyOps ops).Scannable := by
  rw [applyOps_eq]
  refine ⟨?_, scannable.tables⟩
  rintro m (_ | ⟨_, older⟩)
  · intro entry entryMem
    rcases Memtable.mem_foldl_put.mp entryMem with isNew | old
    · rcases exists_op_of_mem_stamp isNew with ⟨op, _, n, rfl⟩
      refine ⟨op.entry_long n, ?_⟩
      rw [BatchOp.entry, BatchOp.stored]
      split
      · exact .inl rfl
      · exact .inr ⟨op.value, rfl⟩
    · exact scannable.memtables db.active mem_cons_self entry old
  · exact scannable.memtables m (mem_cons_of_mem _ older)

theorem Scannable.applyBatchLocked (scannable : db.Scannable) (ops : List BatchOp) :
    (db.applyBatchLocked opts ops).Scannable := by
  have applied := scannable.applyOps ops
  rw [DB.applyBatchLocked]
  rcases rotateIfFull_cases opts (db.applyOps ops) with kept | ⟨_, rotated⟩
  · rw [kept]
    exact applied
  rw [rotated]
  refine ⟨?_, applied.tables⟩
  rintro m (_ | ⟨_, older⟩)
  · exact forall_mem_nil _
  · rcases mem_cons.mp older with rfl | immutable
    · exact applied.memtables (db.applyOps ops).active mem_cons_self
    · exact applied.memtables m (mem_cons_of_mem _ immutable)

theorem Scannable.flush (scannable : db.Scannable) (flushed : db.flush opts = some next) :
    next.Scannable := by
  rcases flush_eq_some flushed with ⟨newer, mt, table, immutables, done, rfl⟩
  have held := fun m isHeld => scannable.memtables m ((mem_memtables_split immutables).mpr isHeld)
  constructor
  · exact fun m mMem => held m (.inl mMem)
  · intro r rMem
    rcases mem_cons.mp rMem with rfl | old
    · exact (flushTable_eq_ok (fun entry mem => (held mt (.inr rfl) entry mem).1) done).2
    · exact scannable.tables r old

theorem Scannable.compact (scannable : db.Scannable) {sorter : Sorter Reader.firstKey}
    (compacted : db.compact opts sorter = some next) : next.Scannable := by
  rcases compact_eq_some compacted with ⟨task, newTables, picked, done, rfl⟩
  have inputs : ∀ r ∈ task.allInputs, r.WellFormed := fun r rMem =>
    (scannable.tables r (mem_tables_of_located
      (located_of_picked (picked_of_pickCompaction picked).1) rMem)).1
  constructor
  · rw [memtables_applyCompactionResult]
    exact scannable.memtables
  · intro r rMem
    rcases mem_tables_of_applyCompactionResult rMem with old | isNew
    · exact scannable.tables r old
    · exact (execute_eq_ok inputs done).2.2.1 r isNew

end

end DB

theorem DB.length_levels_applyCompactionResult {db : DB} {sorter : Sorter Reader.firstKey}
    {task : CompactionTask} {newTables : List Reader} :
    (db.applyCompactionResult sorter task newTables).levels.length = db.levels.length := by
  rw [applyCompactionResult, installOutputs]
  split
  · exact length_set.trans length_removeInputs
  · exact length_removeInputs

/-- The engine keeps the number of its levels. -/
theorem Engine.levels_ne_nil_of_reached {opts : Options} {allowed : Engine → Action → Prop}
    {e : Engine} (reached : Reached (step opts) allowed (start opts) e)
    (levels : 1 ≤ opts.compaction.maxLevels) : e.db.levels ≠ [] := by
  have count : e.db.levels.length = opts.compaction.maxLevels.toNat := by
    apply reached.invariant fun e => e.db.levels.length = opts.compaction.maxLevels.toNat
    · exact length_replicate
    intro e next action count _ stepped
    cases stepped_of_step stepped with
    | write =>
      rw [← count, DB.applyBatchLocked, DB.applyOps_eq, DB.rotateIfFull]
      split <;> rfl
    | flush flushed =>
      rcases DB.flush_eq_some flushed with ⟨_, _, _, _, _, rfl⟩
      exact count
    | compact compacted =>
      rcases DB.compact_eq_some compacted with ⟨_, _, _, _, rfl⟩
      exact DB.length_levels_applyCompactionResult.trans count
  intro none
  rw [none, length_nil] at count
  omega

/-- Every state that writes, flushes and compactions lead to can be scanned. -/
theorem Engine.scannable_of_reached {opts : Options} {allowed : Engine → Action → Prop} {e : Engine}
    (reached : Reached (step opts) allowed (start opts) e) : e.db.Scannable := by
  apply reached.invariant fun e => e.db.Scannable
  · exact DB.fresh_scannable opts
  intro e next action scannable _ stepped
  cases stepped_of_step stepped with
  | write => exact scannable.applyBatchLocked _
  | flush flushed => exact scannable.flush flushed
  | compact compacted => exact scannable.compact compacted

/-! ## What an internal key shows -/

/-- The iterators show a nil value and a tombstone alike. -/
theorem shown_flushedEntry (entry : Entry) : shown (flushedEntry entry) = shown entry := by
  rcases entry with ⟨key, _ | data, _ | _⟩ <;> rfl

namespace DB

/-- The versions of the engine can be told apart by their internal keys, as far
as a scan shows them. -/
def KeysShowOne (db : DB) : Prop :=
  ∀ entry ∈ db.entries, ∀ other ∈ db.entries, entry.key = other.key → shown entry = shown other

/-- Everything that a scan of `next` can show, a scan of `db` can show. -/
def ShowsWithin (next db : DB) : Prop :=
  ∀ entry ∈ next.entries, ∃ original ∈ db.entries, shown entry = shown original

section

variable {opts : Options} {db next : DB}

theorem Scannable.long (scannable : db.Scannable) : ∀ entry ∈ db.entries, entry.Long := by
  intro entry entryMem
  rcases mem_flatMap.mp entryMem with ⟨source, sourceMem, inSource⟩
  exact (scannable.sound source sourceMem).long inSource

theorem KeysShowOne.within (single : db.KeysShowOne) (within : next.ShowsWithin db) :
    next.KeysShowOne := by
  intro entry entryMem other otherMem sameKey
  rcases within entry entryMem with ⟨first, firstMem, showsFirst⟩
  rcases within other otherMem with ⟨second, secondMem, showsSecond⟩
  rw [showsFirst, showsSecond]
  apply single first firstMem second secondMem
  have firstKey : entry.key = first.key := congrArg Prod.fst showsFirst
  have secondKey : other.key = second.key := congrArg Prod.fst showsSecond
  rw [← firstKey, ← secondKey, sameKey]

theorem showsWithin_flush (scannable : db.Scannable) (flushed : db.flush opts = some next) :
    next.ShowsWithin db := by
  rcases flush_eq_some flushed with ⟨newer, mt, table, immutables, done, rfl⟩
  have mtMem : mt ∈ db.memtables := (mem_memtables_split immutables).mpr (.inr rfl)
  have long : ∀ entry ∈ mt.entries, entry.Long :=
    fun entry entryMem => (scannable.memtables mt mtMem entry entryMem).1
  intro entry entryMem
  rcases mem_entries_iff.mp entryMem with ⟨m, mMem, inMemtable⟩ | inTables
  · have isHeld := (mem_memtables_split immutables).mpr (.inl mMem)
    exact ⟨entry, mem_entries_iff.mpr (.inl ⟨m, isHeld, inMemtable⟩), rfl⟩
  rcases mem_entriesOf.mp inTables with ⟨r, rMem, inTable⟩
  rcases mem_cons.mp rMem with rfl | old
  · rw [(flushTable_eq_ok long done).1] at inTable
    rcases mem_map.mp inTable with ⟨original, originalMem, rfl⟩
    exact ⟨original, mem_entries_iff.mpr (.inl ⟨mt, mtMem, originalMem⟩),
      shown_flushedEntry original⟩
  · exact ⟨entry, mem_entries_iff.mpr (.inr (mem_entriesOf.mpr ⟨r, old, inTable⟩)), rfl⟩

theorem showsWithin_compact (scannable : db.Scannable) {sorter : Sorter Reader.firstKey}
    (compacted : db.compact opts sorter = some next) : next.ShowsWithin db := by
  rcases compact_eq_some compacted with ⟨task, newTables, picked, done, rfl⟩
  have isInput := fun r rMem =>
    @mem_tables_of_located db task (located_of_picked (picked_of_pickCompaction picked).1) r rMem
  have inputs : ∀ r ∈ task.allInputs, r.WellFormed := fun r rMem =>
    (scannable.tables r (isInput r rMem)).1
  intro entry entryMem
  refine ⟨entry, ?_, rfl⟩
  rcases mem_entries_iff.mp entryMem with ⟨m, mMem, inMemtable⟩ | inTables
  · rw [memtables_applyCompactionResult] at mMem
    exact mem_entries_iff.mpr (.inl ⟨m, mMem, inMemtable⟩)
  rw [mem_entries_iff, mem_entriesOf]
  rcases mem_entriesOf.mp inTables with ⟨r, rMem, inTable⟩
  rcases mem_tables_of_applyCompactionResult rMem with old | isNew
  · exact .inr ⟨r, old, inTable⟩
  have written := (execute_eq_ok inputs done).1.subset
    (mem_flatMap.mpr ⟨r, isNew, inTable⟩)
  rcases CompactionTask.readable_subset written with ⟨input, inputMem, inInput⟩
  exact .inr ⟨input, isInput input inputMem, inInput⟩

theorem KeysShowOne.applyBatchLocked (single : db.KeysShowOne)
    (bounded : ∀ entry ∈ db.entries, entry.seq ≤ db.nextSeq) {ops : List BatchOp}
    (fits : db.nextSeq + ops.length ≤ maxSeqNum) :
    (db.applyBatchLocked opts ops).KeysShowOne ∧
      ∀ entry ∈ (db.applyBatchLocked opts ops).entries,
        entry.seq ≤ (db.applyBatchLocked opts ops).nextSeq := by
  have fresh : ∀ old ∈ db.entries, ∀ new ∈ stamp db.nextSeq ops, old.key ≠ new.key := by
    intro old oldMem new newMem sameKey
    have below := bounded old oldMem
    rw [Entry.seq, sameKey] at below
    exact absurd (seq_of_mem_stamp fits newMem).1 (not_lt.mpr below)
  constructor
  · intro entry entryMem other otherMem sameKey
    rcases mem_entries_applyBatchLocked.mp entryMem with old | isNew
    · rcases mem_entries_applyBatchLocked.mp otherMem with old' | isNew'
      · exact single entry old other old' sameKey
      · exact absurd sameKey (fresh entry old other isNew')
    rcases mem_entries_applyBatchLocked.mp otherMem with old' | isNew'
    · exact absurd sameKey.symm (fresh other old' entry isNew)
    have distinct : ((stamp db.nextSeq ops).map Entry.seq).Nodup := by
      rw [List.Nodup, pairwise_map]
      exact (stamp_pairwise fits).imp ne_of_lt
    have same : entry = other :=
      inj_on_of_nodup_map distinct isNew isNew' (congrArg seqNum sameKey)
    rw [same]
  · intro entry entryMem
    rw [nextSeq_applyBatchLocked, addUint64_eq fits]
    rcases mem_entries_applyBatchLocked.mp entryMem with old | isNew
    · exact Nat.le_add_right_of_le (bounded entry old)
    · exact (seq_of_mem_stamp fits isNew).2

end

end DB

namespace Engine

/-- The action does not make the counter of the sequence numbers wrap. -/
def CountsOn (e : Engine) : Action → Prop
  | .write ops => e.db.nextSeq + ops.length ≤ maxSeqNum
  | .flush => True
  | .compact _ => True

instance (e : Engine) : (a : Action) → Decidable (e.CountsOn a)
  | .write _ => inferInstanceAs (Decidable (_ ≤ _))
  | .flush | .compact _ => .isTrue trivial

/-- As long as the counter does not wrap, an internal key names one version. -/
theorem keysShowOne_of_reached {opts : Options} {e : Engine}
    (reached : Reached (step opts) CountsOn (start opts) e) : e.db.KeysShowOne := by
  have invariant : e.db.Scannable ∧ e.db.KeysShowOne ∧
      ∀ entry ∈ e.db.entries, entry.seq ≤ e.db.nextSeq := by
    apply reached.invariant fun e => e.db.Scannable ∧ e.db.KeysShowOne ∧
      ∀ entry ∈ e.db.entries, entry.seq ≤ e.db.nextSeq
    · have none : ∀ entry ∈ (DB.fresh opts).entries, False := by
        intro entry entryMem
        simp [DB.entries, DB.sources, DB.fresh, DB.newMemtable, Source.entries] at entryMem
      exact ⟨DB.fresh_scannable opts, fun entry entryMem => (none entry entryMem).elim,
        fun entry entryMem => (none entry entryMem).elim⟩
    rintro e next action ⟨scannable, single, bounded⟩ counts stepped
    have within : ∀ {db : DB}, db.ShowsWithin e.db → db.nextSeq = e.db.nextSeq →
        db.KeysShowOne ∧ ∀ entry ∈ db.entries, entry.seq ≤ db.nextSeq := by
      intro db within sameCounter
      refine ⟨single.within within, ?_⟩
      intro entry entryMem
      rcases within entry entryMem with ⟨original, originalMem, shows⟩
      have sameKey : entry.key = original.key := congrArg Prod.fst shows
      have sameSeq : entry.seq = original.seq := congrArg seqNum sameKey
      rw [sameSeq, sameCounter]
      exact bounded original originalMem
    cases stepped_of_step stepped with
    | write => exact ⟨scannable.applyBatchLocked _, single.applyBatchLocked bounded counts⟩
    | flush flushed =>
      refine ⟨scannable.flush flushed, within (DB.showsWithin_flush scannable flushed) ?_⟩
      rcases DB.flush_eq_some flushed with ⟨_, _, _, _, _, rfl⟩
      rfl
    | compact compacted =>
      refine ⟨scannable.compact compacted,
        within (DB.showsWithin_compact scannable compacted) ?_⟩
      rcases DB.compact_eq_some compacted with ⟨_, _, _, _, rfl⟩
      exact DB.counters_applyCompactionResult.2
  exact invariant.2.1

end Engine

end Theseon
