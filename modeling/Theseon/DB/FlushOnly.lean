import Theseon.DB.DurableWrites

/-!
# Runs without compactions

The steps of a flush keep the disk durable, too.  So whenever the process crashes,
`Open` rebuilds an engine that reads exactly what the history demands, with a
counter that is not behind any version.
-/

namespace Theseon

open Std List
open Lib KV SSTable Compaction Manifest

section Live

variable {history : History} {disk : Disk} {p : Process}

variable {disk' : Disk} {table : Reader}

/-! ## Flushes -/

/-- A step of the flusher that leaves the engine and the logs alone. -/
theorem Live.withFlusher (live : Live history disk p) {stage : Flusher}
    (wals : disk'.wals = disk.wals) (notSwapped : p.flusher.swappedID = none)
    (stillNot : stage.swappedID = none) (holds : stage.Holds history disk' p.db) :
    Live history disk' { p with flusher := stage } := by
  refine { live with logs := ?_, flusher := holds }
  intro id
  rw [wals, live.logs, notSwapped, stillNot]

/-- The flushed table holds the versions of its memtable's log. -/
theorem HoldsTable.flushed {opts : Options} {mt : Memtable} (chronological : history.Chronological)
    (holds : history.Holds mt.id mt.entries) (built : flushTable opts mt = .ok table) :
    HoldsTable history table := by
  have logged : ∀ entry ∈ mt.entries, (mt.id, entry) ∈ history := fun entry mem =>
    (holds entry).mp mem
  rcases flushTable_eq_ok (fun entry mem => chronological.long _ (logged entry mem)) built with
    ⟨contents, wellFormed, healthy⟩
  rw [map_flushedEntry fun entry mem => chronological.clean _ (logged entry mem)] at contents
  refine ⟨?_, wellFormed, healthy⟩
  rw [contents, flushTable_id built]
  exact holds

/-- No log is older than the table that is being flushed. -/
theorem Flushing.id_le (live : Live history disk p)
    (flushing : Flushing history disk.tables p.db.immutables table)
    (notSwapped : p.flusher.swappedID = none) {log : Nat} (isLog : log ∈ disk.wals) :
    table.id ≤ log := by
  rcases flushing.oldest with ⟨newer, mt, isLast, sameID⟩
  have ordered := live.descending
  have split : p.db.memtables.map Memtable.id =
      (p.db.active :: newer).map Memtable.id ++ [table.id] := by
    rw [DB.memtables, isLast, ← sameID]
    simp
  have isMemtable := (live.logs log).mp isLog
  rw [notSwapped, split, mem_append, mem_singleton] at isMemtable
  rw [split, pairwise_append] at ordered
  rcases isMemtable with (newerLog | same) | impossible
  · exact (ordered.2.2 log newerLog table.id mem_cons_self).le
  · exact same.ge
  · cases impossible

/-- The table takes the place of its memtable. -/
theorem Live.installFlushed (live : Live history disk p) (stage : p.flusher = .recorded table) :
    Live history disk
      { p with db := p.db.installFlushed table, flusher := .swapped table.id } := by
  have holds := live.flusher
  rw [stage] at holds
  rcases holds with ⟨flushing, recorded⟩
  have below := flushing.id_lt live
  rcases flushing.oldest with ⟨newer, mt, isLast, sameID⟩
  have older : (p.db.installFlushed table).immutables = newer := by
    rw [DB.installFlushed, isLast, dropLast_concat]
  have ids : p.db.memtables.map Memtable.id =
      (p.db.installFlushed table).memtables.map Memtable.id ++ [table.id] := by
    rw [DB.memtables, DB.memtables, older, isLast, ← sameID]
    simp [DB.installFlushed]
  have sources : (p.db.installFlushed table).sourceIDs = p.db.sourceIDs := by
    rw [DB.sourceIDs, DB.sourceIDs, ids, append_assoc]
    rfl
  have fewer : ∀ m ∈ (p.db.installFlushed table).memtables, m ∈ p.db.memtables := by
    intro m mMem
    rw [DB.memtables, older] at mMem
    rw [DB.memtables, isLast]
    rcases mem_cons.mp mMem with rfl | isNewer
    · exact mem_cons_self
    · exact mem_cons_of_mem _ (mem_append_left _ isNewer)
  have ordered := live.descending
  rw [ids, pairwise_append] at ordered
  constructor
  · constructor
    · exact live.holds.levels
    · exact fun m mMem => live.holds.memtables m (fewer m mMem)
    · intro r rMem
      rcases mem_cons.mp rMem with rfl | old
      · exact flushing.holds
      · exact live.holds.l0 r old
    · rw [sources]
      exact live.holds.newestFirst
    · rw [sources]
      exact live.holds.complete
  · exact ordered.1
  · intro r rMem
    rcases mem_cons.mp rMem with rfl | old
    · exact below
    · exact live.l0 r old
  · exact live.counter
  · intro id
    rw [live.logs, ids, stage, mem_append, mem_singleton]
    simp [Flusher.swappedID, eq_comm]
  · have writer := live.writer
    cases writing : p.writer with
    | _ =>
      rw [writing] at writer
      exact writer
  · refine ⟨recorded, below, ?_⟩
    intro m mMem
    have isMemtable : m ∈ (p.db.installFlushed table).memtables := mem_cons_of_mem _ mMem
    exact ordered.2.2 m.id (mem_map_of_mem isMemtable) table.id mem_cons_self

/-- The log of the flushed memtable is removed. -/
theorem Live.removeWAL {id : Nat} (live : Live history disk p) (durable : disk.Durable history)
    (stage : p.flusher = .swapped id) :
    (disk.removeWAL id).Durable history ∧
      Live history (disk.removeWAL id) { p with flusher := .idle } := by
  have holds := live.flusher
  rw [stage] at holds
  constructor
  · exact durable.removeWAL holds.1.added holds.1.ahead live.active_log
      (fun log isLog => live.log_le isLog) holds.2.1
  · refine { live with logs := ?_, flusher := trivial }
    intro log
    rw [Disk.removeWAL, mem_erase_key, live.logs, stage]
    constructor
    · rintro ⟨different, isMemtable | same⟩
      · exact .inl isMemtable
      · exact absurd (Option.some.inj same) different
    · rintro (isMemtable | impossible)
      · refine ⟨?_, .inl isMemtable⟩
        rintro rfl
        rcases mem_map.mp isMemtable with ⟨m, mMem, same⟩
        rcases mem_cons.mp mMem with rfl | isImmutable
        · exact absurd same holds.2.1.ne'
        · exact absurd same (holds.2.2 m isImmutable).ne'
      · cases impossible

theorem Disk.Sized.congr (sized : disk.Sized history) (fewer : ∀ id ∈ disk'.wals, id ∈ disk.wals)
    (some : ∃ id, id ∈ disk'.wals) (counter : disk'.manifest.nextMemID ≤ history.length + 1) :
    disk'.Sized history := by
  constructor
  · exact sized.inRange
  · exact fun id mem => sized.logs id (fewer id mem)
  · exact counter
  · intro isEmpty
    rcases some with ⟨id, mem⟩
    rw [← ExtTreeMap.mem_keys, isEmpty_iff.mp (ExtTreeMap.isEmpty_keys.trans isEmpty)] at mem
    cases mem

/-- Every step of a flush keeps the disk durable. -/
theorem Live.flush {opts : Options} {p' : Process} (live : Live history disk p)
    (durable : disk.Durable history) (sized : disk.Sized history)
    (flushes : Flushes opts disk p disk' p') :
    disk'.Durable history ∧ disk'.Sized history ∧ Live history disk' p' := by
  have holds := live.flusher
  have active := live.active_log
  cases flushes with
  | @build newer mt table stage oldest built =>
    have tableHolds := HoldsTable.flushed durable.chronological
      (live.holds.memtables mt (by simp [DB.memtables, oldest])) built
    refine ⟨durable.putTable tableHolds, sized.congr (fun _ mem => mem) ⟨_, active⟩
      sized.counter, live.withFlusher rfl (by rw [stage]; rfl) rfl ?_⟩
    exact ⟨⟨newer, mt, oldest, (flushTable_id built).symm⟩, ExtTreeMap.getElem?_insert_self,
      tableHolds⟩
  | add stage =>
    rw [stage] at holds
    have notSwapped : p.flusher.swappedID = none := by rw [stage]; rfl
    refine ⟨?_, sized.congr (fun _ mem => mem) ⟨_, active⟩ sized.counter,
      live.withFlusher rfl notSwapped rfl ⟨holds, ?_⟩⟩
    · exact durable.addSSTable holds.onDisk holds.holds
        (fun log isLog => holds.id_le live notSwapped isLog) ⟨_, active, holds.id_lt live⟩
    · exact ExtTreeMap.mem_insert_self
  | load stage =>
    rw [stage] at holds
    refine ⟨durable, sized, live.withFlusher rfl (by rw [stage]; rfl) rfl ?_⟩
    exact ⟨holds.1, holds.2, live.nextMemID_le, fun id _ entry logged => live.seq_le logged⟩
  | @record table nextMemID nextSeq stage =>
    rw [stage] at holds
    rcases holds with ⟨flushing, added, bound, ahead⟩
    refine ⟨durable.updateNextIDs ahead, sized.congr (fun _ mem => mem) ⟨_, active⟩ bound,
      live.withFlusher rfl (by rw [stage]; rfl) rfl ?_⟩
    exact ⟨flushing, added, ahead table.id added⟩
  | swap stage => exact ⟨durable, sized, live.installFlushed stage⟩
  | clean stage =>
    rcases live.removeWAL durable stage with ⟨durable', live'⟩
    exact ⟨durable', sized.congr (fun _ mem => ExtTreeMap.mem_of_mem_erase mem)
      ⟨_, live'.active_log⟩ sized.counter, live'⟩

end Live

/-! ## Every run -/

namespace Store

variable {opts : Options} {s next : Store}

/-- No compaction, and writes that fit the formats. -/
def FlushOnly (s : Store) : StoreAction → Prop
  | .begin ops => ∀ p ∈ s.process, Writable p.db.nextSeq ops
  | .allocate => False
  | .compact _ => False
  | _ => True

instance (s : Store) : (a : StoreAction) → Decidable (s.FlushOnly a)
  | .begin _ => inferInstanceAs (Decidable (∀ p ∈ s.process, _))
  | .allocate | .compact _ => .isFalse id
  | .append | .rotate | .flush | .crash | .reopen _ => .isTrue trivial

/-- What every run without compactions keeps. -/
structure Lasting (s : Store) : Prop where
  durable : s.disk.Durable s.history
  sized : s.disk.Sized s.history
  live : ∀ p, s.process = some p → Live s.history s.disk p

theorem init_lasting : init.Lasting := by
  constructor
  · constructor
    · exact ⟨List.Pairwise.nil, forall_mem_nil _, forall_mem_nil _⟩
    · exact ManifestContents.empty_named
    · intro id data found
      simp [init, Disk.empty] at found
    · intro id info found
      simp [init, Disk.empty, ManifestContents.empty] at found
    · exact fun _ _ mem => absurd mem not_mem_nil
    · intro table mem
      simp [init, Disk.empty, ManifestContents.empty] at mem
    · intro table mem
      simp [init, Disk.empty, ManifestContents.empty] at mem
  · constructor
    · exact forall_mem_nil _
    · intro id mem
      simp [init, Disk.empty] at mem
    · exact Nat.zero_le _
    · exact fun _ => rfl
  · exact fun _ running => absurd running.symm (Option.some_ne_none _)

theorem lasting_of_live {disk : Disk} {p : Process} {history : History}
    (durable : disk.Durable history) (sized : disk.Sized history) (live : Live history disk p) :
    (⟨disk, some p, history⟩ : Store).Lasting := by
  refine ⟨durable, sized, ?_⟩
  intro q running
  cases running
  exact live

theorem Lasting.step (lasting : s.Lasting) {a : StoreAction} (ok : s.FlushOnly a)
    (stepped : s.step opts a = some next) : next.Lasting := by
  rcases lasting with ⟨durable, sized, isLive⟩
  cases stepped_of_step stepped with
  | begin running began =>
    exact lasting_of_live durable sized ((isLive _ running).begin (ok _ running) began)
  | append running stage =>
    have live := isLive _ running
    rcases live.append durable stage opts with ⟨durable', live'⟩
    exact lasting_of_live durable' (live.sized_append sized stage) live'
  | rotate running stage =>
    rcases (isLive _ running).rotate durable sized stage with ⟨durable', sized', live'⟩
    exact lasting_of_live durable' sized' live'
  | flush running flushes =>
    rcases (isLive _ running).flush durable sized flushes with ⟨durable', sized', live'⟩
    exact lasting_of_live durable' sized' live'
  | allocate running allocated => cases ok
  | compact running compacts => cases ok
  | crash => exact ⟨durable, sized, fun p running => absurd running.symm (Option.some_ne_none p)⟩
  | @reopen sorter db disk down opened =>
    rcases durable.opened sized opts sorter with ⟨_, _, isOpened, durable', sized', live'⟩
    cases opened.symm.trans isOpened
    exact lasting_of_live durable' sized' live'

/-- Whenever the process crashes in a run without compactions, `Open` returns an
engine that reads what the history of acknowledged versions demands, and whose
counter is not behind any version. -/
theorem flushOnly_durable (reached : Reached (step opts) FlushOnly init s)
    (free : PrefixFree s.history.versions) (sorter : Sorter SSTableInfo.firstKey) :
    ∃ db disk, openDB opts sorter s.disk = .ok (db, disk) ∧
      (∀ user maxSeq, NewestAt s.history.versions user maxSeq (db.getAt user maxSeq)) ∧
      (∀ entry, entry ∈ db.entries ↔ entry ∈ s.history.versions) ∧
      ∀ entry ∈ db.entries, entry.seq ≤ db.nextSeq := by
  have lasting : s.Lasting := reached.invariant Lasting init_lasting fun lasting ok stepped =>
    lasting.step ok stepped
  rcases lasting.durable.opened lasting.sized opts sorter with ⟨db, disk, opened, _, _, live⟩
  refine ⟨db, disk, opened, ?_, live.holds.mem_entries, ?_⟩
  · exact live.holds.getAt_newestAt lasting.durable.chronological free
  intro entry entryMem
  rcases History.mem_versions.mp ((live.holds.mem_entries entry).mp entryMem) with ⟨id, logged⟩
  exact live.seq_le logged

/-- A key is written twice.  The first version is flushed, with a crash after its
table has been recorded; the second one is in the log when the process crashes
again. -/
def crashesWhileFlushing : List StoreAction :=
  [.reopen (.insertion _)] ++ putActions 97 49 ++ [.rotate, .flush, .flush, .crash,
    .reopen (.insertion _)] ++ flushActions ++ putActions 97 50 ++ [.crash]

theorem crashesWhileFlushing_durable :
    ∃ s db disk, Reached (step eagerOptions) FlushOnly init s ∧
      PrefixFree s.history.versions ∧ s.history.versions.length = 2 ∧
      openDB eagerOptions (.insertion _) s.disk = .ok (db, disk) ∧
      ∀ user maxSeq, NewestAt s.history.versions user maxSeq (db.getAt user maxSeq) := by
  have evaluated : ∃ s ∈ runAllowed (step eagerOptions) FlushOnly init crashesWhileFlushing,
      PrefixFree s.history.versions ∧ s.history.versions.length = 2 := by
    decide +kernel
  rcases Reached.of_evaluated evaluated with ⟨s, reached, free, two⟩
  rcases flushOnly_durable reached free (.insertion _) with ⟨db, disk, opened, reads, _⟩
  exact ⟨s, db, disk, reached, free, two, opened, reads⟩

end Store

end Theseon
