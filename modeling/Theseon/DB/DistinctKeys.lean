import Theseon.Compaction.KeyOrder
import Theseon.DB.FreshIdentifiers
import Theseon.Lib.Rearrange

/-!
# Versions held once

A running engine holds no internal key twice: writes draw new numbers, a flush
exchanges a memtable for a table of the same keys, and a compaction exchanges its
inputs for tables of their keys.  `Open` takes what it finds.  After a crash between
`AddSSTable` and the removal of the log, or among the records of a compaction, it
finds versions twice, and the next compaction of them fails.
-/

namespace Theseon

open Lib KV SSTable Compaction Manifest Iterator List

def Memtable.keys (m : Memtable) : List Bytes :=
  m.entries.map Entry.key

/-- The internal keys of a table. -/
def SSTable.Reader.keys (r : Reader) : List Bytes :=
  r.entries.map Entry.key

theorem map_key_entriesOf (tables : List Reader) :
    (tables.flatMap Reader.entries).map Entry.key = tables.flatMap Reader.keys :=
  map_flatMap

namespace DB

/-- The internal keys of all memtables and tables. -/
def keys (db : DB) : List Bytes :=
  db.memtables.flatMap Memtable.keys ++ db.tables.flatMap Reader.keys

variable {db : DB}

theorem keys_foldl_insert (versions : List Entry) :
    (versions.foldl insert db).keys.Perm (versions.map Entry.key ++ db.keys) := by
  rw [foldl_insert, keys, keys, memtables, memtables, flatMap_cons, flatMap_cons]
  have put := (Memtable.foldl_put_perm db.active versions).map Entry.key
  rw [map_append] at put
  simp only [append_assoc]
  rw [← append_assoc (versions.map Entry.key)]
  exact put.append_right _

/-- A memtable is exchanged for a table of its keys. -/
theorem keys_installFlushed {newer : List Memtable} {mt : Memtable} {table : Reader}
    (oldest : db.immutables = newer ++ [mt]) (same : table.keys = mt.keys) :
    (db.installFlushed table).keys.Perm db.keys := by
  have moved : (db.installFlushed table).keys =
      (db.active :: newer).flatMap Memtable.keys ++ (mt.keys ++ db.tables.flatMap Reader.keys) := by
    rw [keys, ← same]
    simp [installFlushed, memtables, tables, oldest]
  rw [moved, keys, memtables, oldest]
  simp

/-! ## Compactions -/

variable {task : CompactionTask} {sorter : Sorter Reader.firstKey} {newTables : List Reader}

/-- The inputs are taken out of a level. -/
theorem append_keepLive_subperm {taken level : List Reader} (sub : taken.Sublist level)
    (inputs : taken ⊆ task.allInputs) : (taken ++ keepLive task level).Subperm level := by
  apply append_filter_subperm sub
  intro r rMem
  simp only [decide_eq_false_iff_not, not_not]
  exact mem_map_of_mem (inputs rMem)

variable {i : Nat}

theorem drop_set_levels (positive : 0 < i) (exchanged : List Reader) :
    (db.levels.set i exchanged).drop 1 = (db.levels.drop 1).set (i - 1) exchanged := by
  rw [drop_set, if_neg (by omega)]

theorem getD_drop_levels (positive : 0 < i) : (db.levels.drop 1).getD (i - 1) [] = db.level i := by
  rw [level, getD_eq_getElem?_getD, getElem?_drop, Nat.add_sub_cancel' positive,
    getD_eq_getElem?_getD]

/-- A level below L0 is exchanged. -/
theorem tables_set_perm (positive : 0 < i) (within : i < db.levels.length)
    (exchanged : List Reader) :
    (({ db with levels := db.levels.set i exchanged } : DB).tables ++ db.level i).Perm
      (db.tables ++ exchanged) := by
  rw [tables, tables, drop_set_levels positive, append_assoc, append_assoc,
    ← getD_drop_levels positive]
  exact (flatten_set_perm (by rw [length_drop]; omega) exchanged).append_left db.l0

theorem removeInputs_subperm (located : Located db.buildLevelState task) :
    (task.inputs ++ (db.removeInputs task).tables).Subperm db.tables := by
  have inputs : task.inputs ⊆ task.allInputs := subset_append_left _ _
  have sub := located.inputs
  rw [removeInputs]
  split at sub
  · rename_i isL0
    rw [if_pos isL0, tables, tables, ← append_assoc]
    exact (subperm_append_right _).mpr (append_keepLive_subperm sub inputs)
  rename_i positive
  rw [if_neg positive]
  split
  · rename_i within
    have exchanged := tables_set_perm (Nat.pos_of_ne_zero positive) within
      (keepLive task (db.level task.inputLevel))
    have took := append_keepLive_subperm sub inputs
    have taken := subperm_of_exchange (by rwa [append_nil]) took
    rwa [append_nil] at taken
  rename_i outside
  change task.inputs.Sublist (db.level task.inputLevel) at sub
  rw [level_eq_nil outside] at sub
  rw [sublist_nil.mp sub, nil_append]

theorem installOutputs_subperm (below : 0 < task.outputLevel)
    (sub : task.overlapping.Sublist (db.level task.outputLevel)) :
    (task.overlapping ++ (db.installOutputs sorter task newTables).tables).Subperm
      (db.tables ++ newTables) := by
  rw [installOutputs]
  split
  · rename_i within
    have exchanged := tables_set_perm below within
      (sorter.sort (keepLive task (db.level task.outputLevel) ++ newTables))
    have sorted :=
      (sorter.perm (keepLive task (db.level task.outputLevel) ++ newTables)).append_left
      db.tables
    exact subperm_of_exchange (exchanged.trans sorted)
      (append_keepLive_subperm sub (subset_append_right _ _))
  rename_i outside
  rw [level_eq_nil outside] at sub
  rw [sublist_nil.mp sub, nil_append]
  exact (sublist_append_left _ _).subperm

/-- A compaction exchanges its inputs for its outputs. -/
theorem applyCompactionResult_subperm (located : Located db.buildLevelState task) :
    (task.allInputs ++ (db.applyCompactionResult sorter task newTables).tables).Subperm
      (db.tables ++ newTables) := by
  have overlapping : task.overlapping.Sublist (db.level task.outputLevel) := located.overlapping
  rw [← level_removeInputs located.different] at overlapping
  have installed : (task.overlapping ++
      (db.applyCompactionResult sorter task newTables).tables).Subperm
        ((db.removeInputs task).tables ++ newTables) :=
    installOutputs_subperm located.below overlapping
  rw [CompactionTask.allInputs, append_assoc]
  apply ((subperm_append_left task.inputs).mpr installed).trans
  rw [← append_assoc]
  exact (subperm_append_right newTables).mpr (removeInputs_subperm located)

/-- What the outputs hold of the inputs is held no more often afterwards. -/
theorem flatMap_applyCompactionResult {β : Type} {f : Reader → List β}
    (located : Located db.buildLevelState task)
    (outputs : (newTables.flatMap f).Subperm (task.allInputs.flatMap f)) :
    ((db.applyCompactionResult sorter task newTables).tables.flatMap f).Subperm
      (db.tables.flatMap f) := by
  have moved := subperm_flatMap (@applyCompactionResult_subperm db task sorter newTables located) f
  rw [flatMap_append, flatMap_append] at moved
  apply (subperm_append_left (task.allInputs.flatMap f)).mp
  apply moved.trans
  apply ((subperm_append_left _).mpr outputs).trans
  exact perm_append_comm.subperm

/-- A compaction whose outputs hold keys of its inputs holds no new keys. -/
theorem keys_applyCompactionResult (located : Located db.buildLevelState task)
    (outputs : (newTables.flatMap Reader.keys).Subperm (task.allInputs.flatMap Reader.keys)) :
    (db.applyCompactionResult sorter task newTables).keys.Subperm db.keys := by
  rw [keys, keys, memtables_applyCompactionResult]
  exact (subperm_append_left _).mpr (flatMap_applyCompactionResult located outputs)

end DB

/-- The outputs of a compaction hold keys of its inputs, each once more. -/
theorem keys_of_execute {opts : ExecuteOptions} {task : CompactionTask} {newTables : List Reader}
    (wf : ∀ r ∈ task.allInputs, r.WellFormed) (done : execute opts task = .ok newTables) :
    (newTables.flatMap Reader.keys).Subperm (task.allInputs.flatMap Reader.keys) := by
  have perm := (execute_eq_ok wf done).1.map Entry.key
  rw [map_key_entriesOf] at perm
  have sub := task.readable_sublist.map Entry.key
  rw [map_key_entriesOf] at sub
  exact perm.subperm.trans sub.subperm

/-! ## A running engine -/

/-- The table that a flush has built and not yet installed. -/
def Flusher.table : Flusher → Option Reader
  | idle => none
  | built table => some table
  | added table => some table
  | loaded table _ _ => some table
  | recorded table => some table
  | swapped _ => none

def Compactor.task : Compactor → Option CompactionTask
  | idle => none
  | executing task _ => some task
  | recording task _ _ => some task
  | loaded task _ _ _ => some task
  | recorded task _ => some task

/-- The tables that a compaction has written. -/
def Compactor.newTables : Compactor → List Reader
  | idle => []
  | executing _ _ => []
  | recording _ newTables _ => newTables
  | loaded _ newTables _ _ => newTables
  | recorded _ newTables => newTables

/-- No version that is held has a number above this. -/
def Process.floor (p : Process) : Nat :=
  match p.writer with
  | .logging seq _ => seq
  | .idle => p.db.nextSeq
  | .rotating => p.db.nextSeq

/-- What a running engine keeps once it holds no internal key twice. -/
structure HoldsOnce (p : Process) : Prop where
  once : p.db.keys.Nodup
  bounded : ∀ key ∈ p.db.keys, seqNum key ≤ p.floor
  drawn : ∀ seq ops, p.writer = .logging seq ops →
    p.db.nextSeq = seq + ops.length ∧ seq + ops.length ≤ maxSeqNum
  long : ∀ m ∈ p.db.memtables, ∀ entry ∈ m.entries, entry.Long
  tables : ∀ r ∈ p.db.tables, r.WellFormed ∧ r.Healthy
  flushed : ∀ table, p.flusher.table = some table → (table.WellFormed ∧ table.Healthy) ∧
    ∃ newer mt, p.db.immutables = newer ++ [mt] ∧ table.keys = mt.keys
  located : ∀ task, p.compactor.task = some task → Located p.db.buildLevelState task ∧
    (p.compactor.newTables.flatMap Reader.keys).Subperm (task.allInputs.flatMap Reader.keys)
  outputs : ∀ r ∈ p.compactor.newTables, r.WellFormed ∧ r.Healthy

namespace HoldsOnce

variable {opts : Options} {disk disk' : Disk} {p p' : Process}

section

variable (held : HoldsOnce p)

include held

theorem begin {ops : List BatchOp} (fits : p.db.nextSeq + ops.length ≤ maxSeqNum)
    (began : p.begin opts ops = some p') : HoldsOnce p' := by
  rcases Option.ite_none_right_eq_some.mp began with ⟨⟨idle, _⟩, ⟨⟩⟩
  have floor : p.floor = p.db.nextSeq := by
    cases stage : p.writer with
    | idle => rw [Process.floor, stage]
    | logging seq ops =>
      rw [stage] at idle
      cases idle
    | rotating => rw [Process.floor, stage]
  refine { held with bounded := ?_, drawn := ?_ }
  · intro key mem
    rw [← floor]
    exact held.bounded key mem
  · rintro _ _ ⟨⟩
    exact ⟨addUint64_eq fits, fits⟩

/-- The versions of a write have numbers of their own. -/
theorem appended {seq : Nat} {ops : List BatchOp} (stage : p.writer = .logging seq ops) :
    HoldsOnce (p.applied opts (stamp seq ops)) := by
  rcases held.drawn seq ops stage with ⟨counter, fits⟩
  have below : ∀ key ∈ p.db.keys, seqNum key ≤ seq := by
    intro key mem
    have bounded := held.bounded key mem
    rwa [Process.floor, stage] at bounded
  have perm : (p.applied opts (stamp seq ops)).db.keys.Perm
      ((stamp seq ops).map Entry.key ++ p.db.keys) := DB.keys_foldl_insert _
  have dbEq : (p.applied opts (stamp seq ops)).db =
      { p.db with
        active :=
          (stamp seq ops).foldl (fun m entry => m.put entry.key entry.value) p.db.active } :=
    DB.foldl_insert p.db (stamp seq ops)
  have counterEq : ((stamp seq ops).foldl DB.insert p.db).nextSeq = p.db.nextSeq := by
    rw [DB.foldl_insert]
  have floor : (p.applied opts (stamp seq ops)).floor = seq + ops.length := by
    rw [← counter, Process.floor, Process.applied]
    simp only
    split
    · rename_i contradictory
      split at contradictory
      · cases contradictory
      · cases contradictory
    · exact counterEq
    · exact counterEq
  constructor
  · apply perm.nodup_iff.mpr
    apply nodup_append.mpr
    refine ⟨?_, held.once, ?_⟩
    · rw [List.Nodup, pairwise_map]
      exact (stamp_pairwise fits).imp fun below same =>
        absurd (congrArg seqNum same) (ne_of_lt below)
    rintro key isNew _ isOld rfl
    rcases mem_map.mp isNew with ⟨entry, entryMem, rfl⟩
    exact absurd (below _ isOld) (not_le.mpr (seq_of_mem_stamp fits entryMem).1)
  · intro key mem
    rw [floor]
    rcases mem_append.mp (perm.mem_iff.mp mem) with isNew | isOld
    · rcases mem_map.mp isNew with ⟨entry, entryMem, rfl⟩
      exact (seq_of_mem_stamp fits entryMem).2
    · exact le_trans (below key isOld) (Nat.le_add_right _ _)
  · intro seq' ops' logging
    rw [Process.applied] at logging
    simp only at logging
    split at logging
    · cases logging
    · cases logging
  · intro m mMem entry entryMem
    rw [dbEq] at mMem
    rcases mem_cons.mp mMem with rfl | isImmutable
    · rcases Memtable.mem_foldl_put.mp entryMem with isNew | isOld
      · exact long_of_mem_stamp isNew
      · exact held.long p.db.active mem_cons_self entry isOld
    · exact held.long m (mem_cons_of_mem _ isImmutable) entry entryMem
  · rw [dbEq]
    exact held.tables
  · rw [dbEq]
    exact held.flushed
  · rw [dbEq]
    exact held.located
  · exact held.outputs

theorem rotated (stage : p.writer = .rotating) :
    HoldsOnce { p with db := p.db.rotateMemtable, writer := .idle } := by
  refine { held with
    bounded := ?_
    drawn := fun _ _ logging => nomatch logging
    long := ?_
    flushed := ?_ }
  · intro key mem
    have bounded := held.bounded key mem
    rwa [Process.floor, stage] at bounded
  · intro m mMem entry entryMem
    rcases mem_cons.mp mMem with rfl | older
    · cases entryMem
    rcases mem_cons.mp older with rfl | isImmutable
    · exact held.long p.db.active mem_cons_self entry entryMem
    · exact held.long m (mem_cons_of_mem _ isImmutable) entry entryMem
  · intro table isTable
    rcases held.flushed table isTable with ⟨sound, newer, mt, oldest, same⟩
    refine ⟨sound, p.db.active.freeze :: newer, mt, ?_, same⟩
    change p.db.active.freeze :: p.db.immutables = _
    rw [oldest]
    rfl

theorem allocated (stepped : p.allocate = some p') : HoldsOnce p' := by
  rw [Process.allocate] at stepped
  split at stepped
  · rename_i task ids stage
    rcases Option.ite_none_right_eq_some.mp stepped with ⟨_, ⟨⟩⟩
    refine { held with located := ?_, outputs := forall_mem_nil _ }
    rintro _ ⟨⟩
    exact ⟨(held.located task (by rw [stage]; rfl)).1, nil_subperm⟩
  · cases stepped

/-- The flusher moves on and has the same table, or none. -/
theorem flusherMoved {flusher : Flusher}
    (flushed : ∀ table, flusher.table = some table → p.flusher.table = some table) :
    HoldsOnce { p with flusher := flusher } :=
  { held with flushed := fun table isTable => held.flushed table (flushed table isTable) }

theorem flushes (step : Flushes opts disk p disk' p') : HoldsOnce p' := by
  cases step with
  | @build newer mt table stage oldest built =>
    have mtMem : mt ∈ p.db.memtables := by simp [DB.memtables, oldest]
    rcases flushTable_eq_ok (held.long mt mtMem) built with ⟨contents, sound⟩
    refine { held with flushed := ?_ }
    rintro _ ⟨⟩
    refine ⟨sound, newer, mt, oldest, ?_⟩
    rw [Reader.keys, contents, map_map]
    rfl
  | add stage => exact held.flusherMoved fun table isTable => by rw [stage]; exact isTable
  | load stage => exact held.flusherMoved fun table isTable => by rw [stage]; exact isTable
  | record stage => exact held.flusherMoved fun table isTable => by rw [stage]; exact isTable
  | @swap table stage =>
    have isTable : p.flusher.table = some table := by rw [stage]; rfl
    rcases held.flushed table isTable with ⟨sound, newer, mt, oldest, same⟩
    have perm := DB.keys_installFlushed oldest same
    constructor
    · exact perm.nodup_iff.mpr held.once
    · exact fun key mem => held.bounded key (perm.mem_iff.mp mem)
    · exact held.drawn
    · intro m mMem
      rcases mem_cons.mp mMem with rfl | isImmutable
      · exact held.long p.db.active mem_cons_self
      · exact held.long m (mem_cons_of_mem _ (mem_of_mem_dropLast isImmutable))
    · intro r rMem
      rcases mem_cons.mp rMem with rfl | old
      · exact sound
      · exact held.tables r old
    · rintro _ ⟨⟩
    · intro task isTask
      rcases held.located task isTask with ⟨located, outputs⟩
      refine ⟨⟨?_, located.overlapping, located.different, located.below⟩, outputs⟩
      have inputs := located.inputs
      split
      · rename_i isL0
        rw [if_pos isL0] at inputs
        exact inputs.trans (sublist_cons_self _ _)
      rename_i positive
      rw [if_neg positive] at inputs
      exact inputs
    · exact held.outputs
  | clean stage =>
    apply held.flusherMoved
    rintro table ⟨⟩

/-- The compactor moves on with the same task and the same tables. -/
theorem compactorMoved {compactor : Compactor}
    (located : ∀ task, compactor.task = some task → Located p.db.buildLevelState task ∧
      (compactor.newTables.flatMap Reader.keys).Subperm (task.allInputs.flatMap Reader.keys))
    (outputs : ∀ r ∈ compactor.newTables, r.WellFormed ∧ r.Healthy) :
    HoldsOnce { p with compactor := compactor } :=
  { held with located := located, outputs := outputs }

theorem compacts {sorter : Sorter Reader.firstKey} (step : Compacts opts sorter disk p disk' p') :
    HoldsOnce p' := by
  have same : ∀ compactor : Compactor, p.compactor.task = compactor.task →
      p.compactor.newTables = compactor.newTables →
        HoldsOnce { p with compactor := compactor } := by
    intro compactor sameTask sameTables
    apply held.compactorMoved
    · rw [← sameTask, ← sameTables]
      exact held.located
    · rw [← sameTables]
      exact held.outputs
  cases step with
  | @pick task stage picked =>
    apply held.compactorMoved
    · rintro _ ⟨⟩
      exact ⟨located_of_picked (picked_of_pickCompaction picked).1, nil_subperm⟩
    · exact forall_mem_nil _
  | abandon stage =>
    apply held.compactorMoved
    · rintro _ ⟨⟩
    · exact forall_mem_nil _
  | @write task ids newTables stage done count =>
    have located := (held.located task (by rw [stage]; rfl)).1
    have wf : ∀ r ∈ task.allInputs, r.WellFormed :=
      fun r rMem => (held.tables r (DB.mem_tables_of_located located rMem)).1
    apply held.compactorMoved
    · rintro _ ⟨⟩
      exact ⟨located, keys_of_execute wf done⟩
    · exact (execute_eq_ok wf done).2.2.1
  | call stage =>
    apply same
    · rw [stage]
      rfl
    · rw [stage]
      rfl
  | load stage =>
    apply same
    · rw [stage]
      rfl
    · rw [stage]
      rfl
  | record stage =>
    apply same
    · rw [stage]
      rfl
    · rw [stage]
      rfl
  | @apply task newTables stage =>
    have isTask : p.compactor.task = some task := by rw [stage]; rfl
    have tablesEq : p.compactor.newTables = newTables := by rw [stage]; rfl
    rcases held.located task isTask with ⟨located, outputs⟩
    rw [tablesEq] at outputs
    rcases @DB.keys_applyCompactionResult p.db task sorter newTables located outputs with
      ⟨kept, perm, sub⟩
    have counter := (@DB.counters_applyCompactionResult p.db task sorter newTables).2
    have memtables := @DB.memtables_applyCompactionResult p.db task sorter newTables
    have immutables := (cons.inj memtables).2
    constructor
    · exact perm.nodup_iff.mp (held.once.sublist sub)
    · intro key mem
      have bounded := held.bounded key (sub.subset (perm.mem_iff.mpr mem))
      unfold Process.floor at bounded ⊢
      simp only [counter]
      exact bounded
    · simp only [counter]
      exact held.drawn
    · simp only [memtables]
      exact held.long
    · intro r rMem
      rcases DB.mem_tables_of_applyCompactionResult rMem with old | isNew
      · exact held.tables r old
      · exact held.outputs r (tablesEq ▸ isNew)
    · simp only [immutables]
      exact held.flushed
    · rintro _ ⟨⟩
    · exact forall_mem_nil _

end

end HoldsOnce

end Theseon
