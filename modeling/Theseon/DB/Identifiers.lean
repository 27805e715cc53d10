import Theseon.DB.Compacted
import Theseon.DB.Store

/-!
# Identifiers across crashes

Memtables, write-ahead logs, flushed tables and the outputs of compactions draw
their identifiers from one counter.  After a crash the counter is the maximum of
the last one recorded in the manifest and the identifiers of the logs.  The
outputs of a compaction are in the manifest before a counter above them is, so a
crash in between lets the counter fall behind them.

A running engine hands out identifiers that are not in use, if its counter is not
behind any of them; all its steps keep it so.
-/

namespace Theseon

open Std List
open Lib KV SSTable Compaction Manifest

/-! ## Identifiers in use -/

/-- The identifier of the table that is being flushed. -/
def Flusher.tableID : Flusher → Option Nat
  | idle => none
  | built table => some table.id
  | added table => some table.id
  | loaded table _ _ => some table.id
  | recorded table => some table.id
  | swapped _ => none

/-- The identifier of the table that a manifest call adds. -/
def addedID : Manifest.Call → Option Nat
  | .addSSTable info => some info.id
  | .removeSSTable _ _ => none
  | .updateNextIDs _ _ => none
  | .addHNSWSnapshot _ => none

namespace Compactor

/-- The identifiers drawn for the outputs. -/
def drawn : Compactor → List Nat
  | idle => []
  | executing _ ids => ids
  | recording _ newTables _ => newTables.map Reader.id
  | loaded _ newTables _ _ => newTables.map Reader.id
  | recorded _ newTables => newTables.map Reader.id

/-- The identifiers of the outputs that are not in the manifest yet. -/
def pending : Compactor → List Nat
  | idle => []
  | executing _ ids => ids
  | recording _ _ calls => calls.filterMap addedID
  | loaded _ _ _ _ => []
  | recorded _ _ => []

end Compactor

/-- The identifier belongs to a log, a memtable or the table that is being
flushed. -/
inductive Held (disk : Disk) (p : Process) : Nat → Prop where
  | wal {id : Nat} (mem : id ∈ disk.wals) : Held disk p id
  | memtable {m : Memtable} (mem : m ∈ p.db.memtables) : Held disk p m.id
  | flushing {id : Nat} (flushed : p.flusher.tableID = some id) : Held disk p id

/-- The identifier is held, or belongs to a table of the manifest or of the
process. -/
inductive Taken (disk : Disk) (p : Process) : Nat → Prop where
  | manifest {id : Nat} (mem : id ∈ disk.manifest.tables) : Taken disk p id
  | table {r : Reader} (mem : r ∈ p.db.tables) : Taken disk p r.id
  | held {id : Nat} (isHeld : Held disk p id) : Taken disk p id

/-! ## The invariant -/

/-- The counter of the process is not behind any identifier in use, and the
outputs of a compaction keep theirs to themselves. -/
structure Numbered (disk : Disk) (p : Process) : Prop where
  bound : ∀ id, Taken disk p id → id ≤ p.db.nextMemID
  drawn : ∀ id ∈ p.compactor.drawn, id ≤ p.db.nextMemID
  known : ∀ id ∈ p.compactor.pending, id ∈ p.compactor.drawn
  unused : ∀ id ∈ p.compactor.pending, ¬ Taken disk p id
  distinct : p.compactor.pending.Nodup
  deep : ∀ id info, disk.manifest.tables[id]? = some info → info.level ≠ 0 → ¬ Held disk p id

namespace Numbered

variable {disk disk' : Disk} {p p' : Process}

/-- Steps that hand out no identifier.  The manifest may get the table that is
being flushed and outputs that are not pending any more. -/
theorem mono (numbered : Numbered disk p) (counter : p'.db.nextMemID = p.db.nextMemID)
    (held : ∀ id, Held disk' p' id → Held disk p id)
    (manifest : ∀ id info, disk'.manifest.tables[id]? = some info →
      disk.manifest.tables[id]? = some info ∨ info.level = 0 ∧ Held disk p id ∨
        id ∈ p.compactor.pending ∧ id ∉ p'.compactor.pending)
    (tables : ∀ r ∈ p'.db.tables,
      Taken disk p r.id ∨ r.id ∈ p.compactor.drawn ∧ r.id ∉ p'.compactor.pending)
    (drawn : p'.compactor.drawn ⊆ p.compactor.drawn)
    (known : p'.compactor.pending ⊆ p'.compactor.drawn)
    (pending : p'.compactor.pending.Sublist p.compactor.pending) : Numbered disk' p' := by
  have taken : ∀ id, Taken disk' p' id →
      Taken disk p id ∨ id ∈ p.compactor.drawn ∧ id ∉ p'.compactor.pending := by
    intro id isTaken
    cases isTaken with
    | manifest mem =>
      rcases mem_iff_get?.mp mem with ⟨info, found⟩
      rcases manifest id info found with old | ⟨_, isHeld⟩ | ⟨wasPending, settled⟩
      · exact .inl (.manifest (mem_iff_get?.mpr ⟨_, old⟩))
      · exact .inl (.held isHeld)
      · exact .inr ⟨numbered.known id wasPending, settled⟩
    | table mem => exact tables _ mem
    | held isHeld => exact .inl (.held (held id isHeld))
  constructor
  · intro id isTaken
    rw [counter]
    rcases taken id isTaken with before | ⟨isDrawn, _⟩
    · exact numbered.bound id before
    · exact numbered.drawn id isDrawn
  · intro id isDrawn
    rw [counter]
    exact numbered.drawn id (drawn isDrawn)
  · exact fun id isPending => known isPending
  · intro id isPending isTaken
    rcases taken id isTaken with before | ⟨_, settled⟩
    · exact numbered.unused id (pending.subset isPending) before
    · exact settled isPending
  · exact numbered.distinct.sublist pending
  · intro id info found isDeep isHeld
    rcases manifest id info found with old | ⟨isL0, _⟩ | ⟨wasPending, _⟩
    · exact numbered.deep id info old isDeep (held id isHeld)
    · exact isDeep isL0
    · exact numbered.unused id wasPending (.held (held id isHeld))

/-- Steps that do not concern the compactor. -/
theorem same (numbered : Numbered disk p) (counter : p'.db.nextMemID = p.db.nextMemID)
    (compactor : p'.compactor = p.compactor) (held : ∀ id, Held disk' p' id → Held disk p id)
    (manifest : ∀ id info, disk'.manifest.tables[id]? = some info →
      disk.manifest.tables[id]? = some info ∨ info.level = 0 ∧ Held disk p id)
    (tables : ∀ r ∈ p'.db.tables, Taken disk p r.id) : Numbered disk' p' := by
  apply numbered.mono counter held
  · exact fun id info found => (manifest id info found).imp_right .inl
  · exact fun r rMem => .inl (tables r rMem)
  · rw [compactor]
    exact List.Subset.refl _
  · rw [compactor]
    exact fun id isPending => numbered.known id isPending
  · rw [compactor]

variable {opts : Options}

section

variable (numbered : Numbered disk p)

include numbered

theorem begin {ops : List BatchOp} (stepped : p.begin opts ops = some p') : Numbered disk p' := by
  rw [Process.begin] at stepped
  split at stepped
  · cases stepped
    refine numbered.same rfl rfl ?_ (fun _ _ => .inl) fun r rMem => .table rMem
    intro id isHeld
    cases isHeld with
    | wal mem => exact .wal mem
    | memtable mem => exact .memtable mem
    | flushing flushed => exact .flushing flushed
  · cases stepped

/-- A write appends to the log of the active memtable. -/
theorem appended (entries : List WAL.Entry) (versions : List Entry) :
    Numbered (disk.appendWAL p.db.active.id entries) (p.applied opts versions) := by
  have active : Held disk p p.db.active.id := .memtable mem_cons_self
  have dbEq : (p.applied opts versions).db =
      { p.db with
        active := versions.foldl (fun m entry => m.put entry.key entry.value) p.db.active } :=
    DB.foldl_insert p.db versions
  refine numbered.same ?_ rfl ?_ (fun _ _ => .inl) ?_
  · rw [dbEq]
  · intro id isHeld
    cases isHeld with
    | wal mem =>
      rcases mem_insert_key.mp mem with rfl | old
      · exact active
      · exact .wal old
    | memtable mem =>
      rw [dbEq] at mem
      rcases mem_cons.mp mem with rfl | isImmutable
      · rw [Memtable.foldl_put_id]
        exact active
      · exact .memtable (mem_cons_of_mem _ isImmutable)
    | flushing flushed => exact .flushing flushed
  · intro r rMem
    rw [dbEq] at rMem
    exact .table rMem

/-- A step of the flusher that leaves its table and the engine alone. -/
theorem flusherMoved {flusher : Flusher} (wals : ∀ id ∈ disk'.wals, id ∈ disk.wals)
    (flushing : ∀ id, flusher.tableID = some id → Held disk p id)
    (manifest : ∀ id info, disk'.manifest.tables[id]? = some info →
      disk.manifest.tables[id]? = some info ∨ info.level = 0 ∧ Held disk p id) :
    Numbered disk' { p with flusher := flusher } := by
  refine numbered.same rfl rfl ?_ manifest fun r rMem => .table rMem
  intro id isHeld
  cases isHeld with
  | wal mem => exact .wal (wals _ mem)
  | memtable mem => exact .memtable mem
  | flushing flushed => exact flushing _ flushed

theorem flush (flushes : Flushes opts disk p disk' p') : Numbered disk' p' := by
  cases flushes with
  | build stage oldest built =>
    refine numbered.flusherMoved (fun _ mem => mem) ?_ fun _ _ => .inl
    rintro id ⟨⟩
    rw [flushTable_id built]
    apply Held.memtable
    rw [DB.memtables, oldest]
    exact mem_cons_of_mem _ (mem_append_right _ mem_cons_self)
  | @add table stage =>
    have flushed : Held disk p table.id := .flushing (by rw [stage]; rfl)
    refine numbered.flusherMoved (fun _ mem => mem) ?_ ?_
    · rintro id ⟨⟩
      exact flushed
    exact forall_insert (fun _ _ => .inl) (.inr ⟨rfl, flushed⟩)
  | load stage =>
    refine numbered.flusherMoved (fun _ mem => mem) ?_ fun _ _ => .inl
    exact fun id flushed => .flushing (by rw [stage]; exact flushed)
  | record stage =>
    refine numbered.flusherMoved (fun _ mem => mem) ?_ fun _ _ => .inl
    exact fun id flushed => .flushing (by rw [stage]; exact flushed)
  | swap stage =>
    refine numbered.same rfl rfl ?_ (fun _ _ => .inl) ?_
    · intro id isHeld
      cases isHeld with
      | wal mem => exact .wal mem
      | memtable mem =>
        apply Held.memtable
        rcases mem_cons.mp mem with rfl | isImmutable
        · exact mem_cons_self
        · exact mem_cons_of_mem _ (mem_of_mem_dropLast isImmutable)
      | flushing flushed => cases flushed
    intro r rMem
    rcases mem_cons.mp rMem with rfl | old
    · exact .held (.flushing (by rw [stage]; rfl))
    · exact .table old
  | clean stage =>
    refine numbered.flusherMoved (fun _ mem => ExtTreeMap.mem_of_mem_erase mem) ?_ fun _ _ => .inl
    rintro id ⟨⟩

/-- A rotation takes the next identifier for its memtable and its log. -/
theorem rotated (room : p.db.nextMemID < maxSeqNum) (writer : Writer) :
    Numbered (disk.createWAL p.db.rotateMemtable.active.id)
      { p with db := p.db.rotateMemtable, writer := writer } := by
  have counter : p.db.rotateMemtable.nextMemID = p.db.nextMemID + 1 := addUint64_eq room
  have active : p.db.rotateMemtable.active.id = p.db.nextMemID + 1 := addUint64_eq room
  have held : ∀ id, Held (disk.createWAL p.db.rotateMemtable.active.id)
      { p with db := p.db.rotateMemtable, writer := writer } id →
        Held disk p id ∨ id = p.db.nextMemID + 1 := by
    intro id isHeld
    cases isHeld with
    | wal mem =>
      rcases mem_insert_key.mp mem with rfl | old
      · exact .inr active
      · exact .inl (.wal old)
    | memtable mem =>
      rcases mem_cons.mp mem with rfl | isImmutable
      · exact .inr active
      left
      rcases mem_cons.mp isImmutable with rfl | old
      · exact .memtable (m := p.db.active) mem_cons_self
      · exact .memtable (mem_cons_of_mem _ old)
    | flushing flushed => exact .inl (.flushing flushed)
  have taken : ∀ id, Taken (disk.createWAL p.db.rotateMemtable.active.id)
      { p with db := p.db.rotateMemtable, writer := writer } id →
        Taken disk p id ∨ id = p.db.nextMemID + 1 := by
    intro id isTaken
    cases isTaken with
    | manifest mem => exact .inl (.manifest mem)
    | table mem => exact .inl (.table mem)
    | held isHeld => exact (held id isHeld).imp_left .held
  constructor
  · intro id isTaken
    simp only [counter]
    rcases taken id isTaken with before | rfl
    · exact (numbered.bound id before).trans (Nat.le_succ _)
    · exact le_rfl
  · intro id isDrawn
    simp only [counter]
    exact (numbered.drawn id isDrawn).trans (Nat.le_succ _)
  · exact numbered.known
  · intro id isPending isTaken
    rcases taken id isTaken with before | rfl
    · exact numbered.unused id isPending before
    · have := numbered.drawn _ (numbered.known _ isPending)
      omega
  · exact numbered.distinct
  · intro id info found isDeep isHeld
    rcases held id isHeld with before | rfl
    · exact numbered.deep id info found isDeep before
    · have := numbered.bound _ (.manifest (mem_iff_get?.mpr ⟨_, found⟩))
      omega

/-- A compaction takes the next identifier for its next table. -/
theorem allocate (room : p.db.nextMemID < maxSeqNum) (stepped : p.allocate = some p') :
    Numbered disk p' := by
  have counter : addUint64 p.db.nextMemID 1 = p.db.nextMemID + 1 := addUint64_eq room
  rw [Process.allocate] at stepped
  split at stepped
  · rename_i task ids isExecuting
    split at stepped
    · cases stepped
      rcases numbered with ⟨bound, drawn, known, unused, distinct, deep⟩
      rw [isExecuting] at drawn known unused distinct
      simp only [counter]
      have held : ∀ {id db compactor}, db = { p.db with nextMemID := p.db.nextMemID + 1 } →
          Held disk { p with db := db, compactor := compactor } id → Held disk p id := by
        intro id db compactor dbEq isHeld
        subst dbEq
        cases isHeld with
        | wal mem => exact .wal mem
        | memtable mem => exact .memtable mem
        | flushing flushed => exact .flushing flushed
      have taken : ∀ {id db compactor}, db = { p.db with nextMemID := p.db.nextMemID + 1 } →
          Taken disk { p with db := db, compactor := compactor } id → Taken disk p id := by
        intro id db compactor dbEq isTaken
        subst dbEq
        cases isTaken with
        | manifest mem => exact .manifest mem
        | table mem => exact .table mem
        | held isHeld => exact .held (held rfl isHeld)
      constructor
      · intro id isTaken
        exact (bound id (taken rfl isTaken)).trans (Nat.le_succ _)
      · intro id isDrawn
        rcases mem_append.mp isDrawn with old | isNew
        · exact (drawn id old).trans (Nat.le_succ _)
        · exact (mem_singleton.mp isNew).le
      · exact fun id isPending => isPending
      · intro id isPending isTaken
        rcases mem_append.mp isPending with old | isNew
        · exact unused id old (taken rfl isTaken)
        have := bound id (taken rfl isTaken)
        have := mem_singleton.mp isNew
        omega
      · refine nodup_append.mpr ⟨distinct, nodup_singleton _, ?_⟩
        rintro id old other isNew rfl
        have := drawn id old
        have := mem_singleton.mp isNew
        omega
      · exact fun id info found isDeep isHeld => deep id info found isDeep (held rfl isHeld)
    · cases stepped
  · cases stepped

end

/-- The new tables of a compaction carry the identifiers that it has drawn. -/
theorem ids_of_execute {task : CompactionTask} {ids : List Nat} {newTables : List Reader}
    (done : execute (Process.executeOptions opts ids) task = .ok newTables)
    (count : newTables.length = ids.length) : newTables.map Reader.id = ids := by
  rw [execute_ids done, count]
  apply ext_getElem
  · simp
  · intro n _ within
    simp [Process.executeOptions, within]

theorem filterMap_addedID_manifestCalls (task : CompactionTask) (newTables : List Reader) :
    (manifestCalls task newTables).filterMap addedID = newTables.map Reader.id := by
  simp [manifestCalls, filterMap_append, filterMap_map, Function.comp_def, addedID,
    tableInfo]

/-- A step of the compactor that leaves the logs and the tables of the engine
alone. -/
theorem compactorMoved (numbered : Numbered disk p) {compactor : Compactor}
    (wals : disk'.wals = disk.wals)
    (manifest : ∀ id info, disk'.manifest.tables[id]? = some info →
      disk.manifest.tables[id]? = some info ∨
        id ∈ p.compactor.pending ∧ id ∉ compactor.pending)
    (drawn : compactor.drawn ⊆ p.compactor.drawn) (known : compactor.pending ⊆ compactor.drawn)
    (pending : compactor.pending.Sublist p.compactor.pending) :
    Numbered disk' { p with compactor := compactor } := by
  refine numbered.mono rfl ?_ (fun id info found => (manifest id info found).imp_right .inr)
    (fun r rMem => .inl (.table rMem)) drawn known pending
  intro id isHeld
  cases isHeld with
  | wal mem => exact .wal (wals ▸ mem)
  | memtable mem => exact .memtable mem
  | flushing flushed => exact .flushing flushed

/-- One call of `applyCompactionResult`. -/
theorem recorded (numbered : Numbered disk p) {task : CompactionTask} {newTables : List Reader}
    {c : Manifest.Call} {calls : List Manifest.Call}
    (recording : p.compactor = .recording task newTables (c :: calls)) :
    Numbered (disk.call c) { p with compactor := .recording task newTables calls } := by
  have pendingEq : p.compactor.pending = (c :: calls).filterMap addedID := by rw [recording]; rfl
  have drawnEq : p.compactor.drawn = newTables.map Reader.id := by rw [recording]; rfl
  have rest : (calls.filterMap addedID).Sublist p.compactor.pending := by
    rw [pendingEq]
    exact (sublist_cons_self c calls).filterMap _
  have known : calls.filterMap addedID ⊆ newTables.map Reader.id := by
    intro id isPending
    rw [← drawnEq]
    exact numbered.known id (rest.subset isPending)
  refine numbered.compactorMoved rfl ?_ ?_ known rest
  · cases c with
    | addSSTable added =>
      -- the output goes from pending to the manifest
      have pendingCons : p.compactor.pending = added.id :: calls.filterMap addedID := pendingEq
      have distinct := numbered.distinct
      rw [pendingCons, nodup_cons] at distinct
      exact forall_insert (fun _ _ => .inl) (.inr ⟨pendingCons ▸ mem_cons_self, distinct.1⟩)
    | removeSSTable removed level => exact forall_erase (fun _ _ => .inl) removed
    | updateNextIDs nextMemID nextSeq => exact fun _ _ => .inl
    | addHNSWSnapshot snapshot => exact fun _ _ => .inl
  · rw [drawnEq]
    exact List.Subset.refl _

/-- A step of the compactor that has no output pending. -/
theorem settled (numbered : Numbered disk p) {compactor : Compactor}
    (manifest : disk'.manifest.tables = disk.manifest.tables) (wals : disk'.wals = disk.wals)
    (drawn : compactor.drawn ⊆ p.compactor.drawn) (pending : compactor.pending = []) :
    Numbered disk' { p with compactor := compactor } := by
  refine numbered.compactorMoved wals ?_ drawn ?_ ?_
  · intro id info found
    rw [manifest] at found
    exact .inl found
  · rw [pending]
    exact nil_subset _
  · rw [pending]
    exact nil_sublist _

theorem compact (numbered : Numbered disk p) {sorter : Sorter Reader.firstKey}
    (compacts : Compacts opts sorter disk p disk' p') : Numbered disk' p' := by
  cases compacts with
  | pick stage picked => exact numbered.settled rfl rfl (nil_subset _) rfl
  | abandon stage => exact numbered.settled rfl rfl (nil_subset _) rfl
  | @write task ids newTables stage done count =>
    have drawnEq : p.compactor.drawn = newTables.map Reader.id := by
      rw [stage, ids_of_execute done count]
      rfl
    have pendingEq : p.compactor.pending = newTables.map Reader.id := by
      rw [stage, ids_of_execute done count]
      rfl
    have calls := filterMap_addedID_manifestCalls task newTables
    rw [Disk.foldl_putTable]
    refine numbered.compactorMoved rfl (fun _ _ => .inl) ?_ ?_ ?_
    · rw [drawnEq]
      exact List.Subset.refl _
    · intro id isPending
      change id ∈ (manifestCalls task newTables).filterMap addedID at isPending
      rwa [calls] at isPending
    · rw [pendingEq, ← calls]
      exact List.Sublist.refl _
  | call stage => exact numbered.recorded stage
  | load stage =>
    refine numbered.settled rfl rfl ?_ rfl
    rw [stage]
    exact List.Subset.refl _
  | record stage =>
    refine numbered.settled rfl rfl ?_ rfl
    rw [stage]
    exact List.Subset.refl _
  | @apply task newTables stage =>
    have drawnEq : p.compactor.drawn = newTables.map Reader.id := by
      rw [stage]
      rfl
    rw [Disk.foldl_removeTable]
    refine numbered.mono DB.counters_applyCompactionResult.1 ?_ (fun _ _ => .inl) ?_
      (nil_subset _) (nil_subset _) (nil_sublist _)
    · intro id isHeld
      cases isHeld with
      | wal mem => exact .wal mem
      | memtable mem => exact .memtable (DB.memtables_applyCompactionResult ▸ mem)
      | flushing flushed => exact .flushing flushed
    intro r rMem
    rcases DB.mem_tables_of_applyCompactionResult rMem with old | isNew
    · exact .inl (.table old)
    right
    rw [drawnEq]
    exact ⟨mem_map_of_mem isNew, not_mem_nil⟩

end Numbered

end Theseon
