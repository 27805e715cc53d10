import Theseon.DB.Recover
import Theseon.KV.History
import Theseon.Lib.Machine

/-!
# The engine on disk, step by step

A running engine has a writer, a flusher and a compactor.  The actions below are
the steps between which the process may crash: each changes one file, or only
the memory.  The steps of the three parts interleave, except that a write holds
the lock from drawing its sequence numbers to the end of its rotation.

Counters are loaded before the record with them is appended to the manifest, so
the two are separate steps.  The history records the acknowledged versions, each
with the identifier of the log it was appended to.
-/

namespace Theseon

open Std
open Lib KV SSTable Compaction Manifest

/-! ## The parts of a running engine -/

/-- Where the write that holds the lock stands. -/
inductive Writer where
  | idle
  /-- The numbers after `seq` have been drawn for the operations. -/
  | logging (seq : Nat) (ops : List BatchOp)
  /-- The record is written and the memtable is full. -/
  | rotating

/-- No write holds the lock. -/
def Writer.isIdle : Writer → Bool
  | idle => true
  | logging _ _ => false
  | rotating => false

/-- Where `flushMemtable` stands. -/
inductive Flusher where
  | idle
  /-- The table is in place. -/
  | built (table : Reader)
  /-- `AddSSTable` is done. -/
  | added (table : Reader)
  /-- The arguments of `UpdateNextIDs` are loaded. -/
  | loaded (table : Reader) (nextMemID nextSeq : Nat)
  /-- `UpdateNextIDs` is done. -/
  | recorded (table : Reader)
  /-- The table has replaced the memtable, whose log is still there. -/
  | swapped (id : Nat)

/-- Where `runCompaction` stands. -/
inductive Compactor where
  | idle
  /-- `Execute` has drawn the identifiers. -/
  | executing (task : CompactionTask) (ids : List Nat)
  /-- The calls of `applyCompactionResult` that are still to be made. -/
  | recording (task : CompactionTask) (newTables : List Reader) (calls : List Manifest.Call)
  /-- The arguments of `UpdateNextIDs` are loaded. -/
  | loaded (task : CompactionTask) (newTables : List Reader) (nextMemID nextSeq : Nat)
  /-- `UpdateNextIDs` is done. -/
  | recorded (task : CompactionTask) (newTables : List Reader)

/-- A running engine. -/
structure Process where
  db : DB
  writer : Writer
  flusher : Flusher
  compactor : Compactor

/-- The engine: what is on disk, the process unless it has crashed, and the
acknowledged versions. -/
structure Store where
  disk : Disk
  process : Option Process
  history : History

/-- The manifest entry of a table; the level is cut to a byte. -/
def tableInfo (level : Nat) (r : Reader) : SSTableInfo :=
  ⟨r.id, UInt8.ofNat level, r.firstKey, r.lastKey⟩

/-- The manifest calls of `applyCompactionResult` before `UpdateNextIDs`. -/
def manifestCalls (task : CompactionTask) (newTables : List Reader) : List Manifest.Call :=
  newTables.map (fun r => .addSSTable (tableInfo task.outputLevel r)) ++
    task.inputs.map (fun r => .removeSSTable r.id (UInt8.ofNat task.inputLevel)) ++
    task.overlapping.map (fun r => .removeSSTable r.id (UInt8.ofNat task.outputLevel))

namespace Disk

/-- A manifest call that returned nil. -/
def call (disk : Disk) (c : Manifest.Call) : Disk :=
  { disk with manifest := disk.manifest.applyRecord c.record }

/-- A finished table is renamed into place. -/
def putTable (disk : Disk) (r : Reader) : Disk :=
  { disk with tables := disk.tables.insert r.id r }

/-- The files of obsolete tables are deleted. -/
def removeTable (disk : Disk) (r : Reader) : Disk :=
  { disk with tables := disk.tables.erase r.id }

/-- `WriteEntries`. -/
def appendWAL (disk : Disk) (id : Nat) (entries : List WAL.Entry) : Disk :=
  { disk with wals := disk.wals.insert id (disk.wals.getD id [] ++ WAL.encodeRecord entries) }

/-- `RemoveByID`. -/
def removeWAL (disk : Disk) (id : Nat) : Disk :=
  { disk with wals := disk.wals.erase id }

theorem foldl_putTable (disk : Disk) (tables : List Reader) :
    tables.foldl putTable disk =
      { disk with tables := insertAll Reader.id disk.tables tables } := by
  induction tables generalizing disk with
  | nil => rfl
  | cons r rest ih =>
    rw [List.foldl_cons, ih]
    rfl

theorem foldl_removeTable (disk : Disk) (tables : List Reader) :
    tables.foldl removeTable disk =
      { disk with tables := tables.foldl (fun map r => map.erase r.id) disk.tables } := by
  induction tables generalizing disk with
  | nil => rfl
  | cons r rest ih =>
    rw [List.foldl_cons, ih]
    rfl

end Disk

/-! ## Steps -/

/-- What the store does next. -/
inductive StoreAction where
  /-- A write draws its sequence numbers. -/
  | begin (ops : List BatchOp)
  /-- Its record is appended to the log and applied to the memtable. -/
  | append
  /-- The full memtable is rotated. -/
  | rotate
  /-- The next step of the flusher. -/
  | flush
  /-- `Execute` draws the identifier of its next table. -/
  | allocate
  /-- The next step of the compactor. -/
  | compact (sorter : Sorter Reader.firstKey)
  | crash
  /-- `Open` after a crash. -/
  | reopen (sorter : Sorter SSTableInfo.firstKey)

namespace Process

/-- `waitForFlushSpace` and the sequence numbers of a write. -/
def begin (opts : Options) (p : Process) (ops : List BatchOp) : Option Process :=
  if p.writer.isIdle ∧ ops ≠ [] ∧ p.db.immutables.length < opts.normalized.maxImmutableCount then
    some { p with
      db := { p.db with nextSeq := addUint64 p.db.nextSeq ops.length }
      writer := .logging p.db.nextSeq ops }
  else none

/-- The memtable takes the versions whose record has been written. -/
def applied (opts : Options) (p : Process) (versions : List Entry) : Process :=
  let db := versions.foldl DB.insert p.db
  { p with db := db, writer := if db.full opts then .rotating else .idle }

/-- The next step of `flushMemtable`, on the oldest immutable memtable. -/
def flush (opts : Options) (disk : Disk) (p : Process) : Option (Disk × Process) :=
  match p.flusher with
  | .idle =>
    match p.db.immutables.getLast? with
    | none => none
    | some mt =>
      match flushTable opts mt with
      | .error _ => none
      | .ok table => some (disk.putTable table, { p with flusher := .built table })
  | .built table =>
    some (disk.call (.addSSTable (tableInfo 0 table)), { p with flusher := .added table })
  | .added table => some (disk, { p with flusher := .loaded table p.db.nextMemID p.db.nextSeq })
  | .loaded table nextMemID nextSeq =>
    some (disk.call (.updateNextIDs nextMemID nextSeq), { p with flusher := .recorded table })
  | .recorded table =>
    if p.writer.isIdle then
      some (disk, { p with db := p.db.installFlushed table, flusher := .swapped table.id })
    else none
  | .swapped id => some (disk.removeWAL id, { p with flusher := .idle })

/-- `NextID`. -/
def allocate (p : Process) : Option Process :=
  match p.compactor with
  | .executing task ids =>
    -- a table holds at least one entry
    if ids.length < task.size then
      let id := addUint64 p.db.nextMemID 1
      some { p with
        db := { p.db with nextMemID := id }
        compactor := .executing task (ids ++ [id]) }
    else none
  | _ => none

/-- The arguments of `Execute` with the identifiers that have been drawn. -/
def executeOptions (opts : Options) (ids : List Nat) : ExecuteOptions where
  blockSize := opts.blockSize
  targetFileSize := opts.compaction.levelSizeBase.tdiv 10
  ids := fun n => ids.getD n 0

/-- The next step of `runCompaction`. -/
def compact (opts : Options) (sorter : Sorter Reader.firstKey) (disk : Disk) (p : Process) :
    Option (Disk × Process) :=
  match p.compactor with
  | .idle =>
    (pickCompaction p.db.buildLevelState opts.compaction).map fun task =>
      (disk, { p with compactor := .executing task [] })
  | .executing task ids =>
    match execute (executeOptions opts ids) task with
    | .error _ => some (disk, { p with compactor := .idle })
    | .ok newTables =>
      if newTables.length = ids.length then
        some (newTables.foldl Disk.putTable disk,
          { p with compactor := .recording task newTables (manifestCalls task newTables) })
      else none
  | .recording task newTables (c :: calls) =>
    some (disk.call c, { p with compactor := .recording task newTables calls })
  | .recording task newTables [] =>
    some (disk, { p with compactor := .loaded task newTables p.db.nextMemID p.db.nextSeq })
  | .loaded task newTables nextMemID nextSeq =>
    some (disk.call (.updateNextIDs nextMemID nextSeq),
      { p with compactor := .recorded task newTables })
  | .recorded task newTables =>
    if p.writer.isIdle then
      some (task.allInputs.foldl Disk.removeTable disk,
        { p with
          db := p.db.applyCompactionResult sorter task newTables
          compactor := .idle })
    else none

end Process

namespace Store

/-- An empty directory. -/
def init : Store :=
  ⟨.empty, none, []⟩

/-- The step of a write that appends to the log. -/
def append (opts : Options) (s : Store) (p : Process) : Option Store :=
  match p.writer with
  | .logging seq ops =>
    some
      { disk := s.disk.appendWAL p.db.active.id (logEntries seq ops)
        process := some (p.applied opts (stamp seq ops))
        history := s.history.extend p.db.active.id (stamp seq ops) }
  | _ => none

/-- The rotation that ends a write: the log of the new memtable is created. -/
def rotate (s : Store) (p : Process) : Option Store :=
  match p.writer with
  | .rotating =>
    let db := p.db.rotateMemtable
    some { s with
      disk := s.disk.createWAL db.active.id
      process := some { p with db := db, writer := .idle } }
  | _ => none

/-- One step, if it is possible. -/
def step (opts : Options) (s : Store) : StoreAction → Option Store
  | .begin ops => s.process.bind fun p =>
    (p.begin opts ops).map fun next => { s with process := some next }
  | .append => s.process.bind fun p => s.append opts p
  | .rotate => s.process.bind fun p => s.rotate p
  | .flush => s.process.bind fun p =>
    (p.flush opts s.disk).map fun next => { s with disk := next.1, process := some next.2 }
  | .allocate => s.process.bind fun p => p.allocate.map fun next => { s with process := some next }
  | .compact sorter => s.process.bind fun p =>
    (p.compact opts sorter s.disk).map fun next =>
      { s with disk := next.1, process := some next.2 }
  | .crash => some { s with process := none }
  | .reopen sorter =>
    match s.process with
    | some _ => none
    | none =>
      match openDB opts sorter s.disk with
      | .error _ => none
      | .ok (db, disk) => some { s with disk := disk, process := some ⟨db, .idle, .idle, .idle⟩ }

end Store

/-! ## What a step can be -/

/-- The steps of `flushMemtable`. -/
inductive Flushes (opts : Options) (disk : Disk) (p : Process) : Disk → Process → Prop where
  | build {newer : List Memtable} {mt : Memtable} {table : Reader} (stage : p.flusher = .idle)
      (oldest : p.db.immutables = newer ++ [mt]) (built : flushTable opts mt = .ok table) :
      Flushes opts disk p (disk.putTable table) { p with flusher := .built table }
  | add {table : Reader} (stage : p.flusher = .built table) :
      Flushes opts disk p (disk.call (.addSSTable (tableInfo 0 table)))
        { p with flusher := .added table }
  | load {table : Reader} (stage : p.flusher = .added table) :
      Flushes opts disk p disk { p with flusher := .loaded table p.db.nextMemID p.db.nextSeq }
  | record {table : Reader} {nextMemID nextSeq : Nat}
      (stage : p.flusher = .loaded table nextMemID nextSeq) :
      Flushes opts disk p (disk.call (.updateNextIDs nextMemID nextSeq))
        { p with flusher := .recorded table }
  | swap {table : Reader} (stage : p.flusher = .recorded table) :
      Flushes opts disk p disk
        { p with db := p.db.installFlushed table, flusher := .swapped table.id }
  | clean {id : Nat} (stage : p.flusher = .swapped id) :
      Flushes opts disk p (disk.removeWAL id) { p with flusher := .idle }

/-- The steps of `runCompaction`. -/
inductive Compacts (opts : Options) (sorter : Sorter Reader.firstKey) (disk : Disk) (p : Process) :
    Disk → Process → Prop where
  | pick {task : CompactionTask} (stage : p.compactor = .idle)
      (picked : pickCompaction p.db.buildLevelState opts.compaction = some task) :
      Compacts opts sorter disk p disk { p with compactor := .executing task [] }
  | abandon {task : CompactionTask} {ids : List Nat} (stage : p.compactor = .executing task ids) :
      Compacts opts sorter disk p disk { p with compactor := .idle }
  | write {task : CompactionTask} {ids : List Nat} {newTables : List Reader}
      (stage : p.compactor = .executing task ids)
      (done : execute (Process.executeOptions opts ids) task = .ok newTables)
      (count : newTables.length = ids.length) :
      Compacts opts sorter disk p (newTables.foldl Disk.putTable disk)
        { p with compactor := .recording task newTables (manifestCalls task newTables) }
  | call {task : CompactionTask} {newTables : List Reader} {c : Manifest.Call}
      {calls : List Manifest.Call} (stage : p.compactor = .recording task newTables (c :: calls)) :
      Compacts opts sorter disk p (disk.call c)
        { p with compactor := .recording task newTables calls }
  | load {task : CompactionTask} {newTables : List Reader}
      (stage : p.compactor = .recording task newTables []) :
      Compacts opts sorter disk p disk
        { p with compactor := .loaded task newTables p.db.nextMemID p.db.nextSeq }
  | record {task : CompactionTask} {newTables : List Reader} {nextMemID nextSeq : Nat}
      (stage : p.compactor = .loaded task newTables nextMemID nextSeq) :
      Compacts opts sorter disk p (disk.call (.updateNextIDs nextMemID nextSeq))
        { p with compactor := .recorded task newTables }
  | apply {task : CompactionTask} {newTables : List Reader}
      (stage : p.compactor = .recorded task newTables) :
      Compacts opts sorter disk p (task.allInputs.foldl Disk.removeTable disk)
        { p with
          db := p.db.applyCompactionResult sorter task newTables
          compactor := .idle }

section

variable {opts : Options} {disk disk' : Disk} {p p' : Process}

theorem flushes_of_flush (stepped : p.flush opts disk = some (disk', p')) :
    Flushes opts disk p disk' p' := by
  rw [Process.flush] at stepped
  split at stepped
  · rename_i stage
    split at stepped
    · cases stepped
    rename_i mt last
    rcases List.getLast?_eq_some_iff.mp last with ⟨newer, oldest⟩
    split at stepped
    · cases stepped
    rename_i table built
    cases stepped
    exact .build stage oldest built
  · rename_i table stage
    cases stepped
    exact .add stage
  · rename_i table stage
    cases stepped
    exact .load stage
  · rename_i table nextMemID nextSeq stage
    cases stepped
    exact .record stage
  · rename_i table stage
    split at stepped
    · cases stepped
      exact .swap stage
    · cases stepped
  · rename_i id stage
    cases stepped
    exact .clean stage

theorem compacts_of_compact {sorter : Sorter Reader.firstKey}
    (stepped : p.compact opts sorter disk = some (disk', p')) :
    Compacts opts sorter disk p disk' p' := by
  rw [Process.compact] at stepped
  split at stepped
  · rename_i stage
    rcases Option.map_eq_some_iff.mp stepped with ⟨task, picked, next⟩
    cases next
    exact .pick stage picked
  · rename_i task ids stage
    split at stepped
    · cases stepped
      exact .abandon stage
    rename_i newTables done
    split at stepped
    · rename_i count
      cases stepped
      exact .write stage done count
    · cases stepped
  · rename_i task newTables c calls stage
    cases stepped
    exact .call stage
  · rename_i task newTables stage
    cases stepped
    exact .load stage
  · rename_i task newTables nextMemID nextSeq stage
    cases stepped
    exact .record stage
  · rename_i task newTables stage
    split at stepped
    · cases stepped
      exact .apply stage
    · cases stepped

end

namespace Store

/-- The steps of the store. -/
inductive Stepped (opts : Options) (s : Store) : StoreAction → Store → Prop where
  | begin {p p' : Process} {ops : List BatchOp} (running : s.process = some p)
      (began : p.begin opts ops = some p') :
      Stepped opts s (.begin ops) { s with process := some p' }
  | append {p : Process} {seq : Nat} {ops : List BatchOp} (running : s.process = some p)
      (stage : p.writer = .logging seq ops) :
      Stepped opts s .append
        { disk := s.disk.appendWAL p.db.active.id (logEntries seq ops)
          process := some (p.applied opts (stamp seq ops))
          history := s.history.extend p.db.active.id (stamp seq ops) }
  | rotate {p : Process} (running : s.process = some p) (stage : p.writer = .rotating) :
      Stepped opts s .rotate
        { s with
          disk := s.disk.createWAL p.db.rotateMemtable.active.id
          process := some { p with db := p.db.rotateMemtable, writer := .idle } }
  | flush {p p' : Process} {disk : Disk} (running : s.process = some p)
      (flushes : Flushes opts s.disk p disk p') :
      Stepped opts s .flush { s with disk := disk, process := some p' }
  | allocate {p p' : Process} (running : s.process = some p) (allocated : p.allocate = some p') :
      Stepped opts s .allocate { s with process := some p' }
  | compact {p p' : Process} {disk : Disk} {sorter : Sorter Reader.firstKey}
      (running : s.process = some p) (compacts : Compacts opts sorter s.disk p disk p') :
      Stepped opts s (.compact sorter) { s with disk := disk, process := some p' }
  | crash : Stepped opts s .crash { s with process := none }
  | reopen {sorter : Sorter SSTableInfo.firstKey} {db : DB} {disk : Disk}
      (down : s.process = none) (opened : openDB opts sorter s.disk = .ok (db, disk)) :
      Stepped opts s (.reopen sorter)
        { s with disk := disk, process := some ⟨db, .idle, .idle, .idle⟩ }

theorem stepped_of_step {opts : Options} {s next : Store} {a : StoreAction}
    (stepped : s.step opts a = some next) : Stepped opts s a next := by
  cases a with
  | begin ops =>
    rcases Option.bind_eq_some_iff.mp stepped with ⟨p, running, mapped⟩
    rcases Option.map_eq_some_iff.mp mapped with ⟨p', began, rfl⟩
    exact .begin running began
  | append =>
    rcases Option.bind_eq_some_iff.mp stepped with ⟨p, running, appended⟩
    rw [Store.append] at appended
    split at appended
    · rename_i seq ops stage
      cases appended
      exact .append running stage
    · cases appended
  | rotate =>
    rcases Option.bind_eq_some_iff.mp stepped with ⟨p, running, rotated⟩
    rw [Store.rotate] at rotated
    split at rotated
    · rename_i stage
      cases rotated
      exact .rotate running stage
    · cases rotated
  | flush =>
    rcases Option.bind_eq_some_iff.mp stepped with ⟨p, running, mapped⟩
    rcases Option.map_eq_some_iff.mp mapped with ⟨⟨disk, p'⟩, flushed, rfl⟩
    exact .flush running (flushes_of_flush flushed)
  | allocate =>
    rcases Option.bind_eq_some_iff.mp stepped with ⟨p, running, mapped⟩
    rcases Option.map_eq_some_iff.mp mapped with ⟨p', allocated, rfl⟩
    exact .allocate running allocated
  | compact sorter =>
    rcases Option.bind_eq_some_iff.mp stepped with ⟨p, running, mapped⟩
    rcases Option.map_eq_some_iff.mp mapped with ⟨⟨disk, p'⟩, compacted, rfl⟩
    exact .compact running (compacts_of_compact compacted)
  | crash =>
    cases stepped
    exact .crash
  | reopen sorter =>
    rw [Store.step] at stepped
    split at stepped
    · cases stepped
    rename_i down
    split at stepped
    · cases stepped
    rename_i db disk opened
    cases stepped
    exact .reopen down opened

end Store

end Theseon
