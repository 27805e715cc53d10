import Theseon.Compaction.Levels
import Theseon.DB.Read

/-!
# Compacting the levels of the engine

`runCompaction` picks a task, merges its tables into new ones and swaps the
tables in memory.  The tables of the task are recognised by their identifiers.
-/

namespace Theseon

open Lib KV SSTable Compaction

namespace DB

def buildLevelState (db : DB) : LevelState :=
  ⟨db.l0, db.levels⟩

/-- The tables of a level below L0. -/
def level (db : DB) (i : Nat) : List Reader :=
  db.levels.getD i []

/-- The arguments of `Execute` when the next identifier counter stands at
`nextMemID`. -/
def executeOptions (opts : Options) (nextMemID : Nat) : ExecuteOptions where
  blockSize := opts.blockSize
  targetFileSize := opts.compaction.levelSizeBase.tdiv 10
  ids := fun n => addUint64 nextMemID (n + 1)

/-- The tables that stay when those of the task go. -/
def keepLive (task : CompactionTask) (tables : List Reader) : List Reader :=
  tables.filter fun r => r.id ∉ task.allInputs.map Reader.id

/-- The inputs are taken out of their level. -/
def removeInputs (db : DB) (task : CompactionTask) : DB :=
  if task.inputLevel = 0 then { db with l0 := keepLive task db.l0 }
  else if task.inputLevel < db.levels.length then
    { db with
      levels := db.levels.set task.inputLevel (keepLive task (db.level task.inputLevel)) }
  else db

/-- The overlapping tables are replaced by the new ones. -/
def installOutputs (sorter : Sorter Reader.firstKey) (db : DB) (task : CompactionTask)
    (newTables : List Reader) : DB :=
  if task.outputLevel < db.levels.length then
    { db with
      levels := db.levels.set task.outputLevel
        (sorter.sort (keepLive task (db.level task.outputLevel) ++ newTables)) }
  else db

/-- The memory part of `applyCompactionResult`. -/
def applyCompactionResult (sorter : Sorter Reader.firstKey) (db : DB) (task : CompactionTask)
    (newTables : List Reader) : DB :=
  (db.removeInputs task).installOutputs sorter task newTables

/-- One round of `runCompaction` that runs to its end. -/
def compact (opts : Options) (sorter : Sorter Reader.firstKey) (db : DB) : Option DB :=
  match pickCompaction db.buildLevelState opts.compaction with
  | none => none
  | some task =>
    match execute (executeOptions opts db.nextMemID) task with
    | .error _ => none
    | .ok newTables =>
      some (applyCompactionResult sorter
        { db with nextMemID := addUint64 db.nextMemID newTables.length } task newTables)

end DB

/-! ## The tasks that are picked -/

/-- What the picker returns: all tables of L0, or the first table of a level,
with the tables of the next level that overlap them. -/
inductive Picked (state : LevelState) : CompactionTask → Prop where
  | l0 {minKey maxKey : Bytes} (nonempty : state.l0 ≠ [])
      (range : keyRange state.l0 = (some minKey, some maxKey)) :
      Picked state ⟨0, 1, state.l0, findOverlapping (state.level 1) minKey maxKey, minKey, maxKey⟩
  | level {i : Nat} {input : Reader} {rest : List Reader} (positive : 0 < i)
      (first : state.level i = input :: rest) :
      Picked state ⟨i, i + 1, [input],
        findOverlapping (state.level (i + 1)) input.firstKey input.lastKey,
        input.firstKey, input.lastKey⟩

variable {state : LevelState} {task : CompactionTask}

theorem picked_inputs_ne_nil (picked : Picked state task) : task.inputs ≠ [] := by
  cases picked with
  | l0 nonempty _ => exact nonempty
  | level _ _ => exact List.cons_ne_nil _ _

theorem picked_of_pickLevels {cfg : Config} {fuel i : Nat} {target : Int} (positive : 0 < i)
    (picked : pickLevels state cfg fuel i target = some task) :
    Picked state task ∧ i < task.outputLevel ∧ task.outputLevel ≤ i + fuel := by
  induction fuel generalizing i target with
  | zero => cases picked
  | succ fuel ih =>
    rw [pickLevels] at picked
    split at picked
    · rw [pickLevelCompaction] at picked
      split at picked
      · cases picked
      rename_i input rest first
      cases picked
      exact ⟨.level positive first, Nat.lt_succ_self i, by simp only; omega⟩
    · rcases ih (Nat.succ_pos i) picked with ⟨isPicked, above, bound⟩
      exact ⟨isPicked, by omega, by omega⟩

theorem picked_of_pickCompaction {cfg : Config} (picked : pickCompaction state cfg = some task) :
    Picked state task ∧ (task.outputLevel = 1 ∨ (task.outputLevel : Int) < cfg.maxLevels) := by
  rw [pickCompaction] at picked
  split at picked
  · rw [pickL0Compaction] at picked
    split at picked
    · cases picked
    rename_i nonempty
    rcases keyRange_bounds nonempty with ⟨minKey, maxKey, range, _⟩
    simp only [range, Option.getD_some] at picked
    cases picked
    exact ⟨.l0 nonempty range, .inl rfl⟩
  · rcases picked_of_pickLevels Nat.one_pos picked with ⟨isPicked, above, bound⟩
    exact ⟨isPicked, .inr (by omega)⟩

end Theseon
