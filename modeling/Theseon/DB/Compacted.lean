import Theseon.DB.CompactOrder

/-!
# The engine after a compaction

A compaction that the picker chose, and whose input is apart from the tables
that stay in its level, keeps the order, the identifiers and all versions.
-/

namespace Theseon

open Lib KV SSTable Compaction List

namespace DB

variable {db next : DB} {task : CompactionTask} {sorter : Sorter Reader.firstKey}
  {newTables : List Reader}

/-- The output level with the new tables in it. -/
def outputAfter (sorter : Sorter Reader.firstKey) (db : DB) (task : CompactionTask)
    (newTables : List Reader) : List Reader :=
  sorter.sort (keepLive task (db.level task.outputLevel) ++ newTables)

theorem level_removeInputs (different : task.inputLevel ≠ task.outputLevel) :
    (db.removeInputs task).level task.outputLevel = db.level task.outputLevel := by
  rw [removeInputs]
  split
  · rfl
  split
  · rename_i within
    rw [level_set within, if_neg (Ne.symm different)]
  · rfl

theorem length_removeInputs : (db.removeInputs task).levels.length = db.levels.length := by
  rw [removeInputs]
  split
  · rfl
  split
  · exact length_set
  · rfl

/-- The levels after a compaction. -/
theorem level_applyCompactionResult (different : task.inputLevel ≠ task.outputLevel)
    (within : task.outputLevel < db.levels.length) (i : Nat) :
    (db.applyCompactionResult sorter task newTables).level i =
      if i = task.outputLevel then outputAfter sorter db task newTables
      else (db.removeInputs task).level i := by
  rw [applyCompactionResult, installOutputs, if_pos (by rwa [length_removeInputs]),
    level_set (by rwa [length_removeInputs]), level_removeInputs different]
  rfl

theorem memtables_applyCompactionResult :
    (db.applyCompactionResult sorter task newTables).memtables = db.memtables := by
  simp only [applyCompactionResult, installOutputs, removeInputs]
  repeat' split
  all_goals rfl

theorem counters_applyCompactionResult :
    (db.applyCompactionResult sorter task newTables).nextMemID = db.nextMemID ∧
      (db.applyCompactionResult sorter task newTables).nextSeq = db.nextSeq := by
  simp only [applyCompactionResult, installOutputs, removeInputs]
  repeat' split
  all_goals exact ⟨rfl, rfl⟩

theorem l0_applyCompactionResult :
    (db.applyCompactionResult sorter task newTables).l0 =
      if task.inputLevel = 0 then keepLive task db.l0 else db.l0 := by
  simp only [applyCompactionResult, installOutputs, removeInputs]
  repeat' split
  all_goals rfl

/-- The levels lose the inputs. -/
theorem level_removeInputs_sublist (i : Nat) :
    ((db.removeInputs task).level i).Sublist (db.level i) := by
  rw [removeInputs]
  split
  · exact List.Sublist.refl _
  split
  · rename_i within
    rw [level_set within]
    split
    · rename_i isInput
      rw [isInput]
      exact filter_sublist
    · exact List.Sublist.refl _
  · exact List.Sublist.refl _

variable {r : Reader} {opts : ExecuteOptions}

/-- The input level keeps its other tables. -/
theorem mem_level_removeInputs (input : task.inputLevel ≠ 0)
    (mem : r ∈ (db.removeInputs task).level task.inputLevel) :
    r ∈ keepLive task (db.level task.inputLevel) := by
  rw [removeInputs, if_neg input] at mem
  split at mem
  · rename_i within
    rwa [level_set within, if_pos rfl] at mem
  rename_i outside
  rw [level_eq_nil outside] at mem
  cases mem

/-- Where the inputs of a picked task are relative to the other levels. -/
structure Placed (db : DB) (task : CompactionTask) : Prop where
  different : task.inputLevel ≠ task.outputLevel
  fromL0 : task.inputLevel = 0 → task.inputs = db.l0 ∧ task.outputLevel = 1
  fromLevel : task.inputLevel ≠ 0 → task.outputLevel = task.inputLevel + 1 ∧
    ∀ r ∈ task.inputs, r ∈ db.level task.inputLevel

theorem placed_of_picked (picked : Picked db.buildLevelState task) : db.Placed task := by
  cases picked with
  | l0 nonempty range => exact ⟨Nat.zero_ne_one, fun _ => ⟨rfl, rfl⟩, fun input => absurd rfl input⟩
  | @level i input rest positive first =>
    change db.level i = input :: rest at first
    refine ⟨by simp, fun isL0 => absurd isL0 positive.ne', fun _ => ⟨rfl, ?_⟩⟩
    intro r rMem
    rw [mem_singleton.mp rMem]
    change input ∈ db.level i
    rw [first]
    exact mem_cons_self

/-- A compaction of L0 empties it. -/
theorem Placed.l0_eq (placed : db.Placed task) (sorter : Sorter Reader.firstKey)
    (newTables : List Reader) :
    (db.applyCompactionResult sorter task newTables).l0 = [] ∧ task.inputLevel = 0 ∨
      (db.applyCompactionResult sorter task newTables).l0 = db.l0 ∧ task.inputLevel ≠ 0 := by
  rw [l0_applyCompactionResult]
  by_cases isL0 : task.inputLevel = 0
  · left
    rw [if_pos isL0, keepLive, filter_eq_nil_iff]
    refine ⟨?_, isL0⟩
    intro r rMem
    have isInput : r ∈ task.allInputs :=
      mem_append_left _ (by rwa [(placed.fromL0 isL0).1])
    simpa using ⟨r, isInput, rfl⟩
  · rw [if_neg isL0]
    exact .inr ⟨rfl, isL0⟩

theorem Placed.inputs_subset_level (placed : db.Placed task) (input : task.inputLevel ≠ 0) :
    entriesOf task.inputs ⊆ db.levelEntries task.inputLevel :=
  entriesOf_mono (placed.fromLevel input).2

/-- Everything that is asked before the inputs is newer than they are. -/
theorem Ordered.upper_newer_inputs (ordered : db.Ordered) (placed : db.Placed task) :
    ∀ entries ∈ (db.applyCompactionResult sorter task newTables).upper,
      Newer entries (entriesOf task.inputs) := by
  intro entries mem
  rw [DB.upper, memtables_applyCompactionResult] at mem
  rcases placed.l0_eq sorter newTables with ⟨empty, isL0⟩ | ⟨kept, isLevel⟩
  · -- only memtables are left above
    rw [empty, map_nil, append_nil] at mem
    rw [(placed.fromL0 isL0).1]
    intro first firstMem second secondMem
    rcases mem_entriesOf.mp secondMem with ⟨r, rMem, inTable⟩
    exact (pairwise_append.mp ordered.upper).2.2 entries mem r.entries
      (mem_map_of_mem rMem) first firstMem second inTable
  rw [kept] at mem
  exact (ordered.upperLevels entries mem _ (Nat.pos_of_ne_zero isLevel)).mono
    (List.Subset.refl _) (placed.inputs_subset_level isLevel)

theorem Ordered.above_newer_inputs (ordered : db.Ordered) (placed : db.Placed task)
    (apart : db.ApartFromRest task) {i : Nat}
    (positive : 0 < i) (above : i < task.outputLevel) :
    Newer (entriesOf ((db.removeInputs task).level i)) (entriesOf task.inputs) := by
  by_cases isL0 : task.inputLevel = 0
  · have := (placed.fromL0 isL0).2
    omega
  have next := (placed.fromLevel isL0).1
  have subset : entriesOf ((db.removeInputs task).level i) ⊆ db.levelEntries i :=
    entriesOf_mono (level_removeInputs_sublist i).subset
  rcases Nat.lt_or_eq_of_le (Nat.lt_succ_iff.mp (next ▸ above)) with higher | isInput
  · exact (ordered.levels i task.inputLevel positive higher).mono subset
      (placed.inputs_subset_level isL0)
  -- the tables that stay in the input level
  subst isInput
  intro first firstMem second secondMem sameUser
  rcases mem_entriesOf.mp firstMem with ⟨r, rMem, inTable⟩
  exact absurd sameUser (apart isL0 r (mem_level_removeInputs isL0 rMem) second secondMem
    first inTable)

theorem Ordered.below_older_inputs (ordered : db.Ordered) (placed : db.Placed task) {i : Nat}
    (below : task.outputLevel < i) : Newer (entriesOf task.inputs) (db.levelEntries i) := by
  by_cases isL0 : task.inputLevel = 0
  · rw [(placed.fromL0 isL0).1]
    intro first firstMem
    rcases mem_entriesOf.mp firstMem with ⟨r, rMem, inTable⟩
    exact ordered.upperLevels r.entries (mem_upper.mpr (.inr ⟨r, rMem, rfl⟩)) i (by omega) first
      inTable
  have := (placed.fromLevel isL0).1
  exact (ordered.levels task.inputLevel i (Nat.pos_of_ne_zero isL0) (by omega)).mono
    (placed.inputs_subset_level isL0) (List.Subset.refl _)

/-- The order survives a compaction that is apart from the rest of its input
level. -/
theorem Ordered.compacted (ordered : db.Ordered) (identified : db.Identified)
    (free : PrefixFree db.entries) (picked : Picked db.buildLevelState task)
    (within : task.outputLevel < db.levels.length) (apart : db.ApartFromRest task)
    (done : execute opts task = .ok newTables) :
    (db.applyCompactionResult sorter task newTables).Ordered := by
  have feasible := feasible_of_picked ordered free picked
  have placed := placed_of_picked picked
  rcases feasible.newLevel (ordered.leveled identified) free
    (feasible.distinct_allInputs ordered) done sorter with
    ⟨outputDisjoint, outputSound, outputEntries⟩
  have levelAt : ∀ i, (db.applyCompactionResult sorter task newTables).level i =
      if i = task.outputLevel then outputAfter sorter db task newTables
      else (db.removeInputs task).level i :=
    level_applyCompactionResult placed.different within
  apply ordered.moved (entriesOf task.inputs) task.outputLevel memtables_applyCompactionResult
  · rcases placed.l0_eq sorter newTables with ⟨empty, _⟩ | ⟨kept, _⟩
    · rw [empty]
      exact nil_sublist _
    · rw [kept]
  · intro i positive r rMem
    rw [levelAt] at rMem
    split at rMem
    · exact outputSound r rMem
    · exact ordered.sound r (mem_tables.mpr
        (.inr ⟨i, positive, (level_removeInputs_sublist i).subset rMem⟩))
  · intro i positive
    rw [levelAt]
    split
    · exact outputDisjoint
    · exact (ordered.disjoint i positive).sublist (level_removeInputs_sublist i)
  · intro i _ notOut
    rw [levelEntries, levelAt, if_neg notOut]
    exact entriesOf_mono (level_removeInputs_sublist i).subset
  · rw [levelEntries, levelAt, if_pos rfl]
    exact outputEntries
  · exact ordered.upper_newer_inputs placed
  · intro i positive above
    rw [levelEntries, levelAt, if_neg above.ne]
    exact ordered.above_newer_inputs placed apart positive above
  · intro i below
    exact ordered.below_older_inputs placed below
  · exact feasible.positive

/-! ## The tables and versions afterwards -/

theorem mem_tables_of_removeInputs (mem : r ∈ (db.removeInputs task).tables) : r ∈ db.tables := by
  rcases mem_tables.mp mem with inL0 | ⟨i, positive, inLevel⟩
  · apply mem_tables.mpr
    left
    rw [removeInputs] at inL0
    split at inL0
    · exact (mem_filter.mp inL0).1
    split at inL0
    · exact inL0
    · exact inL0
  · exact mem_tables.mpr (.inr ⟨i, positive, (level_removeInputs_sublist i).subset inLevel⟩)

/-- Only the outputs are new. -/
theorem mem_tables_of_applyCompactionResult
    (mem : r ∈ (db.applyCompactionResult sorter task newTables).tables) :
    r ∈ db.tables ∨ r ∈ newTables := by
  rw [applyCompactionResult, installOutputs] at mem
  split at mem
  · rename_i within
    rcases mem_tables.mp mem with inL0 | ⟨i, positive, inLevel⟩
    · exact .inl (mem_tables_of_removeInputs (mem_tables.mpr (.inl inL0)))
    rw [level_set within] at inLevel
    split at inLevel
    · rename_i isOut
      subst isOut
      rcases mem_append.mp (sorter.mem_sort.mp inLevel) with stays | isNew
      · exact .inl (mem_tables_of_removeInputs
          (mem_tables.mpr (.inr ⟨_, positive, (mem_filter.mp stays).1⟩)))
      · exact .inr isNew
    · exact .inl (mem_tables_of_removeInputs (mem_tables.mpr (.inr ⟨i, positive, inLevel⟩)))
  · exact .inl (mem_tables_of_removeInputs mem)

section

variable (placed : db.Placed task) (within : task.outputLevel < db.levels.length)

include placed within in
theorem newTables_mem (positive : 0 < task.outputLevel) {r : Reader} (mem : r ∈ newTables) :
    r ∈ (db.applyCompactionResult sorter task newTables).tables := by
  refine mem_tables.mpr (.inr ⟨task.outputLevel, positive, ?_⟩)
  rw [level_applyCompactionResult placed.different within, if_pos rfl]
  exact sorter.mem_sort.mpr (mem_append_right _ mem)

include placed within in
/-- Tables that are not part of the task stay. -/
theorem mem_tables_of_not_input (hull : db.Hull task)
    (ids : ∀ r ∈ db.tables, ∀ t ∈ db.tables, r.id = t.id → r = t) {r : Reader}
    (mem : r ∈ db.tables) (notInput : r ∉ task.allInputs) :
    r ∈ (db.applyCompactionResult sorter task newTables).tables := by
  rcases mem_tables.mp mem with inL0 | ⟨i, positive, inLevel⟩
  · rcases placed.l0_eq sorter newTables with ⟨_, isL0⟩ | ⟨kept, _⟩
    · exact absurd (mem_append_left _ (by rwa [(placed.fromL0 isL0).1])) notInput
    · exact mem_tables.mpr (.inl (by rwa [kept]))
  refine mem_tables.mpr (.inr ⟨i, positive, ?_⟩)
  have live : ∀ {j : Nat}, r ∈ db.level j → r ∈ keepLive task (db.level j) :=
    fun inLevel => hull.mem_keepLive ids mem inLevel notInput
  rw [level_applyCompactionResult placed.different within]
  split
  · rename_i isOut
    subst isOut
    exact sorter.mem_sort.mpr (mem_append_left _ (live inLevel))
  rw [removeInputs]
  split
  · exact inLevel
  split
  · rename_i inputWithin
    rw [level_set inputWithin]
    split
    · rename_i isInput
      subst isInput
      exact live inLevel
    · exact inLevel
  · exact inLevel

include placed within in
/-- The tables hold the same versions afterwards. -/
theorem mem_entriesOf_compacted (hull : db.Hull task) (leveled : db.Leveled)
    (distinct : ((entriesOf task.allInputs).map Entry.key).Nodup) {opts : ExecuteOptions}
    (done : execute opts task = .ok newTables) (entry : Entry) :
    entry ∈ entriesOf (db.applyCompactionResult sorter task newTables).tables ↔
      entry ∈ entriesOf db.tables := by
  have perm := (execute_healthy (fun r mem => leveled.sound r (hull.allInputs_mem mem)) distinct
    done).1
  constructor
  · intro mem
    rcases mem_entriesOf.mp mem with ⟨r, rMem, inTable⟩
    rcases mem_tables_of_applyCompactionResult rMem with old | isNew
    · exact entries_subset old inTable
    · exact entriesOf_mono (fun t tMem => hull.allInputs_mem tMem)
        (perm.subset (entries_subset isNew inTable))
  · intro mem
    rcases mem_entriesOf.mp mem with ⟨r, rMem, inTable⟩
    by_cases isInput : r ∈ task.allInputs
    · exact entriesOf_mono (fun t tMem => newTables_mem placed within hull.positive tMem)
        (perm.symm.subset (entries_subset isInput inTable))
    · exact entries_subset (mem_tables_of_not_input placed within hull leveled.ids rMem isInput)
        inTable

end

/-- A compaction keeps all versions. -/
theorem Ordered.mem_entries_compacted (ordered : db.Ordered) (identified : db.Identified)
    (free : PrefixFree db.entries) (picked : Picked db.buildLevelState task)
    (within : task.outputLevel < db.levels.length) (done : execute opts task = .ok newTables)
    (entry : Entry) :
    entry ∈ (db.applyCompactionResult sorter task newTables).entries ↔ entry ∈ db.entries := by
  have feasible := feasible_of_picked ordered free picked
  rw [mem_entries_iff, mem_entries_iff, memtables_applyCompactionResult,
    mem_entriesOf_compacted (placed_of_picked picked) within feasible.toHull
      (ordered.leveled identified) (feasible.distinct_allInputs ordered) done]

/-! ## A whole round -/

theorem compact_eq_some {opts : Options} (compacted : db.compact opts sorter = some next) :
    ∃ task newTables, pickCompaction db.buildLevelState opts.compaction = some task ∧
      execute (executeOptions opts db.nextMemID) task = .ok newTables ∧
      next = applyCompactionResult sorter
        { db with nextMemID := addUint64 db.nextMemID newTables.length } task newTables := by
  rw [compact] at compacted
  split at compacted
  · cases compacted
  rename_i task picked
  split at compacted
  · cases compacted
  rename_i newTables done
  cases compacted
  exact ⟨task, newTables, picked, done, rfl⟩

/-- There are at most as many new tables as entries. -/
theorem length_newTables_le (ordered : db.Ordered) (feasible : db.Feasible task)
    (done : execute opts task = .ok newTables) : newTables.length ≤ task.size := by
  rcases execute_healthy (feasible.sound_allInputs ordered) (feasible.distinct_allInputs ordered)
    done with ⟨perm, _, sound⟩
  have size : task.size = (entriesOf newTables).length := by
    rw [perm.length_eq, CompactionTask.size, entriesOf, length_flatMap]
  have positive : ∀ count ∈ newTables.map fun r => r.entries.length, 1 ≤ count := by
    intro count countMem
    rcases mem_map.mp countMem with ⟨r, rMem, rfl⟩
    exact length_pos_iff.mpr (sound r rMem).1.nonempty
  have bound := length_le_sum_of_one_le _ positive
  rwa [length_map, ← length_flatMap, ← entriesOf, ← size] at bound

/-- The identifiers that `Execute` draws, as long as the counter does not wrap. -/
theorem newTables_ids {opts : Options}
    (done : execute (executeOptions opts db.nextMemID) task = .ok newTables)
    (fits : db.nextMemID + newTables.length ≤ maxSeqNum) :
    newTables.map Reader.id =
      (List.range newTables.length).map fun n => db.nextMemID + (n + 1) := by
  rw [execute_ids done]
  apply map_congr_left
  intro n nMem
  have := mem_range.mp nMem
  exact addUint64_eq (by omega)

/-- The task that is picked finds its output level and leaves no version of a user
key that it moves in its input level, and the identifiers do not run out. -/
def SafeToCompact (opts : Options) (db : DB) : Prop :=
  ∀ task ∈ pickCompaction db.buildLevelState opts.compaction,
    task.outputLevel < db.levels.length ∧ db.ApartFromRest task ∧
      db.nextMemID + task.size ≤ maxSeqNum

instance (opts : Options) (db : DB) : Decidable (db.SafeToCompact opts) := by
  unfold SafeToCompact
  infer_instance

/-- What a safe compaction keeps. -/
theorem Ordered.compact (ordered : db.Ordered) (identified : db.Identified)
    (free : PrefixFree db.entries) {opts : Options}
    (safe : db.SafeToCompact opts)
    (compacted : db.compact opts sorter = some next) :
    next.Ordered ∧ next.Identified ∧ next.nextSeq = db.nextSeq ∧
      ∀ entry, entry ∈ next.entries ↔ entry ∈ db.entries := by
  rcases compact_eq_some compacted with ⟨task, newTables, chosen, done, rfl⟩
  rcases safe task chosen with ⟨within, apart, fits⟩
  have picked := (picked_of_pickCompaction chosen).1
  have feasible := feasible_of_picked ordered free picked
  have count := length_newTables_le ordered feasible done
  have counter : addUint64 db.nextMemID newTables.length = db.nextMemID + newTables.length :=
    addUint64_eq (by omega)
  rw [counter]
  have bumped : ({ db with nextMemID := db.nextMemID + newTables.length } : DB).Ordered :=
    ordered.withNextMemID _
  have bumpedIds : ({ db with nextMemID := db.nextMemID + newTables.length } : DB).Identified :=
    identified.withNextMemID (Nat.le_add_right _ _)
  have ids := newTables_ids done (by omega)
  refine ⟨bumped.compacted bumpedIds free picked within apart done, ?_,
    counters_applyCompactionResult.2,
    bumped.mem_entries_compacted bumpedIds free picked within done⟩
  exact identified.compacted memtables_applyCompactionResult
    (fun r => mem_tables_of_applyCompactionResult) ids counters_applyCompactionResult.1

end DB

end Theseon
