import Theseon.Compaction.ReadErrors
import Theseon.DB.DistinctKeys

/-!
# Running compactions

A compaction whose output level exists keeps the entries of the engine and the order
of its levels.  Its outputs are dropped otherwise.

`runCompaction` picks and executes tasks until there is none.  Every task moves the
entries of its inputs one level down and adds none, so the loop ends.
-/

namespace Theseon

open Lib KV SSTable Compaction Iterator List

/-! ## One compaction -/

/-- The outputs are the merged inputs, the levels are in order and every entry is
kept. -/
structure DB.CompactsTo (db next : DB) (task : CompactionTask) (newTables : List Reader) :
    Prop where
  merged : (entriesOf newTables).Perm (entriesOf task.allInputs)
  ascending : Ascending (entriesOf newTables)
  bounds : ∀ r ∈ newTables, r.entries.head?.map Entry.key = some r.firstKey ∧
    r.entries.getLast?.map Entry.key = some r.lastKey
  disjoint : ∀ i, 0 < i → Disjoint (next.level i)
  entries : next.entries.Perm db.entries

section

variable {db : DB} {task : CompactionTask} {newTables : List Reader}
  {sorter : Sorter Reader.firstKey} {opts : ExecuteOptions}

theorem bounds_of_wellFormed {r : Reader} (wf : r.WellFormed) :
    r.entries.head?.map Entry.key = some r.firstKey ∧
      r.entries.getLast?.map Entry.key = some r.lastKey := by
  rw [lastKey_eq wf, lastKeyOf, getLast?_eq_some_getLast wf.nonempty]
  exact ⟨wf.firstKey, rfl⟩

theorem Located.allInputs_subperm (located : Located db.buildLevelState task) :
    task.allInputs.Subperm db.tables := by
  have moved := @DB.applyCompactionResult_subperm db task (Sorter.insertion _) [] located
  rw [append_nil] at moved
  exact (sublist_append_left _ _).subperm.trans moved

/-- The inputs are in the engine, so they share no key. -/
theorem DB.Leveled.distinct_allInputs (leveled : db.Leveled)
    (located : Located db.buildLevelState task) :
    ((entriesOf task.allInputs).map Entry.key).Nodup := by
  have distinct := leveled.distinct
  rw [entriesOf, map_key_entriesOf] at distinct ⊢
  rcases subperm_flatMap located.allInputs_subperm Reader.keys with ⟨kept, perm, sub⟩
  exact perm.nodup_iff.mp (distinct.sublist sub)

theorem DB.entries_eq (db : DB) :
    db.entries = db.memtables.flatMap Memtable.entries ++ entriesOf db.tables := by
  simp [DB.entries, DB.sources_eq_append, entriesOf, flatMap_map, Source.entries]

/-- Tables within the limits of the format can be merged. -/
theorem DB.Leveled.executes (leveled : db.Leveled) (located : Located db.buildLevelState task)
    (limits : ∀ r ∈ db.tables, ∀ entry ∈ r.entries, SSTable.InLimits entry.key entry.value)
    (small : opts.blockSize ≤ maxBlockOffset) : ∃ newTables, execute opts task = .ok newTables := by
  have known : ∀ r ∈ task.allInputs, r ∈ db.tables := fun r => DB.mem_tables_of_located located
  apply execute_succeeds (fun r mem => (leveled.sound r (known r mem)).1) _ small
  · intro r mem later
    exact later.2 (by rw [Reader.Healthy.readable_eq (leveled.sound r (known r mem)).2])
  · exact ⟨leveled.distinct_allInputs located, fun r mem => limits r (known r mem)⟩

/-- Without an output level the inputs are gone. -/
theorem entries_lost (leveled : db.Leveled) (picked : Picked db.buildLevelState task)
    (outside : ¬ task.outputLevel < db.levels.length) :
    ¬ (db.applyCompactionResult sorter task newTables).entries.Perm db.entries := by
  have located := located_of_picked picked
  have removed : db.applyCompactionResult sorter task newTables = db.removeInputs task := by
    rw [DB.applyCompactionResult, DB.installOutputs, DB.length_removeInputs, if_neg outside]
  intro perm
  have length := perm.length_eq
  have fewer := (subperm_flatMap (DB.removeInputs_subperm located) Reader.entries).length_le
  rcases exists_mem_of_ne_nil _ (picked_inputs_ne_nil picked) with ⟨r, rMem⟩
  have inTables := DB.mem_tables_of_located located (mem_append_left _ rMem)
  have positive : 0 < (task.inputs.flatMap Reader.entries).length := by
    rcases firstKey_mem (leveled.sound r inTables).1 with ⟨entry, mem, _⟩
    exact length_pos_of_mem (mem_flatMap.mpr ⟨r, rMem, mem⟩)
  rw [DB.entries_eq, DB.entries_eq, DB.memtables_applyCompactionResult, removed,
    length_append, length_append] at length
  rw [flatMap_append, length_append] at fewer
  simp only [entriesOf] at length
  omega

/-- On a sound level structure, `Execute` succeeds for every task that is picked, and
what it writes keeps the entries and the levels exactly when the output level exists. -/
theorem compactsTo_iff (leveled : db.Leveled) (free : PrefixFree db.entries) {cfg : Config}
    (picked : pickCompaction db.buildLevelState cfg = some task) (opts : ExecuteOptions)
    (sorter : Sorter Reader.firstKey) :
    (opts.blockSize ≤ maxBlockOffset →
      (∀ r ∈ db.tables, ∀ entry ∈ r.entries, SSTable.InLimits entry.key entry.value) →
      ∃ newTables, execute opts task = .ok newTables) ∧
    ∀ newTables, execute opts task = .ok newTables →
      (db.CompactsTo (db.applyCompactionResult sorter task newTables) task newTables ↔
        task.outputLevel < db.levels.length) := by
  have isPicked := (picked_of_pickCompaction picked).1
  have located := located_of_picked isPicked
  have placed := DB.placed_of_picked isPicked
  have hull := DB.hull_of_picked leveled.sound free isPicked
  have distinct := leveled.distinct_allInputs located
  have sound : ∀ r ∈ task.allInputs, r.WellFormed ∧ r.Healthy :=
    fun r mem => leveled.sound r (hull.allInputs_mem mem)
  refine ⟨fun small limits => leveled.executes located limits small,
    fun newTables done => ⟨?_, fun within => ?_⟩⟩
  · intro kept
    by_contra outside
    exact entries_lost leveled isPicked outside kept.entries
  rcases execute_healthy sound distinct done with ⟨perm, disjoint, newSound⟩
  refine ⟨perm, ?_, fun r mem => bounds_of_wellFormed (newSound r mem).1, ?_, ?_⟩
  · exact pairwise_flatMap.mpr ⟨fun r mem => (newSound r mem).1.ascending, disjoint⟩
  · intro i positive
    rw [DB.level_applyCompactionResult placed.different within]
    split
    · exact (hull.newLevel leveled free distinct done sorter).1
    · exact (leveled.disjoint i positive).sublist (DB.level_removeInputs_sublist i)
  · rw [DB.entries_eq, DB.entries_eq, DB.memtables_applyCompactionResult]
    apply List.Perm.append_left
    apply List.Subperm.antisymm
    · exact DB.flatMap_applyCompactionResult located perm.subperm
    apply leveled.distinct.of_map.subperm
    intro entry mem
    exact (DB.mem_entriesOf_compacted placed within hull leveled distinct done entry).mpr mem

end

/-- A compaction as soon as there is a table in L0. -/
def eagerConfig (maxLevels : Int) : Config where
  l0CompactionTrigger := 1
  levelSizeBase := 1024
  levelSizeMultiplier := 10
  maxLevels := maxLevels

/-- One table in L0. -/
def oneTable (levels : Nat) : DB :=
  { DB.fresh { defaultOptions with compaction := eagerConfig levels } with
    l0 := [oneEntryTable .none] }

/-- Its compaction into L1. -/
def oneTableTask : CompactionTask :=
  { oneEntryTask .none with inputLevel := 0, outputLevel := 1 }

theorem oneTable_tables (levels : Nat) : (oneTable levels).tables = [oneEntryTable .none] := by
  simp [oneTable, DB.tables, DB.fresh, DB.newMemtable]

theorem oneTable_leveled (levels : Nat) : (oneTable levels).Leveled where
  sound := by
    rw [oneTable_tables]
    simpa using ⟨oneEntryTable_wellFormed .none, fun _ => rfl, fun _ _ => rfl⟩
  disjoint i _ := by
    have empty : (oneTable levels).level i = [] := by
      simp only [DB.level, oneTable, DB.fresh, DB.newMemtable, getD_eq_getElem?_getD,
        getElem?_replicate]
      split <;> rfl
    rw [empty]
    exact List.Pairwise.nil
  distinct := by
    rw [oneTable_tables]
    simp [entriesOf, oneEntryTable, Reader.entries]
  ids := by
    rw [oneTable_tables]
    simp

theorem oneTable_inLimits (levels : Nat) : ∀ r ∈ (oneTable levels).tables, ∀ entry ∈ r.entries,
    SSTable.InLimits entry.key entry.value := by
  rw [oneTable_tables]
  decide

/-- With two levels the compaction of L0 keeps its entry. -/
theorem compactsTo_two_levels :
    ∃ newTables, execute defaultExecuteOptions oneTableTask = .ok newTables ∧
      (oneTable 2).CompactsTo
        ((oneTable 2).applyCompactionResult (Sorter.insertion _) oneTableTask newTables)
        oneTableTask newTables := by
  have free : PrefixFree (oneTable 2).entries := by decide
  rcases compactsTo_iff (oneTable_leveled 2) free (rfl : pickCompaction _ (eagerConfig 2) = _)
    defaultExecuteOptions (Sorter.insertion _) with ⟨executes, keeps⟩
  rcases executes (by decide) (oneTable_inLimits 2) with ⟨newTables, done⟩
  exact ⟨newTables, done, (keeps newTables done).mpr (by decide)⟩

/-- With one level the compaction of L0 finds no output level, and its outputs are
dropped. -/
theorem outputs_dropped :
    ∃ newTables, pickCompaction (oneTable 1).buildLevelState (eagerConfig 1) = some oneTableTask ∧
      execute defaultExecuteOptions oneTableTask = .ok newTables ∧
      ¬ ((oneTable 1).applyCompactionResult (Sorter.insertion _) oneTableTask
        newTables).entries.Perm (oneTable 1).entries := by
  have picked : pickCompaction (oneTable 1).buildLevelState (eagerConfig 1) = some oneTableTask :=
    rfl
  have isPicked := (picked_of_pickCompaction picked).1
  rcases (oneTable_leveled 1).executes (located_of_picked isPicked) (oneTable_inLimits 1)
    (by decide : defaultExecuteOptions.blockSize ≤ maxBlockOffset) with ⟨newTables, done⟩
  exact ⟨newTables, picked, done, entries_lost (oneTable_leveled 1) isPicked (by decide)⟩

/-! ## The loop -/

namespace Compaction

/-- An output of `n` entries at most, in tables that are not empty. -/
structure Output.Filled (out : Output) (n : Nat) : Prop where
  tables : ∀ r ∈ out.tables, r.entries ≠ []
  builder : ∀ b, out.builder = some b → b.contents ≠ []
  count : (entriesOf out.tables).length + (out.builder.elim [] Builder.contents).length ≤ n

section

variable {opts : ExecuteOptions} {out next : Output} {n : Nat}

theorem Output.Filled.finishCurrentBuilder (filled : out.Filled n)
    (done : out.finishCurrentBuilder = .ok next) : next.Filled n ∧ next.builder = none := by
  rw [Output.finishCurrentBuilder] at done
  split at done
  · rename_i idle
    cases done
    exact ⟨filled, idle⟩
  rename_i builder started
  split at done
  · cases done
  rename_i table finished
  cases done
  have entries := Builder.finish_entries finished
  have count := filled.count
  rw [started] at count
  refine ⟨⟨?_, by simp, ?_⟩, rfl⟩
  · intro r rMem
    rcases mem_append.mp rMem with old | isNew
    · exact filled.tables r old
    · rw [mem_singleton.mp isNew, entries]
      exact filled.builder builder started
  · simpa [entriesOf, entries] using count

/-- One round of the loop writes one entry. -/
theorem Output.Filled.write (filled : out.Filled n) {pair : Bytes × Option Bytes}
    (done : out.write opts pair = .ok next) : next.Filled (n + 1) := by
  rw [Output.write] at done
  split at done
  · cases done
  rename_i added addEq
  have contents := (Builder.add_eq_ok addEq).2.1
  have current : (out.current opts).contents = out.builder.elim [] Builder.contents := by
    rw [Output.current]
    cases out.builder <;> rfl
  have grown : ({ out with builder := some added } : Output).Filled (n + 1) := by
    refine ⟨filled.tables, ?_, ?_⟩
    · intro b isAdded
      rw [← Option.some.inj isAdded, contents]
      exact append_ne_nil_of_right_ne_nil _ (cons_ne_nil _ _)
    have count := filled.count
    simp only [Option.elim_some, contents, current, length_append, length_singleton]
    omega
  simp only at done
  split at done
  · exact (grown.finishCurrentBuilder done).1
  · cases done
    exact grown

theorem executeLoop_filled {fuel : Nat} {merge final : MergeIterator SSTableIterator ReadError}
    (filled : out.Filled n) (done : executeLoop opts fuel merge out = .ok (final, next)) :
    next.Filled (n + fuel) := by
  induction fuel generalizing merge out n with
  | zero =>
    cases done
    exact filled
  | succ fuel ih =>
    rw [executeLoop] at done
    split at done
    · split at done
      · cases done
      · rename_i written wrote
        have rest := ih (filled.write wrote) done
        rwa [Nat.add_assoc, Nat.add_comm 1] at rest
    · cases done
      exact ⟨filled.tables, filled.builder, filled.count.trans (Nat.le_add_right _ _)⟩

/-- `Execute` writes no more entries than it was given, in tables that are not empty. -/
theorem execute_filled {task : CompactionTask} {newTables : List Reader}
    (done : execute opts task = .ok newTables) :
    (∀ r ∈ newTables, r.entries ≠ []) ∧
      (entriesOf newTables).length ≤ (entriesOf task.allInputs).length := by
  have size : task.size = (entriesOf task.allInputs).length := by
    rw [CompactionTask.size, entriesOf, length_flatMap]
  rw [execute] at done
  split at done
  · cases done
  rename_i merge out looped
  split at done
  · cases done
  rcases map_eq_ok.mp done with ⟨last, finished, rfl⟩
  have start : Output.empty.Filled 0 :=
    ⟨by simp [Output.empty], by simp [Output.empty], le_rfl⟩
  rcases (executeLoop_filled start looped).finishCurrentBuilder finished with ⟨filled, idle⟩
  have count := filled.count
  rw [idle, size, Nat.zero_add] at count
  exact ⟨filled.tables, count⟩

end

end Compaction

namespace DB

/-- The entries of the levels, each counted with the levels that are left below it. -/
def weigh : Nat → List (List Reader) → Nat
  | _, [] => 0
  | left, tables :: levels => (entriesOf tables).length * left + weigh (left - 1) levels

/-- The sum over all entries in tables of `maxLevels` minus their level. -/
def weight (maxLevels : Nat) (db : DB) : Nat :=
  (entriesOf db.l0).length * maxLevels + weigh (maxLevels - 1) (db.levels.drop 1)

/-- `runCompaction`, for `rounds` looks at the levels; `none` when it goes on. -/
def runCompaction (opts : Options) (sorter : Sorter Reader.firstKey) : Nat → DB → Option DB
  | 0, _ => none
  | rounds + 1, db =>
    match db.compact opts sorter with
    | none => some db
    | some next => next.runCompaction opts sorter rounds

theorem weigh_set (left : Nat) {levels : List (List Reader)} {i : Nat}
    (within : i < levels.length) (tables : List Reader) :
    weigh left (levels.set i tables) + (entriesOf (levels.getD i [])).length * (left - i) =
      weigh left levels + (entriesOf tables).length * (left - i) := by
  induction levels generalizing left i with
  | nil => exact absurd within (Nat.not_lt_zero _)
  | cons first rest ih =>
    cases i with
    | zero =>
      simp only [set_cons_zero, weigh, getD_cons_zero, Nat.sub_zero]
      omega
    | succ i =>
      have rest := ih (left - 1) (Nat.lt_of_succ_lt_succ within)
      simp only [set_cons_succ, weigh, getD_cons_succ]
      rw [Nat.sub_sub, Nat.add_comm 1] at rest
      omega

variable {db : DB} {task : CompactionTask} {sorter : Sorter Reader.firstKey}
  {newTables : List Reader} {maxLevels : Nat}

theorem weight_set {i : Nat} (positive : 0 < i) (within : i < db.levels.length)
    (tables : List Reader) :
    ({ db with levels := db.levels.set i tables } : DB).weight maxLevels +
        (entriesOf (db.level i)).length * (maxLevels - i) =
      db.weight maxLevels + (entriesOf tables).length * (maxLevels - i) := by
  have exchanged := @weigh_set (maxLevels - 1) (db.levels.drop 1) (i - 1)
    (by rw [length_drop]; omega) tables
  rw [getD_drop_levels positive, Nat.sub_sub, Nat.add_sub_cancel' positive] at exchanged
  simp only [weight, drop_set_levels positive]
  omega

/-- What is taken out of a level and what stays there. -/
theorem length_keepLive {taken tables : List Reader} (sub : taken.Sublist tables)
    (inputs : taken ⊆ task.allInputs) :
    (entriesOf taken).length + (entriesOf (keepLive task tables)).length ≤
      (entriesOf tables).length := by
  have fewer := (subperm_flatMap (append_keepLive_subperm sub inputs) Reader.entries).length_le
  rwa [flatMap_append, length_append] at fewer

theorem weight_removeInputs (located : Located db.buildLevelState task) :
    (db.removeInputs task).weight maxLevels +
        (entriesOf task.inputs).length * (maxLevels - task.inputLevel) ≤
      db.weight maxLevels := by
  have sub := located.inputs
  have inputs : task.inputs ⊆ task.allInputs := subset_append_left _ _
  rw [removeInputs]
  split at sub
  · rename_i isL0
    have fewer := Nat.mul_le_mul_right maxLevels (length_keepLive sub inputs)
    rw [if_pos isL0, isL0, weight, weight, Nat.sub_zero]
    rw [Nat.add_mul] at fewer
    simp only [buildLevelState] at fewer ⊢
    omega
  rename_i positive
  have fewer := Nat.mul_le_mul_right (maxLevels - task.inputLevel) (length_keepLive sub inputs)
  rw [Nat.add_mul] at fewer
  rw [if_neg positive]
  split
  · rename_i within
    have exchanged := @weight_set db maxLevels _ (Nat.pos_of_ne_zero positive) within
      (keepLive task (db.level task.inputLevel))
    change _ ≤ (entriesOf (db.level task.inputLevel)).length * _ at fewer
    change (entriesOf task.inputs).length * _ +
      (entriesOf (keepLive task (db.level task.inputLevel))).length * _ ≤ _ at fewer
    omega
  rename_i outside
  change task.inputs.Sublist (db.level task.inputLevel) at sub
  rw [level_eq_nil outside] at sub
  rw [sublist_nil.mp sub]
  simp [entriesOf]

theorem weight_installOutputs (below : 0 < task.outputLevel)
    (sub : task.overlapping.Sublist (db.level task.outputLevel))
    (count : (entriesOf newTables).length ≤ (entriesOf task.allInputs).length) :
    (db.installOutputs sorter task newTables).weight maxLevels ≤
      db.weight maxLevels +
        (entriesOf task.inputs).length * (maxLevels - task.outputLevel) := by
  rw [installOutputs]
  split
  · rename_i within
    have exchanged := @weight_set db maxLevels _ below within
      (sorter.sort (keepLive task (db.level task.outputLevel) ++ newTables))
    have sorted := ((sorter.perm
      (keepLive task (db.level task.outputLevel) ++ newTables)).flatMap_right
        Reader.entries).length_eq
    have fewer := length_keepLive sub (subset_append_right task.inputs task.overlapping)
    have more : (entriesOf (sorter.sort
        (keepLive task (db.level task.outputLevel) ++ newTables))).length ≤
        (entriesOf (db.level task.outputLevel)).length + (entriesOf task.inputs).length := by
      simp only [entriesOf, CompactionTask.allInputs, flatMap_append, length_append]
        at sorted fewer count ⊢
      omega
    have scaled := Nat.mul_le_mul_right (maxLevels - task.outputLevel) more
    rw [Nat.add_mul] at scaled
    omega
  · exact Nat.le_add_right _ _

/-- A round makes the weight smaller. -/
theorem weight_compact {opts : Options} {next : DB} (two : 2 ≤ opts.compaction.maxLevels)
    (nonempty : ∀ r ∈ db.tables, r.entries ≠ [])
    (compacted : db.compact opts sorter = some next) :
    next.weight opts.compaction.maxLevels.toNat < db.weight opts.compaction.maxLevels.toNat ∧
      ∀ r ∈ next.tables, r.entries ≠ [] := by
  rcases compact_eq_some compacted with ⟨task, newTables, picked, done, rfl⟩
  rcases picked_of_pickCompaction picked with ⟨isPicked, level⟩
  have located := located_of_picked isPicked
  have placed := placed_of_picked isPicked
  rcases execute_filled done with ⟨newNonempty, count⟩
  constructor
  · have removed := @weight_removeInputs
      { db with nextMemID := addUint64 db.nextMemID newTables.length } task
      opts.compaction.maxLevels.toNat located
    have overlapping : task.overlapping.Sublist (db.level task.outputLevel) := located.overlapping
    have installed := @weight_installOutputs
      (({ db with nextMemID := addUint64 db.nextMemID newTables.length } : DB).removeInputs task)
      task sorter newTables opts.compaction.maxLevels.toNat located.below
      (by rwa [level_removeInputs located.different]) count
    have inputs : 0 < (entriesOf task.inputs).length := by
      rcases exists_mem_of_ne_nil _ (picked_inputs_ne_nil isPicked) with ⟨r, rMem⟩
      have inTables := mem_tables_of_located located (mem_append_left _ rMem)
      rcases exists_mem_of_ne_nil _ (nonempty r inTables) with ⟨entry, mem⟩
      exact length_pos_of_mem (mem_entriesOf.mpr ⟨r, rMem, mem⟩)
    have deeper : opts.compaction.maxLevels.toNat - task.outputLevel <
        opts.compaction.maxLevels.toNat - task.inputLevel := by
      by_cases isL0 : task.inputLevel = 0
      · have := (placed.fromL0 isL0).2
        omega
      · have := (placed.fromLevel isL0).1
        omega
    have less := Nat.mul_lt_mul_of_pos_left deeper inputs
    have same : ({ db with nextMemID := addUint64 db.nextMemID newTables.length } : DB).weight
      opts.compaction.maxLevels.toNat = db.weight opts.compaction.maxLevels.toNat := rfl
    rw [applyCompactionResult]
    omega
  · intro r rMem
    rcases mem_tables_of_applyCompactionResult rMem with old | isNew
    · exact nonempty r old
    · exact newNonempty r isNew

theorem runCompaction_of_lt {opts : Options} (two : 2 ≤ opts.compaction.maxLevels)
    (nonempty : ∀ r ∈ db.tables, r.entries ≠ []) {rounds : Nat}
    (enough : db.weight opts.compaction.maxLevels.toNat < rounds) :
    ∃ final, db.runCompaction opts sorter rounds = some final ∧
      final.compact opts sorter = none := by
  induction rounds generalizing db with
  | zero => exact absurd enough (Nat.not_lt_zero _)
  | succ rounds ih =>
    rw [runCompaction]
    cases compacted : db.compact opts sorter with
    | none => exact ⟨db, rfl, compacted⟩
    | some next =>
      rcases weight_compact two nonempty compacted with ⟨less, nextNonempty⟩
      exact ih nextNonempty (by omega)

/-- With at least two levels and no empty table the loop ends after at most as many
rounds as the entries can move down, with nothing left to pick or with a failed
`Execute`. -/
theorem runCompaction_stops {opts : Options} (two : 2 ≤ opts.compaction.maxLevels)
    (sorter : Sorter Reader.firstKey) {db : DB} (nonempty : ∀ r ∈ db.tables, r.entries ≠ []) :
    ∃ final, db.runCompaction opts sorter (db.weight opts.compaction.maxLevels.toNat + 1) =
        some final ∧
      (pickCompaction final.buildLevelState opts.compaction = none ∨
        ∃ task err, pickCompaction final.buildLevelState opts.compaction = some task ∧
          execute (executeOptions opts final.nextMemID) task = .error err) := by
  rcases @runCompaction_of_lt db sorter opts two nonempty _ (Nat.lt_succ_self _) with
    ⟨final, ended, stopped⟩
  refine ⟨final, ended, ?_⟩
  rw [compact] at stopped
  split at stopped
  · exact .inl ‹_›
  rename_i task picked
  split at stopped
  · exact .inr ⟨task, _, picked, ‹_›⟩
  · cases stopped

/-- The one entry of the table can move down twice at most. -/
theorem runCompaction_oneTable :
    ∃ final, (oneTable 2).runCompaction { defaultOptions with compaction := eagerConfig 2 }
        (Sorter.insertion _) 3 = some final ∧
      (pickCompaction final.buildLevelState (eagerConfig 2) = none ∨
        ∃ task err, pickCompaction final.buildLevelState (eagerConfig 2) = some task ∧
          execute (executeOptions { defaultOptions with compaction := eagerConfig 2 }
            final.nextMemID) task = .error err) :=
  @runCompaction_stops { defaultOptions with compaction := eagerConfig 2 } (by decide)
    (Sorter.insertion _) (oneTable 2)
    (fun r mem => ((oneTable_leveled 2).sound r mem).1.nonempty)

end DB

end Theseon
