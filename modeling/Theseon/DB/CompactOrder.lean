import Theseon.DB.Ordered

/-!
# Compactions and the age order

A compaction moves its inputs into the next level.  It keeps the age order of
the levels when no table that stays behind in the input level holds a version of
a user key that moves: such a version is older, and would be found first.
-/

namespace Theseon

open Lib KV SSTable Compaction List

/-- Where the inputs of a task are. -/
structure Located (state : LevelState) (task : CompactionTask) : Prop where
  inputs : task.inputs.Sublist
    (if task.inputLevel = 0 then state.l0 else state.level task.inputLevel)
  overlapping : task.overlapping.Sublist (state.level task.outputLevel)
  different : task.inputLevel ≠ task.outputLevel
  below : 0 < task.outputLevel

theorem located_of_picked {state : LevelState} {task : CompactionTask}
    (picked : Picked state task) : Located state task := by
  cases picked with
  | l0 nonempty range =>
    exact ⟨List.Sublist.refl _, filter_sublist, Nat.zero_ne_one, Nat.one_pos⟩
  | @level i input rest positive first =>
    refine ⟨?_, filter_sublist, Nat.ne_of_lt (Nat.lt_succ_self i), Nat.succ_pos i⟩
    rw [if_neg (Nat.ne_of_gt positive), first]
    exact singleton_sublist.mpr mem_cons_self

namespace DB

theorem level_eq_nil {db : DB} {i : Nat} (outside : ¬ i < db.levels.length) : db.level i = [] := by
  rw [level, getD_eq_getElem?_getD, getElem?_eq_none (not_lt.mp outside)]
  rfl

theorem level_set {db : DB} {i : Nat} (within : i < db.levels.length) (tables : List Reader)
    (j : Nat) :
    ({ db with levels := db.levels.set i tables } : DB).level j =
      if j = i then tables else db.level j := by
  simp only [level, getD_eq_getElem?_getD, getElem?_set]
  by_cases same : i = j
  · subst same
    simp [within]
  · simp [same, Ne.symm same]

/-- What holds of the levels whatever the age of the versions. -/
structure Leveled (db : DB) : Prop where
  sound : ∀ r ∈ db.tables, r.WellFormed ∧ r.Healthy
  disjoint : ∀ i, 0 < i → Disjoint (db.level i)
  distinct : ((entriesOf db.tables).map Entry.key).Nodup
  ids : ∀ r ∈ db.tables, ∀ t ∈ db.tables, r.id = t.id → r = t

/-- The task takes the tables of the output level that overlap the range of its
inputs. -/
structure Hull (db : DB) (task : CompactionTask) : Prop where
  positive : 0 < task.outputLevel
  inputs : ∀ r ∈ task.inputs, r ∈ db.tables
  overlapping : task.overlapping =
    findOverlapping (db.level task.outputLevel) task.minKey task.maxKey
  spans : Spans task.minKey task.maxKey (entriesOf task.inputs)

/-- What the picker guarantees about a task. -/
structure Feasible (db : DB) (task : CompactionTask) : Prop extends db.Hull task where
  newer : task.inputs.Pairwise fun first second => Newer first.entries second.entries
  above : Newer (entriesOf task.inputs) (db.levelEntries task.outputLevel)

/-- No table that stays behind in the input level shares a user key with the
inputs. -/
def ApartFromRest (db : DB) (task : CompactionTask) : Prop :=
  task.inputLevel ≠ 0 → ∀ r ∈ keepLive task (db.level task.inputLevel),
    UsersApart (entriesOf task.inputs) r.entries

instance (db : DB) (task : CompactionTask) : Decidable (db.ApartFromRest task) := by
  unfold ApartFromRest
  infer_instance

section

variable {db : DB} {task : CompactionTask}

theorem entriesOf_subset {tables : List Reader} (mem : ∀ r ∈ tables, r ∈ db.tables) :
    entriesOf tables ⊆ db.entries := fun _ entryMem =>
  mem_entries_iff.mpr (.inr (entriesOf_mono mem entryMem))

theorem Ordered.l0_newer (ordered : db.Ordered) :
    db.l0.Pairwise fun first second => Newer first.entries second.entries := by
  have newer := (pairwise_append.mp ordered.upper).2.1
  rwa [pairwise_map] at newer

theorem sources_eq_append (db : DB) :
    db.sources = db.memtables.map Source.memtable ++ db.tables.map Source.table := by
  rw [sources_eq, tables, map_append, append_assoc]

theorem Ordered.tables_newer (ordered : db.Ordered) :
    db.tables.Pairwise fun first second => Newer first.entries second.entries := by
  have newer := ordered.sources_newer
  rw [sources_eq_append, pairwise_append] at newer
  have tables := newer.2.1
  rw [pairwise_map] at tables
  exact tables

theorem Ordered.leveled (ordered : db.Ordered) (identified : db.Identified) : db.Leveled where
  sound := ordered.sound
  disjoint := ordered.disjoint
  distinct := nodup_keys_of_newer (fun r mem => (ordered.sound r mem).1) ordered.tables_newer
  ids := identified.tables

theorem mem_tables_of_located (located : Located db.buildLevelState task) {r : Reader}
    (mem : r ∈ task.allInputs) : r ∈ db.tables := by
  rw [mem_tables]
  rcases mem_append.mp mem with isInput | isOverlapping
  · have inLevel := located.inputs.subset isInput
    split at inLevel
    · exact .inl inLevel
    · rename_i positive
      exact .inr ⟨task.inputLevel, Nat.pos_of_ne_zero positive, inLevel⟩
  · exact .inr ⟨task.outputLevel, located.below, located.overlapping.subset isOverlapping⟩

theorem hull_of_picked (sound : ∀ r ∈ db.tables, r.WellFormed ∧ r.Healthy)
    (free : PrefixFree db.entries) (picked : Picked db.buildLevelState task) : db.Hull task := by
  have inputs : ∀ r ∈ task.inputs, r ∈ db.tables := fun r mem =>
    mem_tables_of_located (located_of_picked picked) (mem_append_left _ mem)
  have spans := @spans_of_bounds task.inputs (fun r mem => (sound r (inputs r mem)).1)
    (free.mono (entriesOf_subset inputs))
  cases picked with
  | l0 nonempty range =>
    rcases keyRange_bounds nonempty with ⟨lowKey, highKey, found, low, high, bounds⟩
    cases range.symm.trans found
    exact ⟨Nat.one_pos, inputs, rfl, spans low high bounds⟩
  | @level i => exact ⟨Nat.succ_pos i, inputs, rfl, spans (by simp) (by simp) (by simp)⟩

theorem feasible_of_picked (ordered : db.Ordered) (free : PrefixFree db.entries)
    (picked : Picked db.buildLevelState task) : db.Feasible task where
  toHull := hull_of_picked ordered.sound free picked
  newer := by
    cases picked with
    | l0 => exact ordered.l0_newer
    | level => exact pairwise_singleton _ _
  above := by
    intro entry entryMem
    rcases mem_entriesOf.mp entryMem with ⟨r, rMem, inTable⟩
    cases picked with
    | l0 =>
      exact ordered.upperLevels r.entries (mem_upper.mpr (.inr ⟨r, rMem, rfl⟩)) 1 Nat.one_pos
        entry inTable
    | @level i input rest positive first =>
      cases mem_singleton.mp rMem
      have inputMem : r ∈ db.level i := mem_of_mem_head? (congrArg List.head? first)
      exact ordered.levels i (i + 1) positive (Nat.lt_succ_self i) entry
        (entries_subset inputMem inTable)

namespace Hull

variable {r : Reader}

theorem allInputs_mem (hull : db.Hull task) (mem : r ∈ task.allInputs) : r ∈ db.tables := by
  rcases mem_append.mp mem with isInput | isOverlapping
  · exact hull.inputs r isInput
  · rw [hull.overlapping] at isOverlapping
    exact mem_tables.mpr (.inr ⟨_, hull.positive, (mem_filter.mp isOverlapping).1⟩)

/-- The tables of the task are recognised by their identifiers. -/
theorem mem_keepLive (hull : db.Hull task)
    (ids : ∀ r ∈ db.tables, ∀ t ∈ db.tables, r.id = t.id → r = t) {tables : List Reader}
    (known : r ∈ db.tables) (mem : r ∈ tables) (notInput : r ∉ task.allInputs) :
    r ∈ keepLive task tables := by
  rw [keepLive, mem_filter, decide_eq_true_eq, mem_map]
  refine ⟨mem, ?_⟩
  rintro ⟨t, tMem, sameId⟩
  rw [ids t (hull.allInputs_mem tMem) r known sameId] at tMem
  exact notInput tMem

theorem level_mem_tables (hull : db.Hull task) :
    ∀ r ∈ db.level task.outputLevel, r ∈ db.tables := fun _ mem =>
  mem_tables.mpr (.inr ⟨_, hull.positive, mem⟩)

/-- The tables of the output level that stay do not overlap. -/
theorem not_overlaps_of_keepLive (hull : db.Hull task)
    (mem : r ∈ keepLive task (db.level task.outputLevel)) :
    r ∈ db.level task.outputLevel ∧ overlaps task.minKey task.maxKey r = false := by
  rw [keepLive, mem_filter, decide_eq_true_eq] at mem
  refine ⟨mem.1, Bool.eq_false_iff.mpr fun overlapping => mem.2 ?_⟩
  apply mem_map_of_mem
  rw [CompactionTask.allInputs, hull.overlapping]
  exact mem_append_right _ (mem_filter.mpr ⟨mem.1, overlapping⟩)

/-- Everything that is merged comes from the inputs or from overlapping tables. -/
theorem entriesOf_allInputs (hull : db.Hull task) :
    entriesOf task.allInputs =
      merged (db.level task.outputLevel) (entriesOf task.inputs) task.minKey task.maxKey := by
  rw [merged, CompactionTask.allInputs, ← hull.overlapping, entriesOf, flatMap_append]
  rfl

section

variable (hull : db.Hull task) (leveled : db.Leveled) (free : PrefixFree db.entries)
  (distinct : ((entriesOf task.allInputs).map Entry.key).Nodup) {opts : ExecuteOptions}
  {newTables : List Reader} (done : execute opts task = .ok newTables)
include hull leveled free distinct done

/-- A table of the output level that does not overlap lies before or behind every
new table. -/
theorem before_or_output {r t : Reader} (rMem : r ∈ db.level task.outputLevel)
    (apart : overlaps task.minKey task.maxKey r = false) (tMem : t ∈ newTables) :
    Before r.entries t.entries ∨ Before t.entries r.entries := by
  have perm := (execute_healthy (fun r mem => leveled.sound r (hull.allInputs_mem mem)) distinct
    done).1
  have inputsLong : ∀ entry ∈ entriesOf task.inputs, entry.Long :=
    long_of_mem_entriesOf fun input mem => (leveled.sound input (hull.inputs input mem)).1
  have freeHere : PrefixFree (entriesOf task.inputs ++
      entriesOf (db.level task.outputLevel)) := by
    apply free.mono
    intro entry entryMem
    rcases mem_append.mp entryMem with isInput | inLevel
    · exact entriesOf_subset hull.inputs isInput
    · exact entriesOf_subset hull.level_mem_tables inLevel
  have inMerged : t.entries ⊆
      merged (db.level task.outputLevel) (entriesOf task.inputs) task.minKey task.maxKey := by
    intro entry entryMem
    rw [← hull.entriesOf_allInputs]
    exact perm.subset (entries_subset tMem entryMem)
  rcases before_or_of_not_overlaps
    (fun r mem => (leveled.sound r (hull.level_mem_tables r mem)).1)
    (leveled.disjoint _ hull.positive) inputsLong freeHere hull.spans rMem apart with
    before | behind
  · exact .inl fun a aMem b bMem => before a aMem b (inMerged bMem)
  · exact .inr fun b bMem a aMem => behind b (inMerged bMem) a aMem

/-- The output level after the compaction. -/
theorem newLevel (sorter : Sorter Reader.firstKey) :
    Disjoint (sorter.sort (keepLive task (db.level task.outputLevel) ++ newTables)) ∧
      (∀ r ∈ sorter.sort (keepLive task (db.level task.outputLevel) ++ newTables),
        r.WellFormed ∧ r.Healthy) ∧
      entriesOf (sorter.sort (keepLive task (db.level task.outputLevel) ++ newTables)) ⊆
        entriesOf task.inputs ++ db.levelEntries task.outputLevel := by
  rcases execute_healthy (fun r mem => leveled.sound r (hull.allInputs_mem mem)) distinct done
    with ⟨perm, newDisjoint, newSound⟩
  have sound : ∀ r ∈ keepLive task (db.level task.outputLevel) ++ newTables,
      r.WellFormed ∧ r.Healthy := by
    intro r rMem
    rcases mem_append.mp rMem with stays | isNew
    · exact leveled.sound r (hull.level_mem_tables r (hull.not_overlaps_of_keepLive stays).1)
    · exact newSound r isNew
  refine ⟨?_, ?_, ?_⟩
  · apply disjoint_sort sorter fun r mem => (sound r mem).1
    rw [pairwise_append]
    refine ⟨?_, newDisjoint.imp .inl, ?_⟩
    · exact ((leveled.disjoint _ hull.positive).sublist filter_sublist).imp .inl
    intro r rMem t tMem
    rcases hull.not_overlaps_of_keepLive rMem with ⟨inLevel, apart⟩
    exact hull.before_or_output leveled free distinct done inLevel apart tMem
  · intro r rMem
    exact sound r (sorter.mem_sort.mp rMem)
  · intro entry entryMem
    rcases mem_entriesOf.mp entryMem with ⟨r, rMem, inTable⟩
    rw [mem_append]
    rcases mem_append.mp (sorter.mem_sort.mp rMem) with stays | isNew
    · exact .inr (entries_subset (hull.not_overlaps_of_keepLive stays).1 inTable)
    have inInputs := perm.subset (entries_subset isNew inTable)
    rw [hull.entriesOf_allInputs] at inInputs
    rcases mem_append.mp inInputs with isInput | overlapped
    · exact .inl isInput
    · exact .inr (entriesOf_mono filter_sublist.subset overlapped)

end

end Hull

namespace Feasible

theorem sound_allInputs (feasible : db.Feasible task) (ordered : db.Ordered) :
    ∀ r ∈ task.allInputs, r.WellFormed ∧ r.Healthy := fun r mem =>
  ordered.sound r (feasible.allInputs_mem mem)

theorem newer_allInputs (feasible : db.Feasible task) (ordered : db.Ordered) :
    task.allInputs.Pairwise fun first second => Newer first.entries second.entries := by
  rw [CompactionTask.allInputs, pairwise_append, feasible.overlapping]
  refine ⟨feasible.newer, ?_, ?_⟩
  · exact ((ordered.disjoint _ feasible.positive).newer fun r mem =>
      ordered.wellFormed_level feasible.positive mem).sublist filter_sublist
  intro first firstMem second secondMem
  exact feasible.above.mono (entries_subset firstMem)
    (entries_subset (mem_filter.mp secondMem).1)

theorem distinct_allInputs (feasible : db.Feasible task) (ordered : db.Ordered) :
    ((entriesOf task.allInputs).map Entry.key).Nodup :=
  nodup_keys_of_newer (fun r mem => (feasible.sound_allInputs ordered r mem).1)
    (feasible.newer_allInputs ordered)

end Feasible

/-! ## Moving the inputs down -/

/-- The order is kept when entries move into a level above which everything is
newer than they are and below which everything is older. -/
theorem Ordered.moved (ordered : db.Ordered) (inputs : List Entry) (out : Nat) {next : DB}
    (memtables : next.memtables = db.memtables) (l0 : next.l0.Sublist db.l0)
    (sound : ∀ i, 0 < i → ∀ r ∈ next.level i, r.WellFormed ∧ r.Healthy)
    (disjoint : ∀ i, 0 < i → Disjoint (next.level i))
    (others : ∀ i, 0 < i → i ≠ out → next.levelEntries i ⊆ db.levelEntries i)
    (output : next.levelEntries out ⊆ inputs ++ db.levelEntries out)
    (upperNewer : ∀ entries ∈ next.upper, Newer entries inputs)
    (aboveNewer : ∀ i, 0 < i → i < out → Newer (next.levelEntries i) inputs)
    (belowOlder : ∀ i, out < i → Newer inputs (db.levelEntries i)) (positive : 0 < out) :
    next.Ordered := by
  have upperSub : next.upper.Sublist db.upper := by
    rw [DB.upper, DB.upper, memtables]
    exact (List.Sublist.refl _).append (l0.map _)
  constructor
  · rw [memtables]
    exact ordered.long
  · intro r rMem
    rcases mem_tables.mp rMem with inL0 | ⟨i, iPositive, inLevel⟩
    · exact ordered.sound r (mem_tables.mpr (.inl (l0.subset inL0)))
    · exact sound i iPositive r inLevel
  · exact ordered.upper.sublist upperSub
  · intro entries entriesMem i iPositive
    by_cases isOut : i = out
    · subst isOut
      have both : Newer entries (inputs ++ db.levelEntries i) := newer_append_right.mpr
        ⟨upperNewer entries entriesMem,
          ordered.upperLevels entries (upperSub.subset entriesMem) i iPositive⟩
      exact both.mono (List.Subset.refl _) output
    · exact (ordered.upperLevels entries (upperSub.subset entriesMem) i iPositive).mono
        (List.Subset.refl _) (others i iPositive isOut)
  · intro i j iPositive less
    by_cases jOut : j = out
    · subst jOut
      have both : Newer (next.levelEntries i) (inputs ++ db.levelEntries j) :=
        newer_append_right.mpr ⟨aboveNewer i iPositive less,
          (ordered.levels i j iPositive less).mono (others i iPositive (by omega))
            (List.Subset.refl _)⟩
      exact both.mono (List.Subset.refl _) output
    have jOthers := others j (by omega) jOut
    by_cases iOut : i = out
    · subst iOut
      have both : Newer (inputs ++ db.levelEntries i) (db.levelEntries j) :=
        newer_append_left.mpr ⟨belowOlder j less, ordered.levels i j iPositive less⟩
      exact both.mono output jOthers
    · exact (ordered.levels i j iPositive less).mono (others i iPositive iOut) jOthers
  · exact disjoint

/-- The identifiers of the new tables follow the counter. -/
theorem fresh_of_ids {newTables : List Reader} {nextMemID : Nat}
    (ids : newTables.map Reader.id =
      (List.range newTables.length).map fun n => nextMemID + (n + 1)) :
    (newTables.map Reader.id).Nodup ∧
      ∀ r ∈ newTables, nextMemID < r.id ∧ r.id ≤ nextMemID + newTables.length := by
  constructor
  · rw [ids]
    exact List.Nodup.map (fun a b same => by omega) nodup_range
  · intro r rMem
    have idMem : r.id ∈ newTables.map Reader.id := mem_map_of_mem rMem
    rw [ids, mem_map] at idMem
    rcases idMem with ⟨n, nMem, idEq⟩
    have := mem_range.mp nMem
    omega

/-- Tables with fresh identifiers may be added and tables may be dropped. -/
theorem Identified.compacted (identified : db.Identified) {next : DB} {newTables : List Reader}
    (memtables : next.memtables = db.memtables)
    (tables : ∀ r ∈ next.tables, r ∈ db.tables ∨ r ∈ newTables)
    (ids : newTables.map Reader.id =
      (List.range newTables.length).map fun n => db.nextMemID + (n + 1))
    (counter : next.nextMemID = db.nextMemID + newTables.length) : next.Identified := by
  rcases fresh_of_ids ids with ⟨distinct, fresh⟩
  rw [← counter] at fresh
  constructor
  · rw [memtables]
    intro m mMem
    have := identified.memtableBound m mMem
    omega
  · intro r rMem
    rcases tables r rMem with old | isNew
    · have := identified.tableBound r old
      omega
    · exact (fresh r isNew).2
  · rw [memtables]
    exact identified.memtables
  · rw [memtables]
    intro m mMem r rMem
    rcases tables r rMem with old | isNew
    · exact identified.apart m mMem r old
    have := identified.memtableBound m mMem
    have := fresh r isNew
    omega
  · intro r rMem t tMem sameId
    rcases tables r rMem with rOld | rNew
    · rcases tables t tMem with tOld | tNew
      · exact identified.tables r rOld t tOld sameId
      · have := identified.tableBound r rOld
        have := fresh t tNew
        omega
    rcases tables t tMem with tOld | tNew
    · have := identified.tableBound t tOld
      have := fresh r rNew
      omega
    · exact inj_on_of_nodup_map distinct rNew tNew sameId

end

end DB

end Theseon
