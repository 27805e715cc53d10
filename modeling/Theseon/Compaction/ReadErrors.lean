import Theseon.Compaction.KeyOrder
import Theseon.SSTable.Limits

/-!
# Compactions of damaged tables

An input whose first block or first entry cannot be read looks empty to the
merge.  Its entries are left out of the output without an error, unless another
input fails at a later entry.  Every other read error aborts the compaction.
-/

namespace Theseon.Compaction

open Lib KV SSTable Iterator List

/-! ## Compactions within the limits succeed -/

namespace Output

variable {opts : ExecuteOptions} {out : Output} {written : List Entry}

/-- The table being written, if any, will not fail. -/
def Fits (out : Output) : Prop :=
  ∀ b, out.builder = some b → b.Fits

theorem Holds.finish_succeeds (holds : Holds out written) (fits : out.Fits) :
    ∃ next, out.finishCurrentBuilder = .ok next ∧ next.Fits := by
  unfold Output.finishCurrentBuilder
  cases started : out.builder with
  | none => exact ⟨out, rfl, fits⟩
  | some b =>
    obtain ⟨sound, nonempty⟩ := holds.builder b started
    obtain ⟨r, finished⟩ := (fits b started).finish sound nonempty
    exact ⟨⟨out.tables ++ [r], none⟩, by simp [finished], by simp [Fits]⟩

/-- A pair above all earlier ones can be written. -/
theorem Holds.write_succeeds (holds : Holds out written) (fits : out.Fits)
    (small : opts.blockSize ≤ maxBlockOffset) {pair : Bytes × Option Bytes}
    (long : seqSize ≤ pair.1.length) (limits : InLimits pair.1 (mergedValue pair.2))
    (above : ∀ entry ∈ written, entry.key < pair.1) :
    ∃ next, out.write opts pair = .ok next ∧ next.Fits := by
  have currentFits : (out.current opts).Fits := by
    rw [Output.current]
    cases started : out.builder with
    | none => exact Builder.new_fits _ small
    | some b => exact fits b started
  obtain ⟨added, addEq, addedFits⟩ := Builder.Fits.add (holds.current opts).1 currentFits limits
    (holds.current_below above)
  have grownFits : Fits { out with builder := some added } := by
    rintro b isAdded
    obtain rfl : added = b := Option.some.inj isAdded
    exact addedFits
  unfold Output.write
  simp only [addEq]
  split
  · exact (holds.add long addEq).finish_succeeds grownFits
  · exact ⟨_, rfl, grownFits⟩

theorem Holds.writeAll_succeeds (holds : Holds out written) (fits : out.Fits)
    (small : opts.blockSize ≤ maxBlockOffset) {pairs : List (Bytes × Option Bytes)}
    (long : ∀ pair ∈ pairs, seqSize ≤ pair.1.length)
    (limits : ∀ pair ∈ pairs, InLimits pair.1 (mergedValue pair.2))
    (ascending : Ascending (written ++ pairs.map mergedEntry)) :
    ∃ next, Compaction.writeAll opts out pairs = .ok next ∧ next.Fits := by
  induction pairs generalizing out written with
  | nil => exact ⟨out, rfl, fits⟩
  | cons pair rest ih =>
    have above : ∀ entry ∈ written, entry.key < pair.1 := fun entry entryMem =>
      (pairwise_append.mp ascending).2.2 entry entryMem (mergedEntry pair) (by simp)
    obtain ⟨next, wrote, nextFits⟩ := holds.write_succeeds fits small (long pair (by simp))
      (limits pair (by simp)) above
    simp only [Compaction.writeAll, wrote]
    refine ih (holds.write (long pair (by simp)) wrote) nextFits
      (fun p pMem => long p (mem_cons_of_mem _ pMem))
      (fun p pMem => limits p (mem_cons_of_mem _ pMem)) ?_
    simpa using ascending

end Output

namespace CompactionTask

/-- The inputs of a task as the engine produces them: no version is stored
twice and every entry fits the block format. -/
structure InLimits (task : CompactionTask) : Prop where
  distinct : ((task.allInputs.flatMap Reader.entries).map Entry.key).Nodup
  entries : ∀ r ∈ task.allInputs, ∀ entry ∈ r.entries, SSTable.InLimits entry.key entry.value

end CompactionTask

variable {task : CompactionTask} {opts : ExecuteOptions}

/-- A merge that ends without an error is written out without an error. -/
theorem execute_succeeds (wf : ∀ r ∈ task.allInputs, r.WellFormed) (inLimits : task.InLimits)
    (small : opts.blockSize ≤ maxBlockOffset)
    (noneLater : ∀ r ∈ task.allInputs, ¬ r.UnreadableLater) :
    ∃ tables, execute opts task = .ok tables := by
  obtain ⟨emitted, final, drains, sub, sorted, complete, blamed⟩ := task.merge_drains wf
  cases final with
  | some e =>
    obtain ⟨r, rMem, later⟩ := blamed e rfl
    exact absurd later (noneLater r rMem)
  | none =>
    have perm := (complete rfl).1
    have long : ∀ pair ∈ emitted, seqSize ≤ pair.1.length := by
      intro pair pairMem
      obtain ⟨r, rMem, entry, inEntries, rfl⟩ :=
        CompactionTask.exists_entry_of_emitted sub pairMem
      exact (wf r rMem).long entry inEntries
    have limits : ∀ pair ∈ emitted, SSTable.InLimits pair.1 (mergedValue pair.2) := by
      intro pair pairMem
      obtain ⟨r, rMem, entry, inEntries, rfl⟩ :=
        CompactionTask.exists_entry_of_emitted sub pairMem
      have fits := inLimits.entries r rMem entry inEntries
      rwa [← mergedEntry_shown ((wf r rMem).clean entry inEntries)] at fits
    have strict := CompactionTask.Distinct.ascending inLimits.distinct sub sorted
    have ascending : Ascending ([] ++ emitted.map mergedEntry) :=
      strict.map mergedEntry fun _ _ below => below
    obtain ⟨out, wrote, outFits⟩ := Output.empty_holds.writeAll_succeeds
      (by simp [Output.Fits, Output.empty]) small long limits ascending
    have holds := Output.empty_holds.writeAll long wrote
    obtain ⟨last, finished, _⟩ := holds.finish_succeeds outFits
    rw [execute_eq drains (CompactionTask.emitted_length_le sub), wrote]
    exact ⟨last.tables, by simp [finished, Except.map]⟩

/-! ## Which read errors a compaction reports -/

/-- A compaction either fails or carries every entry of every input over. -/
def KeepsAllData (opts : ExecuteOptions) (task : CompactionTask) : Prop :=
  ∀ tables, execute opts task = .ok tables →
    ∀ r ∈ task.allInputs, ∀ entry ∈ r.entries, ∃ table ∈ tables, entry ∈ table.entries

/-- Every input can be read at its start, or some other input fails later. -/
def StartsReadable (task : CompactionTask) : Prop :=
  (∀ r ∈ task.allInputs, ¬ r.UnreadableStart) ∨ ∃ r ∈ task.allInputs, r.UnreadableLater

theorem keepsAllData_of_startsReadable (wf : ∀ r ∈ task.allInputs, r.WellFormed)
    (starts : StartsReadable task) :
    KeepsAllData opts task := by
  intro tables done r rMem entry entryMem
  obtain ⟨perm, _, _, ended⟩ := execute_eq_ok wf done
  have readToEnd : r.readable.2 = none := by
    rcases starts with all | ⟨other, otherMem, later⟩
    · exact (ended r rMem).resolve_left (all r rMem)
    · exact absurd ((ended other otherMem).resolve_left later.1) later.2
  have entryReadable : entry ∈ task.readable :=
    mem_flatMap.mpr ⟨r, rMem, (Reader.readable_eq_entries readToEnd).symm ▸ entryMem⟩
  exact mem_flatMap.mp (perm.symm.subset entryReadable)

theorem startsReadable_of_keepsAllData (wf : ∀ r ∈ task.allInputs, r.WellFormed)
    (inLimits : task.InLimits) (small : opts.blockSize ≤ maxBlockOffset)
    (keeps : KeepsAllData opts task) :
    StartsReadable task := by
  by_contra bad
  simp only [StartsReadable, not_or, not_forall, not_exists, not_and, not_not] at bad
  obtain ⟨⟨r, rMem, unreadable⟩, noneLater⟩ := bad
  obtain ⟨tables, done⟩ := execute_succeeds wf inLimits small noneLater
  obtain ⟨entry, entryMem⟩ := exists_mem_of_ne_nil _ (wf r rMem).nonempty
  obtain ⟨table, tableMem, inTable⟩ := keeps tables done r rMem entry entryMem
  obtain ⟨perm, _⟩ := execute_eq_ok wf done
  -- the entry was read, so it is in the readable part of some other input
  obtain ⟨other, otherMem, inOther⟩ := mem_flatMap.mp
    (perm.subset (mem_flatMap.mpr ⟨table, tableMem, inTable⟩))
  have nothing := (Reader.readable_eq_nil_iff (wf r rMem).nonempty
    (wf r rMem).blocksNonempty).mpr unreadable
  have different : r ≠ other := by
    rintro rfl
    simp [nothing] at inOther
  have distinct := inLimits.distinct
  rw [map_flatMap, nodup_flatMap] at distinct
  have symmetric : Std.Symm (Function.onFun List.Disjoint
      fun r : Reader => r.entries.map Entry.key) := 
    ⟨fun _ _ apart _ inSecond inFirst => apart inFirst inSecond⟩
  exact distinct.2.forall rMem otherMem different (mem_map_of_mem entryMem)
    (mem_map_of_mem (other.readable_prefix.subset inOther))

/-- A compaction carries all data over or fails when every input can be read at
its start or another input fails later, and for inputs within the limits only
then.  The same holds of the errors that any merge reports. -/
theorem readErrors_reported_iff (opts : ExecuteOptions) (task : CompactionTask)
    (wf : ∀ r ∈ task.allInputs, r.WellFormed) :
    ((StartsReadable task → KeepsAllData opts task) ∧
        (task.InLimits → opts.blockSize ≤ maxBlockOffset → KeepsAllData opts task →
          StartsReadable task)) ∧
      ∀ (σ ε : Type) [Iter σ ε] (start : List σ),
        (∀ it ∈ start, ∃ out final, Drains it out final) →
          (MergeIterator.ReportsErrors start ↔
            (∀ it ∈ start, Iter.err it = none) ∨ ∃ it ∈ start, MergeIterator.FailsLater it) := by
  constructor
  · exact ⟨keepsAllData_of_startsReadable wf, startsReadable_of_keepsAllData wf⟩
  · exact fun _ _ _ _ ends => MergeIterator.reportsErrors_iff ends

/-- A table with one entry, damaged as given. -/
def oneEntryTable (damage : Damage) : Reader where
  id := 1
  blocks := [[⟨makeInternalKey [97] 1, .new (some [49])⟩]]
  firstKey := makeInternalKey [97] 1
  lastKeys := [makeInternalKey [97] 1]
  bloom := buildBloomFilter [bloomHash [97]]
  fileSize := 99
  damage := damage

/-- The first block does not pass its checksum. -/
def firstBlockDamage : Damage :=
  ⟨fun block => if block = 0 then some (.invalidChecksum 0) else none, fun _ _ => none⟩

/-- The compaction of one table from L1 to L2. -/
def oneEntryTask (damage : Damage) : CompactionTask where
  inputLevel := 1
  outputLevel := 2
  inputs := [oneEntryTable damage]
  overlapping := []
  minKey := makeInternalKey [97] 1
  maxKey := makeInternalKey [97] 1

/-- Default block size and target file size. -/
def defaultExecuteOptions : ExecuteOptions where
  blockSize := 4096
  targetFileSize := defaultConfig.levelSizeBase / 10
  ids := fun n => n + 2

theorem oneEntryTable_wellFormed (damage : Damage) : (oneEntryTable damage).WellFormed where
  nonempty := by simp [oneEntryTable, Reader.entries]
  blocksNonempty := by simp [oneEntryTable]
  firstKey := rfl
  lastKeys := rfl
  ascending := pairwise_singleton _ _
  long := by simp [oneEntryTable, Reader.entries, Entry.Long, makeInternalKey, seqSize]
  clean := by
    intro entry entryMem
    obtain rfl := mem_singleton.mp entryMem
    exact .inr ⟨_, rfl⟩
  bloomed := by
    intro entry entryMem
    obtain rfl := mem_singleton.mp entryMem
    refine bloomMayContain_of_mem (mem_singleton.mpr ?_)
    exact congrArg bloomHash (userKey_makeInternalKey [97] 1)

/-- A compaction of a table whose first block is unreadable reports success
without any output, and the merge reports no error. -/
theorem firstBlockDamage_loses_table :
    (∃ tables, execute defaultExecuteOptions (oneEntryTask firstBlockDamage) = .ok tables ∧
        tables = []) ∧
      ¬ KeepsAllData defaultExecuteOptions (oneEntryTask firstBlockDamage) ∧
      ¬ MergeIterator.ReportsErrors [(oneEntryTable firstBlockDamage).scan] := by
  have silent : execute defaultExecuteOptions (oneEntryTask firstBlockDamage) = .ok [] := rfl
  refine ⟨⟨[], silent, rfl⟩, ?_, ?_⟩
  · intro keeps
    obtain ⟨table, tableMem, _⟩ := keeps [] silent (oneEntryTable firstBlockDamage)
      (mem_singleton.mpr rfl) _ (mem_singleton.mpr rfl)
    simp at tableMem
  intro reports
  refine reports 0 rfl ⟨0, le_rfl, (oneEntryTable firstBlockDamage).scan, ?_, ?_⟩ rfl
  · exact mem_singleton.mpr rfl
  · change some (ReadError.invalidChecksum 0) ≠ none
    simp

/-- The theorem at the same table without damage. -/
theorem readErrors_reported_undamaged :
    KeepsAllData defaultExecuteOptions (oneEntryTask .none) ∧
      StartsReadable (oneEntryTask .none) ∧
      MergeIterator.ReportsErrors [(oneEntryTable .none).scan] := by
  have wf : ∀ r ∈ (oneEntryTask .none).allInputs, r.WellFormed := by
    intro r rMem
    obtain rfl := mem_singleton.mp rMem
    exact oneEntryTable_wellFormed .none
  have starts : StartsReadable (oneEntryTask .none) := by
    refine .inl fun r rMem => ?_
    obtain rfl := mem_singleton.mp rMem
    simp [Reader.UnreadableStart, oneEntryTable, Damage.none]
  have inLimits : (oneEntryTask .none).InLimits :=
    ⟨by decide, fun r rMem entry entryMem => by
      obtain rfl := mem_singleton.mp rMem
      obtain rfl := mem_singleton.mp entryMem
      decide⟩
  rcases readErrors_reported_iff defaultExecuteOptions _ wf with ⟨⟨keepsAll, back⟩, merge⟩
  refine ⟨keepsAll starts, back inLimits (by decide) (keepsAll starts), ?_⟩
  refine (merge _ _ _ ?_).mpr (.inl ?_)
  · intro it itMem
    obtain rfl := mem_singleton.mp itMem
    exact ⟨_, _, Reader.scan_drains (oneEntryTable_wellFormed .none).blocksNonempty⟩
  intro it itMem
  obtain rfl := mem_singleton.mp itMem
  rfl

end Theseon.Compaction
