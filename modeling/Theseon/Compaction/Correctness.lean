import Mathlib.Algebra.Order.BigOperators.Group.List
import Theseon.Compaction.Executor

/-!
# What a compaction writes

The merge of a task emits the readable entries of its inputs in key order.  A
successful `execute` writes exactly those entries, and the tables it returns are
well formed and healthy.
-/

namespace Theseon.Compaction

open Lib KV SSTable Iterator List

/-- The entry written for a merged pair. -/
def mergedEntry (pair : Bytes × Option Bytes) : Entry :=
  ⟨pair.1, mergedValue pair.2⟩

theorem mergedEntry_shown {entry : Entry} (clean : entry.value.Clean) :
    mergedEntry (shown entry) = entry := by
  obtain ⟨key, value⟩ := entry
  rcases clean with rfl | ⟨data, rfl⟩ <;> rfl

theorem mergedValue_stored (value : Option Bytes) :
    (mergedValue value).stored = mergedValue value := by
  cases value <;> rfl

/-! ## Writing -/

/-- The output holds the entries written so far. -/
structure Output.Holds (out : Output) (written : List Entry) : Prop where
  contents : out.tables.flatMap Reader.entries ++ out.builder.elim [] Builder.contents = written
  tables : ∀ r ∈ out.tables, r.WellFormed ∧ r.Healthy
  builder : ∀ b, out.builder = some b → b.Sound ∧ b.contents ≠ []

namespace Output

variable {opts : ExecuteOptions} {out next : Output} {written : List Entry}

theorem empty_holds : Holds empty [] :=
  ⟨rfl, by simp [empty], by simp [empty]⟩

section

variable (holds : Holds out written)

include holds

theorem Holds.finishCurrentBuilder (done : out.finishCurrentBuilder = .ok next) :
    Holds next written ∧ next.builder = none := by
  unfold Output.finishCurrentBuilder at done
  split at done
  · rename_i none
    obtain rfl := Except.ok.inj done
    exact ⟨holds, none⟩
  rename_i builder some
  split at done
  · contradiction
  rename_i table finished
  obtain rfl := Except.ok.inj done
  obtain ⟨sound, _⟩ := holds.builder builder some
  obtain ⟨entriesEq, wellFormed, healthy⟩ := Builder.finish_eq_ok sound finished
  refine ⟨⟨?_, ?_, by simp⟩, rfl⟩
  · rw [← holds.contents, some]
    simp [entriesEq]
  intro r rMem
  rcases mem_append.mp rMem with old | isNew
  · exact holds.tables r old
  · rw [mem_singleton.mp isNew]
    exact ⟨wellFormed, healthy⟩

theorem Holds.current (opts : ExecuteOptions) :
    (out.current opts).Sound ∧
      (out.current opts).contents = out.builder.elim [] Builder.contents := by
  cases started : out.builder with
  | none =>
    rw [Output.current, started]
    exact ⟨Builder.new_sound _ _, rfl⟩
  | some b =>
    rw [Output.current, started]
    exact ⟨(holds.builder b started).1, rfl⟩

theorem Holds.add {pair : Bytes × Option Bytes} (long : seqSize ≤ pair.1.length) {added : Builder}
    (addEq : (out.current opts).add pair.1 (mergedValue pair.2) = .ok added) :
    Holds { out with builder := some added } (written ++ [mergedEntry pair]) := by
  obtain ⟨sound, contentsEq⟩ := holds.current opts
  obtain ⟨_, addedContents, _⟩ := Builder.add_eq_ok addEq
  rw [mergedValue_stored] at addedContents
  refine ⟨?_, holds.tables, ?_⟩
  · rw [← holds.contents, ← contentsEq]
    simp [addedContents, mergedEntry]
  rintro b isAdded
  obtain rfl : added = b := Option.some.inj isAdded
  exact ⟨sound.add long addEq, by simp [addedContents]⟩

/-- One round of the loop appends one entry. -/
theorem Holds.write {pair : Bytes × Option Bytes} (long : seqSize ≤ pair.1.length)
    (done : out.write opts pair = .ok next) : Holds next (written ++ [mergedEntry pair]) := by
  unfold Output.write at done
  split at done
  · contradiction
  rename_i added addEq
  have grown := holds.add long addEq
  simp only at done
  split at done
  · exact (grown.finishCurrentBuilder done).1
  · obtain rfl := Except.ok.inj done
    exact grown

/-- The loop appends what the merge emits. -/
theorem Holds.writeAll {pairs : List (Bytes × Option Bytes)}
    (long : ∀ pair ∈ pairs, seqSize ≤ pair.1.length)
    (done : Compaction.writeAll opts out pairs = .ok next) :
    Holds next (written ++ pairs.map mergedEntry) := by
  induction pairs generalizing out written with
  | nil =>
    obtain rfl := Except.ok.inj done
    simpa using holds
  | cons pair rest ih =>
    rw [Compaction.writeAll] at done
    split at done
    · contradiction
    rename_i mid wrote
    have step := holds.write (long pair (by simp)) wrote
    have tail := ih step (fun p pMem => long p (mem_cons_of_mem _ pMem)) done
    simpa using tail

end

end Output

/-! ## The merge of a task -/

variable {emitted : List (Bytes × Option Bytes)}

/-- A table can be scanned up to its first error. -/
theorem scan_failed_iff {r : Reader} (wf : r.WellFormed) :
    Iter.err r.scan ≠ none ↔ r.UnreadableStart := by
  have drains := r.scan_drains wf.blocksNonempty
  rw [← Reader.readable_eq_nil_iff wf.nonempty wf.blocksNonempty]
  constructor
  · intro failed
    have stopped := (drains.of_invalid (Iter.invalid_of_err _ failed)).1
    simpa using stopped
  · intro nothing noError
    cases valid : Iter.isValid r.scan with
    | true =>
      obtain ⟨tail, shownEq, _⟩ := drains.of_valid valid
      simp [nothing] at shownEq
    | false =>
      have finalEq := (drains.of_invalid valid).2
      rw [noError] at finalEq
      exact wf.nonempty ((Reader.readable_eq_entries finalEq).symm.trans nothing)

namespace CompactionTask

variable {task : CompactionTask}

/-- What the inputs of a task yield up to their first errors. -/
def readable (task : CompactionTask) : List Entry :=
  task.allInputs.flatMap fun r => r.readable.1

/-- The merge of a task emits the readable entries of its inputs in key order.
It ends without an error exactly when every input is read to its end or could
not be read from the start. -/
theorem merge_drains (wf : ∀ r ∈ task.allInputs, r.WellFormed) :
    ∃ emitted final, Drains task.merge emitted final ∧
      emitted.Subperm (task.readable.map shown) ∧
      (emitted.Pairwise fun first second => first.1 ≤ second.1) ∧
      (final = none → emitted.Perm (task.readable.map shown) ∧
        ∀ r ∈ task.allInputs, r.UnreadableStart ∨ r.readable.2 = none) ∧
      ∀ e, final = some e → ∃ r ∈ task.allInputs, r.UnreadableLater := by
  set inputs := task.allInputs
  set outs : Nat → List (Bytes × Option Bytes) := fun i =>
    (inputs[i]?).elim [] fun r => r.readable.1.map shown with outsDef
  set fins : Nat → Option ReadError := fun i => (inputs[i]?).bind fun r => r.readable.2
    with finsDef
  have childDrains : ∀ i it, (inputs.map Reader.scan)[i]? = some it →
      Drains it (outs i) (fins i) := by
    intro i it found
    rw [getElem?_map] at found
    obtain ⟨r, inputEq, rfl⟩ := Option.map_eq_some_iff.mp found
    have drains := r.scan_drains (wf r (mem_of_getElem? inputEq)).blocksNonempty
    simpa [outsDef, finsDef, inputEq] using drains
  have running := MergeIterator.new_running childDrains
  have ascending : ∀ i, (outs i).Pairwise fun first second => first.1 < second.1 := by
    intro i
    cases inputEq : inputs[i]? with
    | none => simp [outsDef, inputEq]
    | some r =>
      simp only [outsDef, inputEq, Option.elim_some]
      refine List.Pairwise.map shown (fun first second less => less) ?_
      exact (wf r (mem_of_getElem? inputEq)).ascending.sublist r.readable_prefix.sublist
  have pendingPerm : (MergeIterator.pending outs
      (.new (inputs.map Reader.scan) : MergeIterator SSTableIterator ReadError).items).Perm
      (task.readable.map shown) := by
    refine (MergeIterator.new_pending childDrains).trans (List.Perm.of_eq ?_)
    rw [length_map, flatMap_range_getElem?, readable, map_flatMap]
  obtain ⟨emitted, final, drains, sub, complete, blamed⟩ := running.drains
  refine ⟨emitted, final, drains, sub.trans pendingPerm.subperm,
    running.emitted_sorted ascending drains, ?_, ?_⟩
  · intro noError
    obtain ⟨perm, ended⟩ := complete noError
    refine ⟨perm.trans pendingPerm, ?_⟩
    intro r rMem
    by_cases unreadable : r.UnreadableStart
    · exact .inl unreadable
    obtain ⟨i, inputEq⟩ := mem_iff_getElem?.mp rMem
    have inRange : i < inputs.length := (List.getElem?_eq_some_iff.mp inputEq).1
    have finNone := ended i (by simpa using inRange) (by
      rintro ⟨it, found, failed⟩
      rw [getElem?_map, inputEq] at found
      obtain rfl := Option.some.inj found
      exact unreadable ((scan_failed_iff (wf r rMem)).mp failed))
    exact .inr (by simpa [finsDef, inputEq] using finNone)
  · intro e failedEq
    obtain ⟨i, notFailed, finEq⟩ := blamed e failedEq
    obtain ⟨r, inputEq, errEq⟩ := Option.bind_eq_some_iff.mp finEq
    have rMem := mem_of_getElem? inputEq
    refine ⟨r, rMem, ?_, by rw [errEq]; simp⟩
    intro unreadable
    refine notFailed ⟨r.scan, by simp [inputEq], (scan_failed_iff (wf r rMem)).mpr unreadable⟩

theorem readable_subset {entry : Entry} (mem : entry ∈ task.readable) :
    ∃ r ∈ task.allInputs, entry ∈ r.entries := by
  obtain ⟨r, rMem, inReadable⟩ := mem_flatMap.mp mem
  exact ⟨r, rMem, r.readable_prefix.subset inReadable⟩

theorem length_readable_le (task : CompactionTask) : task.readable.length ≤ task.size := by
  rw [readable, size, length_flatMap]
  exact sum_le_sum fun r _ => r.readable_prefix.length_le

theorem emitted_length_le (sub : emitted.Subperm (task.readable.map shown)) :
    emitted.length ≤ task.size := by
  have bound := sub.length_le
  rw [length_map] at bound
  exact bound.trans task.length_readable_le

/-- An emitted pair is what an input entry shows. -/
theorem exists_entry_of_emitted (sub : emitted.Subperm (task.readable.map shown))
    {pair : Bytes × Option Bytes} (pairMem : pair ∈ emitted) :
    ∃ r ∈ task.allInputs, ∃ entry ∈ r.entries, shown entry = pair := by
  obtain ⟨entry, entryMem, shownEq⟩ := mem_map.mp (sub.subset pairMem)
  obtain ⟨r, rMem, inEntries⟩ := readable_subset entryMem
  exact ⟨r, rMem, entry, inEntries, shownEq⟩

/-- Entries survive being shown by the merge and written again. -/
theorem map_mergedEntry (wf : ∀ r ∈ task.allInputs, r.WellFormed) :
    (task.readable.map shown).map mergedEntry = task.readable := by
  rw [map_map]
  refine (map_congr_left fun entry entryMem => ?_).trans (map_id _)
  obtain ⟨r, rMem, inEntries⟩ := readable_subset entryMem
  exact mergedEntry_shown ((wf r rMem).clean entry inEntries)

end CompactionTask

/-- `execute` in terms of what the merge of the task emits. -/
theorem execute_eq {opts : ExecuteOptions} {task : CompactionTask} {final : Option ReadError}
    (drains : Drains task.merge emitted final) (short : emitted.length ≤ task.size) :
    execute opts task =
      match writeAll opts .empty emitted with
      | .error err => .error err
      | .ok out =>
        match final with
        | some err => .error (.mergeIterate err)
        | none => out.finishCurrentBuilder.map Output.tables := by
  rw [execute, executeLoop_eq opts drains short]
  cases writeAll opts .empty emitted with
  | error err => rfl
  | ok out =>
    simp only [Except.map, (MergeIterator.after_of_drains drains).2]
    cases final <;> rfl

/-- A successful compaction writes exactly the readable entries of its inputs,
in key order, and no input failed behind its start. -/
theorem execute_eq_ok {opts : ExecuteOptions} {task : CompactionTask}
    (wf : ∀ r ∈ task.allInputs, r.WellFormed) {tables : List Reader}
    (done : execute opts task = .ok tables) :
    (tables.flatMap Reader.entries).Perm task.readable ∧
      Sorted (tables.flatMap Reader.entries) ∧
      (∀ r ∈ tables, r.WellFormed ∧ r.Healthy) ∧
      ∀ r ∈ task.allInputs, r.UnreadableStart ∨ r.readable.2 = none := by
  obtain ⟨emitted, final, drains, sub, sorted, complete, _⟩ := task.merge_drains wf
  rw [execute_eq drains (CompactionTask.emitted_length_le sub)] at done
  cases wrote : writeAll opts .empty emitted with
  | error err => simp [wrote] at done
  | ok out =>
    rw [wrote] at done
    cases final with
    | some err => simp at done
    | none =>
      obtain ⟨perm, ended⟩ := complete rfl
      have long : ∀ pair ∈ emitted, seqSize ≤ pair.1.length := by
        intro pair pairMem
        obtain ⟨r, rMem, entry, inEntries, rfl⟩ :=
          CompactionTask.exists_entry_of_emitted sub pairMem
        exact (wf r rMem).long entry inEntries
      have holds := Output.empty_holds.writeAll long wrote
      rw [nil_append] at holds
      cases finished : out.finishCurrentBuilder with
      | error err => simp [finished, Except.map] at done
      | ok last =>
        simp only [finished, Except.map, Except.ok.injEq] at done
        obtain ⟨holds', none⟩ := holds.finishCurrentBuilder finished
        have contentsEq := holds'.contents
        rw [none, Option.elim_none, append_nil, done] at contentsEq
        rw [contentsEq]
        refine ⟨?_, ?_, done ▸ holds'.tables, ended⟩
        · rw [← CompactionTask.map_mergedEntry wf]
          exact perm.map mergedEntry
        · exact List.Pairwise.map mergedEntry (fun first second le => le) sorted

end Theseon.Compaction
