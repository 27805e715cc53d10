import Mathlib.Data.List.Flatten
import Mathlib.Data.List.Nodup
import Theseon.Compaction.Correctness

/-!
# The order of the merged keys

When no internal key is stored twice in the inputs of a task, the merge emits
strictly ascending keys.  The builder then never sees its keys out of order.
-/

namespace Theseon.Compaction

open Lib KV SSTable Iterator List

namespace CompactionTask

/-- No internal key is stored twice in the inputs. -/
def Distinct (task : CompactionTask) : Prop :=
  ((task.allInputs.flatMap Reader.entries).map Entry.key).Nodup

variable {task : CompactionTask} {emitted : List (Bytes × Option Bytes)}

theorem readable_sublist (task : CompactionTask) :
    task.readable.Sublist (task.allInputs.flatMap Reader.entries) :=
  List.Sublist.flatMap_right _ fun r _ => r.readable_prefix.sublist

/-- A merge of distinct versions emits strictly ascending keys. -/
theorem Distinct.ascending (distinct : task.Distinct)
    (sub : emitted.Subperm (task.readable.map shown))
    (sorted : emitted.Pairwise fun first second => first.1 ≤ second.1) :
    emitted.Pairwise fun first second => first.1 < second.1 := by
  have keys : (task.readable.map shown).map Prod.fst = task.readable.map Entry.key := by
    rw [map_map]
    rfl
  have nodup : (emitted.map Prod.fst).Nodup := by
    rcases sub with ⟨ordered, perm, sublist⟩
    have inInputs := (keys ▸ sublist.map Prod.fst).trans (task.readable_sublist.map Entry.key)
    exact (perm.map Prod.fst).nodup_iff.mp (distinct.sublist inInputs)
  rw [List.Nodup, pairwise_map] at nodup
  exact (sorted.and nodup).imp fun both => lt_of_le_of_ne both.1 both.2

end CompactionTask

/-! ## The builder -/

theorem place_ne_keysNotSorted {b : Builder} {key : Bytes} {value : Value} {k prev : Bytes} :
    b.place key value ≠ .error (.keysNotSorted k prev) := by
  have block : ∀ block : BlockBuilder, block.add key value ≠ .error (.keysNotSorted k prev) := by
    intro block
    rw [BlockBuilder.add]
    split_ifs <;> simp
  have flush : ∀ b : Builder, b.flushBlock ≠ .error (.keysNotSorted k prev) := by
    intro b
    rw [Builder.flushBlock]
    split_ifs <;> simp
  rw [Builder.place]
  split
  · rename_i err failed
    intro same
    cases same
    exact block _ failed
  · simp
  · split
    · rename_i err failed
      intro same
      cases same
      exact flush _ failed
    · split
      · rename_i err failed
        intro same
        cases same
        exact block _ failed
      · simp

namespace Output

variable {opts : ExecuteOptions} {out : Output} {written : List Entry} {k prev : Bytes}

/-- The current builder has no key, or its last key was written. -/
theorem Holds.current_below (holds : Holds out written) {key : Bytes}
    (above : ∀ entry ∈ written, entry.key < key) :
    (out.current opts).prevKey = [] ∨ (out.current opts).prevKey < key := by
  cases started : out.builder with
  | none =>
    rw [Output.current, started]
    exact .inl rfl
  | some b =>
    rcases holds.builder b started with ⟨sound, nonempty⟩
    rcases (eq_nil_or_concat' b.contents).resolve_left nonempty with ⟨init, last, split⟩
    rw [Output.current, started]
    apply Or.inr
    change b.prevKey < key
    rw [sound.prevKey, split, lastKeyOf_concat]
    apply above last
    rw [← holds.contents, started]
    simp [split]

theorem Holds.write_ne_keysNotSorted (holds : Holds out written) {pair : Bytes × Option Bytes}
    (above : ∀ entry ∈ written, entry.key < pair.1) :
    out.write opts pair ≠ .error (.addKey (.keysNotSorted k prev)) := by
  intro failed
  rw [Output.write] at failed
  split at failed
  · rename_i err addEq
    cases failed
    rw [Builder.add] at addEq
    split_ifs at addEq with finished disordered
    · cases addEq
    · have order : (out.current opts).prevKey = [] ∨ (out.current opts).prevKey < pair.1 :=
        holds.current_below above
      rcases order with first | below
      · exact disordered.1 first
      · exact absurd disordered.2 (not_le.mpr below)
    · exact place_ne_keysNotSorted addEq
  simp only at failed
  split_ifs at failed
  rw [Output.finishCurrentBuilder] at failed
  split at failed
  · cases failed
  split at failed
  · cases failed
  · cases failed

theorem Holds.writeAll_ne_keysNotSorted (holds : Holds out written)
    {pairs : List (Bytes × Option Bytes)} (long : ∀ pair ∈ pairs, seqSize ≤ pair.1.length)
    (ascending : pairs.Pairwise fun first second => first.1 < second.1)
    (above : ∀ entry ∈ written, ∀ pair ∈ pairs, entry.key < pair.1) :
    Compaction.writeAll opts out pairs ≠ .error (.addKey (.keysNotSorted k prev)) := by
  induction pairs generalizing out written with
  | nil =>
    intro failed
    cases failed
  | cons pair rest ih =>
    rcases pairwise_cons.mp ascending with ⟨first, later⟩
    rw [Compaction.writeAll]
    split
    · rename_i err failed
      intro same
      cases same
      exact holds.write_ne_keysNotSorted (fun entry mem => above entry mem pair mem_cons_self)
        failed
    rename_i next wrote
    have nextHolds := holds.write (long pair mem_cons_self) wrote
    apply ih nextHolds (fun other mem => long other (mem_cons_of_mem _ mem)) later
    intro entry entryMem other otherMem
    rcases mem_append.mp entryMem with old | isNew
    · exact above entry old other (mem_cons_of_mem _ otherMem)
    · rw [mem_singleton.mp isNew]
      exact first other otherMem

end Output

/-- The merged stream of distinct versions ascends strictly, and writing it out
does not fail for the order of the keys. -/
theorem execute_inOrder {task : CompactionTask} (wf : ∀ r ∈ task.allInputs, r.WellFormed)
    (distinct : task.Distinct) :
    ∃ emitted final, Drains task.merge emitted final ∧
      (emitted.Pairwise fun first second => first.1 < second.1) ∧
      ∀ opts k prev, execute opts task ≠ .error (.addKey (.keysNotSorted k prev)) := by
  rcases task.merge_drains wf with ⟨emitted, final, drains, sub, sorted, _, _⟩
  have ascending := distinct.ascending sub sorted
  refine ⟨emitted, final, drains, ascending, ?_⟩
  intro opts k prev
  have long : ∀ pair ∈ emitted, seqSize ≤ pair.1.length := by
    intro pair pairMem
    rcases CompactionTask.exists_entry_of_emitted sub pairMem with ⟨r, rMem, entry, mem, rfl⟩
    exact (wf r rMem).long entry mem
  have inOrder : writeAll opts .empty emitted ≠ .error (.addKey (.keysNotSorted k prev)) :=
    Output.empty_holds.writeAll_ne_keysNotSorted long ascending
      (fun _ mem => absurd mem not_mem_nil)
  rw [execute_eq drains (CompactionTask.emitted_length_le sub)]
  split
  · rename_i err failed
    intro same
    cases same
    exact inOrder failed
  rename_i out wrote
  split
  · simp
  rw [Output.finishCurrentBuilder]
  split
  · simp [Except.map]
  split
  · simp [Except.map]
  · simp [Except.map]

end Theseon.Compaction
