import Mathlib.Data.List.Perm.Subperm
import Theseon.KV.Age

/-!
# Histories of logged versions

A history lists versions in the order in which they were written, each with the
identifier of the log it was written to.  Logs are started one after the other,
so identifiers and sequence numbers ascend together.
-/

namespace Theseon.KV

open Lib List

/-- Versions with the identifiers of their logs, oldest first. -/
abbrev History := List (Nat × Entry)

namespace History

/-- The collection holds exactly the versions of the log. -/
def Holds (history : History) (id : Nat) (entries : List Entry) : Prop :=
  ∀ entry, entry ∈ entries ↔ (id, entry) ∈ history

def versions (history : History) : List Entry :=
  history.map Prod.snd

/-- The history with versions appended to one log. -/
def extend (history : History) (id : Nat) (entries : List Entry) : History :=
  history ++ entries.map fun entry => (id, entry)

/-- Identifiers and sequence numbers ascend, and the versions are well formed. -/
structure Chronological (history : History) : Prop where
  ordered : history.Pairwise fun first second =>
    first.1 ≤ second.1 ∧ first.2.seq < second.2.seq
  long : ∀ logged ∈ history, logged.2.Long
  clean : ∀ logged ∈ history, logged.2.value.Clean

theorem mem_versions {history : History} {entry : Entry} :
    entry ∈ history.versions ↔ ∃ id, (id, entry) ∈ history := by
  rw [versions, mem_map]
  constructor
  · rintro ⟨⟨id, logged⟩, mem, rfl⟩
    exact ⟨id, mem⟩
  · rintro ⟨id, mem⟩
    exact ⟨(id, entry), mem, rfl⟩

theorem mem_extend {history : History} {id : Nat} {entries : List Entry} {logged : Nat × Entry} :
    logged ∈ history.extend id entries ↔ logged ∈ history ∨ logged.1 = id ∧ logged.2 ∈ entries := by
  rw [extend, mem_append, mem_map]
  apply or_congr_right
  constructor
  · rintro ⟨entry, mem, rfl⟩
    exact ⟨rfl, mem⟩
  · rintro ⟨rfl, mem⟩
    exact ⟨logged.2, mem, rfl⟩

section

variable {history : History}

/-- Versions of later logs are newer. -/
theorem Chronological.seq_lt (chronological : history.Chronological) {i j : Nat} {old young : Entry}
    (oldMem : (i, old) ∈ history) (youngMem : (j, young) ∈ history) (less : i < j) :
    old.seq < young.seq := by
  have either : history.Pairwise fun first second =>
      (first.1 ≤ second.1 ∧ first.2.seq < second.2.seq) ∨
        (second.1 ≤ first.1 ∧ second.2.seq < first.2.seq) :=
    chronological.ordered.imp .inl
  have symmetric : Std.Symm fun first second : Nat × Entry =>
      (first.1 ≤ second.1 ∧ first.2.seq < second.2.seq) ∨
        (second.1 ≤ first.1 ∧ second.2.seq < first.2.seq) :=
    ⟨fun _ _ => Or.symm⟩
  have different : (i, old) ≠ (j, young) := fun same => less.ne (Prod.mk.inj same).1
  rcases either.forall oldMem youngMem different with ⟨_, older⟩ | ⟨reversed, _⟩
  · exact older
  · exact absurd less (not_lt.mpr reversed)

/-- A collection of a later log covers one of an earlier log. -/
theorem Holds.covers (chronological : history.Chronological) {i j : Nat} {young old : List Entry}
    (isYoung : history.Holds i young) (isOld : history.Holds j old) (later : j ≤ i) :
    Covers young old := by
  intro first firstMem second secondMem _ above
  rcases Nat.lt_or_eq_of_le later with less | rfl
  · have older :=
      chronological.seq_lt ((isOld second).mp secondMem) ((isYoung first).mp firstMem) less
    exact absurd above (not_lt.mpr older.le)
  · exact (isYoung second).mpr ((isOld second).mp secondMem)

variable {id : Nat} {new : List Entry}

theorem Holds.extend_other {other : Nat} {entries : List Entry} (holds : history.Holds id entries)
    (different : id ≠ other) : (history.extend other new).Holds id entries := by
  intro entry
  rw [holds, mem_extend]
  simp [different]

theorem Holds.extend_same {entries grown : List Entry} (holds : history.Holds id entries)
    (isGrown : ∀ entry, entry ∈ grown ↔ entry ∈ new ∨ entry ∈ entries) :
    (history.extend id new).Holds id grown := by
  intro entry
  rw [isGrown, holds, mem_extend, or_comm]
  simp

/-- New versions go to the last log. -/
theorem Chronological.extend (chronological : history.Chronological)
    (last : ∀ logged ∈ history, logged.1 ≤ id)
    (newer : ∀ logged ∈ history, ∀ entry ∈ new, logged.2.seq < entry.seq)
    (ascending : new.Pairwise fun first second => first.seq < second.seq)
    (long : ∀ entry ∈ new, entry.Long) (clean : ∀ entry ∈ new, entry.value.Clean) :
    (history.extend id new).Chronological := by
  constructor
  · rw [History.extend, pairwise_append, pairwise_map]
    refine ⟨chronological.ordered, ascending.imp fun less => ⟨le_rfl, less⟩, ?_⟩
    intro old oldMem logged loggedMem
    rcases mem_map.mp loggedMem with ⟨entry, entryMem, rfl⟩
    exact ⟨last old oldMem, newer old oldMem entry entryMem⟩
  · intro logged mem
    rcases mem_extend.mp mem with old | ⟨_, isNew⟩
    · exact chronological.long logged old
    · exact long _ isNew
  · intro logged mem
    rcases mem_extend.mp mem with old | ⟨_, isNew⟩
    · exact chronological.clean logged old
    · exact clean _ isNew

/-- There are not more versions than sequence numbers. -/
theorem Chronological.length_le (chronological : history.Chronological) {bound : Nat}
    (inRange : ∀ logged ∈ history, 0 < logged.2.seq ∧ logged.2.seq ≤ bound) :
    history.length ≤ bound := by
  have distinct : (history.map fun logged => logged.2.seq).Nodup := by
    rw [List.Nodup, pairwise_map]
    exact chronological.ordered.imp fun both => both.2.ne
  have subset : (history.map fun logged => logged.2.seq) ⊆ List.range' 1 bound := by
    intro seq seqMem
    rcases mem_map.mp seqMem with ⟨logged, mem, rfl⟩
    have := inRange logged mem
    rw [mem_range'_1]
    omega
  have count := (subperm_of_subset distinct subset).length_le
  rwa [length_map, length_range'] at count

end

end History

end Theseon.KV
