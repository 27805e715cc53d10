import Mathlib.Data.List.Nodup
import Theseon.KV.Layers

/-!
# The age of versions

`Newer` says that one collection of versions holds newer versions than another
one of every user key they share, and `Before` that all its keys are smaller.
The keys of one user key ascend with age, so `Before` implies `Newer`.
-/

namespace Theseon.KV

open Lib

/-- Every version in `newer` is newer than every version of the same user key in
`older`. -/
def Newer (newer older : List Entry) : Prop :=
  ∀ first ∈ newer, ∀ second ∈ older, second.user = first.user → second.seq < first.seq

/-- All keys in `front` are below all keys in `back`. -/
def Before (front back : List Entry) : Prop :=
  ∀ first ∈ front, ∀ second ∈ back, first.key < second.key

/-- The two collections have no user key in common. -/
def UsersApart (some others : List Entry) : Prop :=
  ∀ first ∈ some, ∀ second ∈ others, first.user ≠ second.user

variable {first second : Entry}

instance (some others : List Entry) : Decidable (UsersApart some others) :=
  inferInstanceAs (Decidable (∀ first ∈ some, ∀ second ∈ others, first.user ≠ second.user))

section

variable {young old front back : List Entry}

theorem Newer.covers (ordered : Newer young old) : Covers young old := by
  intro first firstMem second secondMem sameUser above
  exact absurd above (not_lt.mpr (ordered first firstMem second secondMem sameUser).le)

theorem Newer.mono (ordered : Newer young old) {young' old' : List Entry}
    (youngSub : young' ⊆ young) (oldSub : old' ⊆ old) : Newer young' old' :=
  fun first firstMem second secondMem =>
    ordered first (youngSub firstMem) second (oldSub secondMem)

theorem newer_nil (entries : List Entry) : Newer entries [] := by
  intro first _ second secondMem
  cases secondMem

theorem nil_newer (entries : List Entry) : Newer [] entries := by
  intro first firstMem
  cases firstMem

theorem newer_append_left {first second : List Entry} :
    Newer (first ++ second) old ↔ Newer first old ∧ Newer second old := by
  simp only [Newer, List.mem_append]
  constructor
  · intro ordered
    exact ⟨fun entry mem => ordered entry (.inl mem), fun entry mem => ordered entry (.inr mem)⟩
  · rintro ⟨ofFirst, ofSecond⟩ entry (mem | mem)
    · exact ofFirst entry mem
    · exact ofSecond entry mem

theorem newer_append_right {first second : List Entry} :
    Newer young (first ++ second) ↔ Newer young first ∧ Newer young second := by
  simp only [Newer, List.mem_append]
  constructor
  · intro ordered
    exact ⟨fun entry mem other otherMem => ordered entry mem other (.inl otherMem),
      fun entry mem other otherMem => ordered entry mem other (.inr otherMem)⟩
  · rintro ⟨ofFirst, ofSecond⟩ entry mem other (otherMem | otherMem)
    · exact ofFirst entry mem other otherMem
    · exact ofSecond entry mem other otherMem

/-- Smaller keys of the same user key are newer. -/
theorem Entry.seq_lt_of_key_lt (firstLong : first.Long) (secondLong : second.Long)
    (sameUser : second.user = first.user) (less : first.key < second.key) :
    second.seq < first.seq := by
  rw [← firstLong.key_eq, ← secondLong.key_eq, sameUser,
    makeInternalKey_lt_iff first.seq_le second.seq_le] at less
  exact less

theorem Before.newer (before : Before front back) (frontLong : ∀ entry ∈ front, entry.Long)
    (backLong : ∀ entry ∈ back, entry.Long) : Newer front back := by
  intro first firstMem second secondMem sameUser
  exact Entry.seq_lt_of_key_lt (frontLong first firstMem) (backLong second secondMem) sameUser
    (before first firstMem second secondMem)

end

/-- If no user key is a prefix of another one, the order of the keys is that of
the user keys. -/
theorem Entry.user_le_of_key_le (firstLong : first.Long) (secondLong : second.Long)
    (free : first.user ≠ second.user → Unrelated first.user second.user)
    (ordered : first.key ≤ second.key) : first.user ≤ second.user := by
  by_cases same : first.user = second.user
  · exact same.le
  by_contra above
  have less : second.key < first.key := by
    rw [← firstLong.key_eq, ← secondLong.key_eq,
      makeInternalKey_lt_iff_of_unrelated (free same).symm]
    exact not_le.mp above
  exact absurd ordered (not_le.mpr less)

variable {entries : List Entry}

theorem PrefixFree.mono {others : List Entry} (free : PrefixFree entries)
    (subset : others ⊆ entries) : PrefixFree others :=
  fun entry entryMem other otherMem =>
    free entry (subset entryMem) other (subset otherMem)

theorem PrefixFree.user_le (free : PrefixFree entries) (long : ∀ entry ∈ entries, entry.Long)
    (firstMem : first ∈ entries) (secondMem : second ∈ entries)
    (ordered : first.key ≤ second.key) : first.user ≤ second.user :=
  Entry.user_le_of_key_le (long first firstMem) (long second secondMem)
    (free first firstMem second secondMem) ordered

theorem ascending_iff (sorted : Sorted entries) :
    Ascending entries ↔ (entries.map Entry.key).Nodup := by
  rw [Ascending, List.Nodup, List.pairwise_map]
  constructor
  · exact fun ascending => ascending.imp ne_of_lt
  · intro distinct
    have both := List.pairwise_and_iff.mpr ⟨sorted, distinct⟩
    exact both.imp fun pair => lt_of_le_of_ne pair.1 pair.2

/-- In a strictly ascending run a user key and a sequence number name one
version. -/
theorem Ascending.distinct (ascending : Ascending entries) (long : ∀ entry ∈ entries, entry.Long) :
    ∀ entry ∈ entries, ∀ other ∈ entries,
    entry.user = other.user → entry.seq = other.seq → entry = other := by
  intro entry entryMem other otherMem sameUser sameSeq
  have sameKey : entry.key = other.key := by
    rw [← (long entry entryMem).key_eq, ← (long other otherMem).key_eq, sameUser, sameSeq]
  have distinct := (ascending_iff ascending.sorted).mp ascending
  exact List.inj_on_of_nodup_map distinct entryMem otherMem sameKey

/-- If every user key has at most one version of each number, a read has at most
one answer. -/
theorem NewestAt.unique
    (distinct : ∀ entry ∈ entries, ∀ other ∈ entries, entry.user = other.user →
      entry.seq = other.seq → entry = other) {user : Bytes} {maxSeq : Nat}
    {first second : Option Value} (isFirst : NewestAt entries user maxSeq first)
    (isSecond : NewestAt entries user maxSeq second) : first = second := by
  cases first with
  | none =>
    cases second with
    | none => rfl
    | some value =>
      rcases isSecond with ⟨entry, mem, sameUser, visible, _⟩
      exact absurd visible (not_le.mpr (isFirst entry mem sameUser))
  | some value =>
    rcases isFirst with ⟨entry, mem, sameUser, visible, valueEq, newest⟩
    cases second with
    | none => exact absurd visible (not_le.mpr (isSecond entry mem sameUser))
    | some other =>
      rcases isSecond with ⟨entry', mem', sameUser', visible', valueEq', newest'⟩
      have seqEq : entry.seq = entry'.seq :=
        le_antisymm (newest' entry mem sameUser visible) (newest entry' mem' sameUser' visible')
      have same : entry = entry' :=
        distinct entry mem entry' mem' (sameUser.trans sameUser'.symm) seqEq
      rw [← valueEq, ← valueEq', same]

end Theseon.KV
