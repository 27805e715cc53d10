import Theseon.DB.Scan

/-!
# What a scan shows

Over user keys that are not empty and no prefixes of each other, a scan shows the
newest visible version of every user key, and so agrees with the point lookups.
-/

namespace Theseon

open Lib KV SSTable Iterator

namespace DB

/-- The user keys of the engine are not empty and no prefixes of each other. -/
structure PlainKeys (db : DB) : Prop where
  nonempty : ∀ entry ∈ db.entries, entry.user ≠ []
  free : PrefixFree db.entries

/-- The newest version of its user key up to a bound. -/
def Newest (db : DB) (maxSeq : Nat) (entry : Entry) : Prop :=
  entry ∈ db.entries ∧ entry.seq ≤ maxSeq ∧
    ∀ other ∈ db.entries, other.user = entry.user → other.seq ≤ maxSeq → other.seq ≤ entry.seq

section

variable {db : DB} {maxSeq : Nat}

section

variable (plain : db.PlainKeys) (long : ∀ entry ∈ db.entries, entry.Long)

include plain long

theorem PlainKeys.userSorted : UserSorted db.scanned := by
  constructor
  · apply (mergePairs_sorted _).imp_of_mem
    intro first second firstMem secondMem ordered
    rcases mem_scanned.mp firstMem with ⟨a, aMem, rfl⟩
    rcases mem_scanned.mp secondMem with ⟨b, bMem, rfl⟩
    exact plain.free.user_le long aMem bMem ordered
  · intro pair pairMem
    rcases mem_scanned.mp pairMem with ⟨entry, entryMem, rfl⟩
    exact plain.nonempty entry entryMem

/-- What is visible is the newest version of its user key. -/
theorem newest_of_mem_visible {pair : Bytes × Option Bytes}
    (mem : pair ∈ visible maxSeq none db.scanned) :
    ∃ entry, db.Newest maxSeq entry ∧ pair = shown entry := by
  rcases mem_scanned.mp ((visible_sublist _ _ _).subset mem) with ⟨entry, entryMem, rfl⟩
  refine ⟨entry, ⟨entryMem, seq_le_of_mem_visible mem, ?_⟩, rfl⟩
  intro other otherMem sameUser below
  rcases first_of_mem_visible (plain.userSorted long) (by simp) mem with
    ⟨before, behind, split, hidden⟩
  have sorted : KeySorted db.scanned := mergePairs_sorted _
  have position : shown other ∈ db.scanned := mem_scanned.mpr ⟨other, otherMem, rfl⟩
  rw [split] at sorted position
  rcases List.mem_append.mp position with earlier | later
  · exact absurd below (not_le.mpr (hidden _ earlier sameUser))
  have ordered : entry.key ≤ other.key := by
    rcases List.mem_cons.mp later with same | further
    · exact (congrArg Prod.fst same).ge
    · exact (List.pairwise_cons.mp (List.pairwise_append.mp sorted).2.1).1 _ further
  exact Entry.seq_le_of_key_le (long entry entryMem) (long other otherMem) sameUser.symm ordered

/-- Every newest version is visible. -/
theorem mem_visible_iff (single : db.KeysShowOne) {pair : Bytes × Option Bytes} :
    pair ∈ visible maxSeq none db.scanned ↔
      ∃ entry, db.Newest maxSeq entry ∧ pair = shown entry := by
  constructor
  · exact newest_of_mem_visible plain long
  · rintro ⟨entry, ⟨entryMem, below, newest⟩, rfl⟩
    rcases exists_visible (plain.userSorted long) (mem_scanned.mpr ⟨entry, entryMem, rfl⟩) below
      (Option.some_ne_none _).symm with ⟨pair, pairMem, sameUser⟩
    rcases newest_of_mem_visible plain long pairMem with
      ⟨found, ⟨foundMem, foundBelow, latest⟩, rfl⟩
    have sameSeq : found.seq = entry.seq :=
      le_antisymm (newest found foundMem sameUser foundBelow)
        (latest entry entryMem sameUser.symm below)
    have sameKey : found.key = entry.key := by
      rw [← (long found foundMem).key_eq, ← (long entry entryMem).key_eq, sameSeq]
      exact congrArg (makeInternalKey · entry.seq) sameUser
    rw [← single found foundMem entry entryMem sameKey]
    exact pairMem

theorem nodup_users_visible (maxSeq : Nat) :
    ((visible maxSeq none db.scanned).map fun pair => userKey pair.1).Nodup := by
  rw [List.Nodup, List.pairwise_map]
  exact (visible_ascending (plain.userSorted long) (by simp)).1.imp ne_of_lt

end

end

end DB

namespace Engine

variable {e : Engine}

theorem Invariant.plainKeys (inv : e.Invariant) (nonempty : ∀ entry ∈ e.history, entry.user ≠ [])
    (free : PrefixFree e.history) : e.db.PlainKeys :=
  ⟨fun entry mem => nonempty entry ((inv.contents entry).mp mem),
    free.mono fun entry mem => (inv.contents entry).mp mem⟩

theorem Invariant.keysShowOne (inv : e.Invariant) : e.db.KeysShowOne := by
  intro entry entryMem other otherMem sameKey
  rw [inv.distinct entry ((inv.contents entry).mp entryMem) other
    ((inv.contents other).mp otherMem) (congrArg userKey sameKey) (congrArg seqNum sameKey)]

/-- A lookup finds the newest version. -/
theorem Invariant.get_eq_some_iff (inv : e.Invariant) (free : PrefixFree e.history)
    {key : Bytes} {value : Value} :
    e.db.get key = some value ↔
      ∃ entry, e.db.Newest e.db.currentSeq entry ∧ entry.value = value ∧ entry.user = key := by
  have reads : NewestAt e.history key e.db.currentSeq (e.db.get key) :=
    inv.readsNewest free key e.db.currentSeq
  constructor
  · intro found
    rw [found] at reads
    rcases reads with ⟨entry, entryMem, isKey, below, isValue, latest⟩
    refine ⟨entry, ⟨(inv.contents entry).mpr entryMem, below, ?_⟩, isValue, isKey⟩
    intro other otherMem sameUser otherBelow
    exact latest other ((inv.contents other).mp otherMem) (sameUser.trans isKey) otherBelow
  · rintro ⟨entry, ⟨entryMem, below, latest⟩, isValue, rfl⟩
    have newest : NewestAt e.history entry.user e.db.currentSeq (some value) :=
      ⟨entry, (inv.contents entry).mp entryMem, rfl, below, isValue,
        fun other otherMem => latest other ((inv.contents other).mpr otherMem)⟩
    exact reads.unique inv.distinct newest

end Engine

end Theseon
