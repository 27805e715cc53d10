import Theseon.KV.Key
import Theseon.KV.Value
import Theseon.Lib.Search

/-!
# Lookup of one user key in a sorted run of versions

Memtables and SSTable blocks answer a point lookup in the same way: seek to the
first internal key at or above the search key, then walk forward while the user
key stays the same and take the first version that is old enough.

The walk returns the newest visible version of every user key exactly when no
stored version shadows a version of another user key.
-/

namespace Theseon.KV

open Lib List

namespace Entry

/-- The user key of a stored version. -/
def user (entry : Entry) : Bytes :=
  userKey entry.key

/-- The sequence number of a stored version. -/
def seq (entry : Entry) : Nat :=
  seqNum entry.key

/-- The key is long enough to be an internal key. -/
def Long (entry : Entry) : Prop :=
  seqSize ≤ entry.key.length

theorem Long.key_eq {entry : Entry} (long : entry.Long) :
    makeInternalKey entry.user entry.seq = entry.key :=
  makeInternalKey_userKey_seqNum long

theorem seq_le (entry : Entry) : entry.seq ≤ maxSeqNum :=
  seqNum_le entry.key

end Entry

/-- The loop shared by `SkipList.GetAt` and `Block.GetAt`: walk forward through
the versions of `user` until one has a sequence number of at most `maxSeq`. -/
def walkVersions (user : Bytes) (maxSeq : Nat) : List Entry → Option Value
  | [] => none
  | entry :: rest =>
    if userKey entry.key = user then
      if seqNum entry.key ≤ maxSeq then some entry.value
      else walkVersions user maxSeq rest
    else none

/-- The entries from the first key at or above `target`. -/
def seek (target : Bytes) (entries : List Entry) : List Entry :=
  entries.dropWhile fun entry => entry.key < target

/-- Insertion in front of the first key at or above the new one. -/
def insertEntry (entry : Entry) (entries : List Entry) : List Entry :=
  (entries.takeWhile fun old => old.key < entry.key) ++ entry :: seek entry.key entries

/-- Point lookup in a sorted run. -/
def lookupAt (entries : List Entry) (user : Bytes) (maxSeq : Nat) : Option Value :=
  walkVersions user maxSeq (seek (makeSearchKey user) entries)

/-- Keys ascend. -/
def Sorted (entries : List Entry) : Prop :=
  entries.Pairwise fun first second => first.key ≤ second.key

/-- Keys ascend strictly. -/
def Ascending (entries : List Entry) : Prop :=
  entries.Pairwise fun first second => first.key < second.key

variable {entries others : List Entry} {user : Bytes} {maxSeq : Nat} {entry : Entry}

theorem Ascending.sorted (ascending : Ascending entries) : Sorted entries :=
  ascending.imp le_of_lt

/-- `result` is what a read of `user` at `maxSeq` must return: the value of the
version with the largest sequence number of at most `maxSeq`, and nothing
exactly when there is no such version. -/
def NewestAt (entries : List Entry) (user : Bytes) (maxSeq : Nat) : Option Value → Prop
  | none => ∀ entry ∈ entries, entry.user = user → maxSeq < entry.seq
  | some value => ∃ entry ∈ entries, entry.user = user ∧ entry.seq ≤ maxSeq ∧
      entry.value = value ∧
      ∀ other ∈ entries, other.user = user → other.seq ≤ maxSeq → other.seq ≤ entry.seq

/-- No version in `entries` is shadowed by a version of another user key. -/
def Unshadowed (entries : List Entry) : Prop :=
  ∀ entry ∈ entries, ∀ other ∈ entries, ¬ Shadows other.user other.seq entry.user entry.seq

/-- No version of `user` is shadowed. -/
def UnshadowedFor (entries : List Entry) (user : Bytes) : Prop :=
  ∀ entry ∈ entries, entry.user = user → ∀ other ∈ entries,
    ¬ Shadows other.user other.seq entry.user entry.seq

/-- No two different user keys of `entries` are prefixes of one another. -/
def PrefixFree (entries : List Entry) : Prop :=
  ∀ entry ∈ entries, ∀ other ∈ entries, entry.user ≠ other.user →
    Unrelated entry.user other.user

instance (entries : List Entry) : Decidable (PrefixFree entries) := by
  unfold PrefixFree
  infer_instance

theorem NewestAt.congr (same : ∀ entry, entry ∈ entries ↔ entry ∈ others) {result : Option Value} :
    NewestAt entries user maxSeq result ↔ NewestAt others user maxSeq result := by
  cases result <;> simp only [NewestAt, same]

theorem Unshadowed.congr (same : ∀ entry, entry ∈ entries ↔ entry ∈ others) :
    Unshadowed entries ↔ Unshadowed others := by
  simp only [Unshadowed, same]

theorem UnshadowedFor.mono (unshadowed : UnshadowedFor entries user) (subset : others ⊆ entries) :
    UnshadowedFor others user :=
  fun entry entryMem sameUser other otherMem =>
    unshadowed entry (subset entryMem) sameUser other (subset otherMem)

theorem Unshadowed.unshadowedFor (unshadowed : Unshadowed entries) (user : Bytes) :
    UnshadowedFor entries user :=
  fun entry entryMem _ other otherMem => unshadowed entry entryMem other otherMem

theorem PrefixFree.unshadowed (free : PrefixFree entries) : Unshadowed entries := by
  intro entry entryMem other otherMem shadows
  have unrelated := free other otherMem entry entryMem shadows.1
  exact not_shadows_of_unrelated unrelated _ _ shadows

theorem seek_subset (target : Bytes) (entries : List Entry) : seek target entries ⊆ entries :=
  dropWhile_subset _

theorem Sorted.seek (sorted : Sorted entries) (target : Bytes) : Sorted (KV.seek target entries) :=
  sorted.sublist (dropWhile_sublist _)

theorem Sorted.downward (sorted : Sorted entries) (target : Bytes) :
    Downward (fun entry => decide (entry.key < target)) entries :=
  sorted.imp fun ordered below => decide_eq_true (ordered.trans_lt (of_decide_eq_true below))

/-- In a sorted run the seek keeps exactly the keys at or above the target. -/
theorem mem_seek_iff (sorted : Sorted entries) {target : Bytes} :
    entry ∈ seek target entries ↔ entry ∈ entries ∧ target ≤ entry.key := by
  rw [seek, (sorted.downward target).dropWhile_eq_filter_not]
  simp

/-! ## Insertion -/

theorem insertEntry_perm (entry : Entry) (entries : List Entry) :
    (insertEntry entry entries).Perm (entry :: entries) := by
  have whole : (entries.takeWhile fun old => old.key < entry.key) ++ seek entry.key entries =
      entries := takeWhile_append_dropWhile
  rw [insertEntry]
  nth_rewrite 3 [← whole]
  exact perm_middle

theorem mem_insertEntry {other : Entry} :
    other ∈ insertEntry entry entries ↔ other = entry ∨ other ∈ entries := by
  rw [(insertEntry_perm entry entries).mem_iff, mem_cons]

theorem Sorted.insertEntry (sorted : Sorted entries) (entry : Entry) :
    Sorted (insertEntry entry entries) := by
  have frontBelow : ∀ old ∈ entries.takeWhile fun old => old.key < entry.key,
      old.key < entry.key := fun old oldMem => by simpa using mem_takeWhile_imp oldMem
  have backAbove : ∀ old ∈ KV.seek entry.key entries, entry.key ≤ old.key := fun old oldMem =>
    ((mem_seek_iff sorted).mp oldMem).2
  refine pairwise_append.mpr ⟨sorted.sublist (takeWhile_sublist _),
    pairwise_cons.mpr ⟨backAbove, sorted.seek _⟩, ?_⟩
  intro first firstMem second secondMem
  rcases mem_cons.mp secondMem with rfl | inBack
  · exact (frontBelow first firstMem).le
  · exact (frontBelow first firstMem).le.trans (backAbove second inBack)

/-! ## Reading -/

/-- The walk takes the first version that is old enough from the versions of the
user key at the front. -/
theorem walkVersions_eq (user : Bytes) (maxSeq : Nat) (entries : List Entry) :
    walkVersions user maxSeq entries =
      ((entries.takeWhile fun entry => entry.user = user).find? fun entry =>
        entry.seq ≤ maxSeq).map Entry.value := by
  induction entries with
  | nil => rfl
  | cons first rest ih =>
    rw [walkVersions, ← Entry.user, ← Entry.seq]
    by_cases sameUser : first.user = user
    · by_cases visible : first.seq ≤ maxSeq <;> simp [sameUser, visible, ih]
    · simp [sameUser]

/-- Internal keys of one user key in ascending order carry descending sequence
numbers. -/
theorem Entry.seq_le_of_key_le {first second : Entry} (firstLong : first.Long)
    (secondLong : second.Long) (sameUser : first.user = second.user)
    (ordered : first.key ≤ second.key) : second.seq ≤ first.seq := by
  rw [← firstLong.key_eq, ← secondLong.key_eq, sameUser,
    makeInternalKey_le_iff first.seq_le second.seq_le] at ordered
  exact ordered

theorem Entry.search_le (long : entry.Long) : makeSearchKey entry.user ≤ entry.key := by
  conv_rhs => rw [← long.key_eq]
  exact makeSearchKey_le entry.seq_le

section

variable (sorted : Sorted entries) (long : ∀ entry ∈ entries, entry.Long)

include sorted long

/-- If no version of `user` is shadowed, the walk passes all of them. -/
theorem lookupAt_eq (unshadowed : UnshadowedFor entries user) (maxSeq : Nat) :
    lookupAt entries user maxSeq =
      ((entries.filter fun entry => entry.user = user).find? fun entry =>
        entry.seq ≤ maxSeq).map Entry.value := by
  have together : Downward (fun entry => decide (entry.user = user))
      (seek (makeSearchKey user) entries) := by
    apply (sorted.seek _).imp_of_mem
    intro stopper entry stopperSought entrySought ordered sameUser
    simp only [decide_eq_true_eq] at sameUser ⊢
    obtain ⟨entryMem, -⟩ := (mem_seek_iff sorted).mp entrySought
    obtain ⟨stopperMem, above⟩ := (mem_seek_iff sorted).mp stopperSought
    -- a version behind another user key is shadowed by it
    by_contra differs
    refine unshadowed entry entryMem sameUser stopper stopperMem ⟨sameUser ▸ differs, ?_, ?_⟩
    · rw [(long stopper stopperMem).key_eq, sameUser]
      exact above
    · rw [(long stopper stopperMem).key_eq, (long entry entryMem).key_eq]
      exact lt_of_le_of_ne ordered fun same => differs ((congrArg userKey same).trans sameUser)
  rw [lookupAt, walkVersions_eq, together.takeWhile_eq_filter, seek,
    (sorted.downward _).dropWhile_eq_filter_not, filter_filter]
  congr 2
  apply filter_congr
  intro entry entryMem
  by_cases sameUser : entry.user = user
  · simp [sameUser, not_lt.mpr (sameUser ▸ Entry.search_le (long entry entryMem))]
  · simp [sameUser]

/-- If no version of `user` is shadowed, the lookup returns the newest visible
version of `user`. -/
theorem lookupAt_newestAt (unshadowed : UnshadowedFor entries user) (maxSeq : Nat) :
    NewestAt entries user maxSeq (lookupAt entries user maxSeq) := by
  have version : ∀ {entry}, entry ∈ (entries.filter fun entry => entry.user = user) ↔
      entry ∈ entries ∧ entry.user = user := by simp
  rw [lookupAt_eq sorted long unshadowed]
  cases result : (entries.filter fun entry => entry.user = user).find? fun entry =>
      entry.seq ≤ maxSeq with
  | none =>
    intro entry entryMem sameUser
    simpa using find?_eq_none.mp result entry (version.mpr ⟨entryMem, sameUser⟩)
  | some entry =>
    obtain ⟨visible, passed, rest, split, newer⟩ := find?_eq_some_iff_append.mp result
    obtain ⟨entryMem, entryUser⟩ := version.mp (mem_of_find?_eq_some result)
    refine ⟨entry, entryMem, entryUser, by simpa using visible, rfl, ?_⟩
    intro other otherMem otherUser otherVisible
    have located := version.mpr ⟨otherMem, otherUser⟩
    have ordered : Sorted (entries.filter fun entry => entry.user = user) := sorted.filter _
    rw [split] at located ordered
    rcases mem_append.mp located with inPassed | inRest
    · exact absurd otherVisible (by simpa using newer other inPassed)
    rcases mem_cons.mp inRest with rfl | inRest
    · exact le_rfl
    exact Entry.seq_le_of_key_le (long entry entryMem) (long other otherMem)
      (entryUser.trans otherUser.symm)
      ((pairwise_cons.mp (pairwise_append.mp ordered).2.1).1 other inRest)

/-- A shadowed version is missed by the read at its own sequence number. -/
theorem lookupAt_eq_none_of_shadows {other : Entry} (entryMem : entry ∈ entries)
    (otherMem : other ∈ entries) (shadows : Shadows other.user other.seq entry.user entry.seq) :
    lookupAt entries entry.user entry.seq = none := by
  obtain ⟨differentUser, above, below⟩ := shadows
  rw [(long other otherMem).key_eq] at above below
  rw [(long entry entryMem).key_eq] at below
  rw [lookupAt, walkVersions_eq, Option.map_eq_none_iff, find?_eq_none]
  intro hit hitMem visible
  have hitUser : hit.user = entry.user := by simpa using mem_takeWhile_imp hitMem
  have hitLong := long hit (seek_subset _ _ ((takeWhile_sublist _).subset hitMem))
  have soughtSorted := sorted.seek (makeSearchKey entry.user)
  have otherSought := (mem_seek_iff sorted).mpr ⟨otherMem, above⟩
  rw [← @takeWhile_append_dropWhile _ (fun found => decide (found.user = entry.user))
    (seek _ entries)] at soughtSorted otherSought
  rcases mem_append.mp otherSought with inFront | behind
  · exact differentUser (by simpa using mem_takeWhile_imp inFront)
  -- the version found lies in front of the shadowing one, so it is newer
  have hitBelow : hit.key < entry.key :=
    ((pairwise_append.mp soughtSorted).2.2 hit hitMem other behind).trans_lt below
  rw [← hitLong.key_eq, ← (long entry entryMem).key_eq, hitUser,
    makeInternalKey_lt_iff hit.seq_le entry.seq_le] at hitBelow
  exact absurd (of_decide_eq_true visible) (not_le.mpr hitBelow)

/-- The lookup is correct for every user key and every bound exactly when no
stored version is shadowed. -/
theorem lookupAt_newestAt_iff :
    (∀ user maxSeq, NewestAt entries user maxSeq (lookupAt entries user maxSeq)) ↔
      Unshadowed entries := by
  constructor
  · intro correct entry entryMem other otherMem shadows
    have missed := correct entry.user entry.seq
    rw [lookupAt_eq_none_of_shadows sorted long entryMem otherMem shadows] at missed
    exact lt_irrefl _ (missed entry entryMem rfl)
  · intro unshadowed user maxSeq
    exact lookupAt_newestAt sorted long (unshadowed.unshadowedFor user) maxSeq

end

end Theseon.KV
