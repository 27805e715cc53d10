import Theseon.DB.ScanRange
import Theseon.DB.Transaction

/-!
# Range scans of a transaction

`Transaction.ScanRange` bounds the versions of the engine and merges them with the
whole write buffer.  It yields the part of `Transaction.Scan` that lies in the range
exactly when every buffered write does.
-/

namespace Theseon

open Std (ExtTreeMap)
open Lib KV SSTable Iterator List

namespace Transaction

variable {tx : Transaction} {sorter : Sorter Entry.key} {db : DB} {start stop : Option Bytes}

/-- The buffered writes have different keys, so every sort gives the same list. -/
theorem bufferEntries_eq (tx : Transaction) (sorter sorter' : Sorter Entry.key) :
    tx.bufferEntries sorter = tx.bufferEntries sorter' := by
  apply List.Perm.eq_of_pairwise _ (sorter.sorted _) (sorter'.sorted _)
    ((sorter.perm _).trans (sorter'.perm _).symm)
  intro first second firstMem secondMem le ge
  rcases mem_bufferEntries.mp firstMem with ⟨user, value, found, rfl⟩
  rcases mem_bufferEntries.mp secondMem with ⟨user', value', found', rfl⟩
  have sameUser := congrArg userKey (le_antisymm le ge)
  rw [userKey_makeInternalKey, userKey_makeInternalKey] at sameUser
  subst sameUser
  rw [found] at found'
  cases found'
  rfl

/-- No user key is a proper prefix of a bound. -/
def ApartFrom (tx : Transaction) (db : DB) (bounds : Option Bytes) : Prop :=
  ∀ user, tx.Uses db user → ∀ bound ∈ bounds, user <+: bound → user = bound

/-- What the merge of the buffer and the bounded scan of the engine yields. -/
def mergedRange (tx : Transaction) (sorter : Sorter Entry.key) (db : DB)
    (start stop : Option Bytes) : List (Bytes × Option Bytes) :=
  mergePairs [(tx.bufferEntries sorter).map shown, inRange start stop db.scanned]

theorem scanRange_drains (scannable : db.Scannable) (levels : db.levels ≠ [])
    (first : tx.ApartFrom db start) (last : tx.ApartFrom db stop) :
    ∃ it, tx.scanRange sorter db start stop = some it ∧
      Drains it (visible tx.bufSeq none (tx.mergedRange sorter db start stop)) none := by
  have selected : inRange start stop db.scanned =
      db.scanned.filter fun pair => keyWithin start stop pair.1 := by
    apply inRange_scanned_eq scannable
    intro entry entryMem
    have uses : tx.Uses db entry.user := .inr ⟨entry, entryMem, rfl⟩
    exact respects_of_not_extended entry.seq (first _ uses) (last _ uses)
  rcases DB.rawScanRange_drains scannable.sound levels start stop with ⟨raw, isRaw, drains⟩
  rw [mergedRange, selected, scanRange, isRaw]
  refine ⟨_, rfl, mergedIterator_drains drains ((mergePairs_sorted _).filter _) ?_⟩
  rw [← DB.length_scanned]
  exact length_filter_le _ _

theorem mergedRange_subset : tx.mergedRange sorter db start stop ⊆ tx.merged sorter db := by
  intro pair pairMem
  rw [mergedRange, mem_mergePairs] at pairMem
  rw [merged, mem_mergePairs]
  rcases pairMem with ⟨out, outMem, inOut⟩
  rcases mem_cons.mp outMem with rfl | isRange
  · exact ⟨_, mem_cons_self, inOut⟩
  · rw [mem_singleton.mp isRange] at inOut
    exact ⟨_, mem_cons_of_mem _ mem_cons_self, (mem_filter.mp inOut).1⟩

/-- With all buffered writes in the range, the bounded merge is the part of the
whole one in the range. -/
theorem mergedRange_eq (inside : ∀ user ∈ tx.writes, within start stop user = true) :
    tx.mergedRange sorter db start stop = inRange start stop (tx.merged sorter db) := by
  have buffered : inRange start stop ((tx.bufferEntries sorter).map shown) =
      (tx.bufferEntries sorter).map shown := by
    rw [inRange, filter_eq_self]
    intro pair pairMem
    rcases mem_map.mp pairMem with ⟨entry, entryMem, rfl⟩
    exact inside _ (buffered_spec entryMem).1
  conv_lhs => rw [mergedRange, ← buffered]
  exact (filter_mergePairs (fun pair => within start stop (userKey pair.1))
    [(tx.bufferEntries sorter).map shown, db.scanned]).symm

/-- A buffered write outside the range is shown all the same. -/
theorem exists_outside (long : ∀ entry ∈ db.entries, entry.Long) (plain : tx.PlainKeys db)
    {user : Bytes} (written : user ∈ tx.writes) :
    ∃ pair ∈ visible tx.bufSeq none (tx.mergedRange sorter db start stop),
      userKey pair.1 = user := by
  rcases mem_iff_get?.mp written with ⟨value, found⟩
  have inBuffer : (⟨makeInternalKey user tx.bufSeq, value⟩ : Entry) ∈ tx.bufferEntries sorter :=
    mem_bufferEntries.mpr ⟨user, value, found, rfl⟩
  have sorted := userSorted_of_subset long plain (mergePairs_sorted _)
    (@mergedRange_subset tx sorter db start stop)
  rcases exists_visible sorted
      (mem_mergePairs.mpr ⟨_, mem_cons_self, mem_map_of_mem inBuffer⟩)
      (seqNum_makeInternalKey tx.bufSeq_le).le (Option.some_ne_none _).symm
    with ⟨pair, pairMem, sameUser⟩
  exact ⟨pair, pairMem, sameUser.trans (userKey_makeInternalKey user tx.bufSeq)⟩

/-- The range scan of a transaction yields the part of its scan in the range
exactly when every buffered write is in the range. -/
theorem scanRange_in_range_iff {opts : Options} {allowed : Engine → Action → Prop} {e : Engine}
    (reached : Reached (Engine.step opts) allowed (Engine.start opts) e)
    (levels : 1 ≤ opts.compaction.maxLevels) (tx : Transaction)
    (sorter sorter' : Sorter Entry.key) (plain : tx.PlainKeys e.db) (start stop : Option Bytes)
    (first : tx.ApartFrom e.db start) (last : tx.ApartFrom e.db stop) :
    ∃ all it ranged, Drains (tx.scan sorter e.db) all none ∧
      tx.scanRange sorter' e.db start stop = some it ∧ Drains it ranged none ∧
      (ranged = (all.filter fun pair => within start stop (userKey pair.1)) ↔
        ∀ user ∈ tx.writes, within start stop user = true) := by
  have scannable := Engine.scannable_of_reached reached
  rcases @scanRange_drains tx sorter' e.db start stop scannable
    (Engine.levels_ne_nil_of_reached reached levels) first last with ⟨it, isScan, drains⟩
  refine ⟨_, it, _, scan_drains scannable.sound, isScan, drains, ?_⟩
  constructor
  · intro same user written
    rcases @exists_outside tx sorter' e.db start stop scannable.long plain user written with
      ⟨pair, pairMem, rfl⟩
    rw [same] at pairMem
    exact (mem_filter.mp pairMem).2
  · intro inside
    rw [mergedRange_eq inside, filter_visible (within start stop)
      (userSorted_merged scannable.long plain) (by simp) fun _ _ _ => Iff.rfl, merged, merged,
      tx.bufferEntries_eq sorter sorter']
    rfl

theorem apart_of_known {users : List Bytes} (known : ∀ user, tx.Uses db user → user ∈ users)
    {bounds : Option Bytes}
    (apart : ∀ user ∈ users, ∀ bound ∈ bounds, user <+: bound → user = bound) :
    tx.ApartFrom db bounds :=
  fun user isUser => apart user (known user isUser)

/-- The scan from `"a"` to `"b"` yields the buffered `"c"`. -/
theorem buffered_outside_scanned :
    ∃ e it out, runAllowed (Engine.step defaultOptions) Engine.CountsOn
        (Engine.start defaultOptions) [.write [.put [97] (some [49])]] = some e ∧
      secondSnapshot.PlainKeys e.db ∧ secondSnapshot.ApartFrom e.db (some [97]) ∧
      secondSnapshot.ApartFrom e.db (some [98]) ∧
      secondSnapshot.scanRange (.insertion _) e.db (some [97]) (some [98]) = some it ∧
      Drains it out none ∧ (makeInternalKey [99] 2, some [51]) ∈ out ∧
      within (some [97]) (some [98]) (userKey (makeInternalKey [99] 2)) = false := by
  have evaluated : ∃ e ∈ runAllowed (Engine.step defaultOptions) Engine.CountsOn
      (Engine.start defaultOptions) [.write [.put [97] (some [49])]],
        (makeInternalKey [99] 2, some [51]) ∈ visible secondSnapshot.bufSeq none
          (secondSnapshot.mergedRange (.insertion _) e.db (some [97]) (some [98])) ∧
        ∀ entry ∈ e.db.entries, entry.user ∈ [[97], [99]] := by
    decide +kernel
  rcases evaluated with ⟨e, ran, shows, users⟩
  have reached := Reached.start.runAllowed ran
  have known := @secondSnapshot_uses e.db _ (by decide) users
  have first : secondSnapshot.ApartFrom e.db (some [97]) := apart_of_known known (by decide)
  have last : secondSnapshot.ApartFrom e.db (some [98]) := apart_of_known known (by decide)
  rcases @scanRange_drains _ (.insertion _) _ _ _ (Engine.scannable_of_reached reached)
    (Engine.levels_ne_nil_of_reached reached (by decide)) first last with ⟨it, isScan, drains⟩
  exact ⟨e, it, _, ran, plain_of_known known (by decide), first, last, isScan, drains, shows,
    by decide⟩

/-- From `"a"` to `"d"` the scan yields the part in the range. -/
theorem buffered_inside_scanned :
    ∃ e all it ranged,
      Reached (Engine.step defaultOptions) Engine.CountsOn (Engine.start defaultOptions) e ∧
      Drains (secondSnapshot.scan (.insertion _) e.db) all none ∧
      secondSnapshot.scanRange (.insertion _) e.db (some [97]) (some [100]) = some it ∧
      Drains it ranged none ∧
      ranged = all.filter fun pair => within (some [97]) (some [100]) (userKey pair.1) := by
  have evaluated : ∃ e ∈ runAllowed (Engine.step defaultOptions) Engine.CountsOn
      (Engine.start defaultOptions) [.write [.put [97] (some [49])]],
        ∀ entry ∈ e.db.entries, entry.user ∈ [[97], [99]] := by
    decide +kernel
  rcases Reached.of_evaluated evaluated with ⟨e, reached, users⟩
  have known := @secondSnapshot_uses e.db _ (by decide) users
  rcases scanRange_in_range_iff reached (by decide) secondSnapshot (.insertion _) (.insertion _)
    (plain_of_known known (by decide)) (some [97]) (some [100])
    (apart_of_known known (by decide)) (apart_of_known known (by decide)) with
    ⟨all, it, ranged, drains, isScan, drainsRange, exact⟩
  refine ⟨e, all, it, ranged, reached, drains, isScan, drainsRange, exact.mpr ?_⟩
  intro user written
  rcases mem_insert_key.mp written with rfl | empty
  · decide
  · exact absurd empty ExtTreeMap.not_mem_empty

end Transaction

end Theseon
