import Theseon.DB.ScanReads
import Theseon.SSTable.Range

/-!
# Range scans

The range scans of memtables, tables and the whole engine compare internal keys
with the search keys of their bounds.  They yield the versions of the user keys in
the range exactly when every stored version is on the same side of the bounds as
its user key.  Over user keys that are no prefixes of each other, the scan of the
engine then shows the newest visible version of each of them.
-/

namespace Theseon

open Lib KV SSTable Iterator List

theorem ScanIterator.checkBound_drains (entries : List Entry) (stop : Option Bytes) :
    Drains (memtable (SkipListIterator.checkBound ⟨entries, stop⟩))
      ((entries.takeWhile (Entry.below stop)).map shown) (none : Option ReadError) := by
  induction entries with
  | nil => exact Drains.stop rfl
  | cons entry rest ih =>
    by_cases below : entry.below stop = true
    · have stays : SkipListIterator.checkBound ⟨entry :: rest, stop⟩ = ⟨entry :: rest, stop⟩ := by
        rcases stop with _ | stop
        · rfl
        · exact if_neg (not_le.mpr (of_decide_eq_true below))
      rw [stays, takeWhile_cons_of_pos below]
      exact Drains.step rfl ih
    rcases stop with _ | stop
    · exact absurd rfl below
    have reached : stop ≤ entry.key := not_lt.mp fun less => below (decide_eq_true less)
    have ends : SkipListIterator.checkBound ⟨entry :: rest, some stop⟩ = ⟨[], some stop⟩ :=
      if_pos reached
    rw [ends, takeWhile_cons_of_neg below]
    exact Drains.stop rfl

theorem Memtable.scanRange_drains (m : Memtable) (start stop : Option Bytes) :
    Drains (ScanIterator.memtable (m.scanRange start stop))
      ((window (start.map makeSearchKey) (stop.map makeSearchKey) m.entries).map shown)
      (none : Option ReadError) := by
  have drains := ScanIterator.checkBound_drains
    (start.elim m.entries fun start => seek (makeSearchKey start) m.entries)
    (stop.map makeSearchKey)
  rw [window, Option.elim_map]
  exact drains

/-- A range scan of a sound source yields the versions between the search keys of
the bounds. -/
theorem Source.Sound.scanRange_drains {source : Source} (sound : source.Sound)
    (start stop : Option Bytes) :
    Drains (source.scanRange start stop)
      ((source.entries.map shown).filter fun pair => keyWithin start stop pair.1)
      (none : Option ReadError) := by
  have filtered : ∀ {entries : List Entry}, Sorted entries →
      (window (start.map makeSearchKey) (stop.map makeSearchKey) entries).map shown =
        (entries.map shown).filter fun pair => keyWithin start stop pair.1 := by
    intro entries sorted
    rw [window_eq_filter sorted, filter_map]
    rfl
  cases source with
  | memtable m =>
    rw [Source.entries, ← filtered m.sorted]
    exact m.scanRange_drains start stop
  | table r =>
    rcases sound with ⟨wellFormed, healthy⟩
    rw [Source.entries, ← filtered wellFormed.ascending.sorted]
    exact ScanIterator.table_drains (r.scanRange_drains wellFormed healthy start stop)

namespace DB

/-- The range scans at a sequence number, with as many rounds as there are versions. -/
def scanRangeAt (db : DB) (start stop : Option Bytes) (maxSeq : Nat) :
    Option (SnapshotIterator (MergeIterator ScanIterator ReadError) ReadError) :=
  (db.rawScanRange start stop).map fun raw => .new raw maxSeq (db.entries.length + 1)

def scanRange (db : DB) (start stop : Option Bytes) :
    Option (SnapshotIterator (MergeIterator ScanIterator ReadError) ReadError) :=
  db.scanRangeAt start stop db.currentSeq

variable {db : DB}

/-- An engine with levels scans a range over all its sources. -/
theorem rawScanRange_eq (levels : db.levels ≠ []) (start stop : Option Bytes) :
    db.rawScanRange start stop = some (.new (db.sources.map (Source.scanRange start stop))) := by
  rw [rawScanRange, sources]
  split
  · rename_i none
    exact absurd none levels
  · rename_i first deep isLevels
    rw [isLevels]
    rfl

theorem rawScanRange_drains (sound : ∀ source ∈ db.sources, source.Sound) (levels : db.levels ≠ [])
    (start stop : Option Bytes) :
    ∃ raw, db.rawScanRange start stop = some raw ∧
      Drains raw (db.scanned.filter fun pair => keyWithin start stop pair.1) none := by
  have merged : db.scanned.filter (fun pair => keyWithin start stop pair.1) =
      mergePairs (db.sources.map fun source =>
        (source.entries.map shown).filter fun pair => keyWithin start stop pair.1) := by
    rw [scanned, filter_mergePairs, map_map]
    rfl
  refine ⟨_, rawScanRange_eq levels start stop, ?_⟩
  rw [merged]
  apply MergeIterator.new_drains_mergePairs
  · rw [List.forall₂_map_left_iff, List.forall₂_map_right_iff, List.forall₂_same]
    exact fun source sourceMem => (sound source sourceMem).scanRange_drains start stop
  intro out outMem
  rcases mem_map.mp outMem with ⟨source, sourceMem, rfl⟩
  exact (Source.keySorted (sound source sourceMem)).filter _

theorem scanRangeAt_drains (sound : ∀ source ∈ db.sources, source.Sound) (levels : db.levels ≠ [])
    (start stop : Option Bytes) (maxSeq : Nat) :
    ∃ it, db.scanRangeAt start stop maxSeq = some it ∧
      Drains it
        (visible maxSeq none (db.scanned.filter fun pair => keyWithin start stop pair.1)) none := by
  rcases rawScanRange_drains sound levels start stop with ⟨raw, scanned, drains⟩
  rw [scanRangeAt, scanned]
  refine ⟨_, rfl, SnapshotIterator.new_drains drains maxSeq ?_⟩
  rw [← length_scanned]
  exact Nat.lt_succ_of_le (length_filter_le _ _)

end DB

/-! ## Exact range scans -/

/-- The pairs of the user keys in the range. -/
def inRange (start stop : Option Bytes) (pairs : List (Bytes × Option Bytes)) :
    List (Bytes × Option Bytes) :=
  pairs.filter fun pair => within start stop (userKey pair.1)

/-- Every stored version is on the same side of the bounds as its user key. -/
def RespectsAll (start stop : Option Bytes) (entries : List Entry) : Prop :=
  ∀ entry ∈ entries, Respects start stop entry.user entry.seq

instance (start stop : Option Bytes) (entries : List Entry) :
    Decidable (RespectsAll start stop entries) :=
  inferInstanceAs (Decidable (∀ entry ∈ entries, Respects start stop entry.user entry.seq))

/-- The search keys of the bounds select the pairs in the range exactly when every
version is on the same side of the bounds as its user key. -/
theorem filter_eq_inRange_iff {entries : List Entry} (long : ∀ entry ∈ entries, entry.Long)
    (start stop : Option Bytes) :
    (entries.map shown).filter (fun pair => keyWithin start stop pair.1) =
        inRange start stop (entries.map shown) ↔ RespectsAll start stop entries := by
  constructor
  · intro same entry entryMem
    rw [← (long entry entryMem).keyWithin_eq_iff, Bool.eq_iff_iff]
    have shownMem := @mem_map_of_mem _ _ entries entry shown entryMem
    have kept : shown entry ∈ (entries.map shown).filter (fun pair => keyWithin start stop pair.1) ↔
        shown entry ∈ inRange start stop (entries.map shown) := by
      rw [same]
    rw [inRange, mem_filter, mem_filter, and_iff_right shownMem,
      and_iff_right shownMem] at kept
    exact kept
  · intro respects
    apply filter_congr
    intro pair pairMem
    rcases mem_map.mp pairMem with ⟨entry, entryMem, rfl⟩
    exact ((long entry entryMem).keyWithin_eq_iff start stop).mpr (respects entry entryMem)

/-- The scan of an engine yields the newest visible version of every user key in the
range, in the order of the user keys. -/
def DB.YieldsRange (db : DB) (start stop : Option Bytes)
    (it : SnapshotIterator (MergeIterator ScanIterator ReadError) ReadError) : Prop :=
  ∃ out, Drains it out none ∧
    (out.Pairwise fun first second => userKey first.1 < userKey second.1) ∧
    ∀ pair, pair ∈ out ↔ ∃ entry, db.Newest db.currentSeq entry ∧
      within start stop entry.user = true ∧ pair = shown entry

/-- The range scans over the versions of one memtable are exact: those of the memtable
and of every table that holds the same versions yield the versions of the user keys in
the range, that of every engine that holds no others yields the newest ones. -/
structure ExactRange (m : Memtable) (start stop : Option Bytes) : Prop where
  memtable : Drains (ScanIterator.memtable (m.scanRange start stop))
    (inRange start stop (m.entries.map shown)) (none : Option ReadError)
  table : ∀ r : Reader, r.WellFormed → r.Healthy → r.entries.map shown = m.entries.map shown →
    Drains (r.scanRange start stop) (inRange start stop (r.entries.map shown)) none
  engine : ∀ db : DB, db.Scannable → db.levels ≠ [] → db.PlainKeys → db.KeysShowOne →
    (∀ entry ∈ db.entries, ∃ original ∈ m.entries, shown entry = shown original) →
    ∃ it, db.scanRange start stop = some it ∧ db.YieldsRange start stop it

variable {start stop : Option Bytes}

theorem Memtable.respectsAll_of_drains {m : Memtable} (long : ∀ entry ∈ m.entries, entry.Long)
    (drains : Drains (ScanIterator.memtable (m.scanRange start stop))
      (inRange start stop (m.entries.map shown)) (none : Option ReadError)) :
    RespectsAll start stop m.entries := by
  rw [← filter_eq_inRange_iff long]
  have yields := @Source.Sound.scanRange_drains (.memtable m) (fun entry => long entry) start stop
  exact (yields.unique drains).1

/-- The bounds look at the internal key only. -/
theorem RespectsAll.of_shown {entries originals : List Entry}
    (respects : RespectsAll start stop originals)
    (within : ∀ entry ∈ entries, ∃ original ∈ originals, shown entry = shown original) :
    RespectsAll start stop entries := by
  intro entry entryMem
  rcases within entry entryMem with ⟨original, originalMem, same⟩
  have sameKey : entry.key = original.key := congrArg Prod.fst same
  rw [Entry.user, Entry.seq, sameKey]
  exact respects original originalMem

theorem inRange_scanned_eq {db : DB} (scannable : db.Scannable)
    (respects : RespectsAll start stop db.entries) :
    inRange start stop db.scanned =
      db.scanned.filter fun pair => keyWithin start stop pair.1 := by
  apply filter_congr
  intro pair pairMem
  rcases DB.mem_scanned.mp pairMem with ⟨entry, entryMem, rfl⟩
  exact (((scannable.long entry entryMem).keyWithin_eq_iff start stop).mpr
    (respects entry entryMem)).symm

/-- What is visible of the range is the part of what is visible in the range. -/
theorem DB.yieldsRange {db : DB} (scannable : db.Scannable) (levels : db.levels ≠ [])
    (plain : db.PlainKeys) (single : db.KeysShowOne)
    (respects : RespectsAll start stop db.entries) :
    ∃ it, db.scanRange start stop = some it ∧ db.YieldsRange start stop it := by
  have sorted := plain.userSorted scannable.long
  have selected : visible db.currentSeq none
      (db.scanned.filter fun pair => keyWithin start stop pair.1) =
        (visible db.currentSeq none db.scanned).filter fun pair =>
          within start stop (userKey pair.1) := by
    rw [← inRange_scanned_eq scannable respects]
    exact (filter_visible (within start stop) sorted (by simp) fun _ _ _ => Iff.rfl).symm
  rcases scanRangeAt_drains scannable.sound levels start stop db.currentSeq with
    ⟨it, isScan, drains⟩
  rw [selected] at drains
  refine ⟨it, isScan, _, drains, (visible_ascending sorted (by simp)).1.filter _, ?_⟩
  intro pair
  rw [mem_filter, mem_visible_iff plain scannable.long single]
  constructor
  · rintro ⟨⟨entry, newest, rfl⟩, inside⟩
    exact ⟨entry, newest, inside, rfl⟩
  · rintro ⟨entry, newest, inside, rfl⟩
    exact ⟨⟨entry, newest, rfl⟩, inside⟩

/-- One version of `"a"`, with the sequence number 1. -/
def firstPut : Memtable :=
  (Memtable.new 0).put (makeInternalKey [97] 1) (.new (some [49]))

theorem firstPut_long : ∀ entry ∈ firstPut.entries, entry.Long := by
  intro entry entryMem
  rcases Memtable.mem_put_entries.mp entryMem with rfl | none
  · exact Nat.le_of_ble_eq_true rfl
  · cases none

end Theseon
