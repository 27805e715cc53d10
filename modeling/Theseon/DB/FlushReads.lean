import Theseon.DB.FlushLimits
import Theseon.DB.Scan

/-!
# Reads across a flush

A flush puts a table into the place of the oldest immutable memtable.  The
iterator interface carries a nil value, and `flushMemtable` takes it for a
deletion: a version that was put with a nil value becomes a tombstone.  Scans do
not tell the two apart; point reads do.
-/

namespace Theseon

open Lib KV SSTable Iterator List

/-! ## The answers of the flushed table -/

theorem newestAt_map_flushedEntry {entries : List Entry} {user : Bytes} {maxSeq : Nat}
    {result : Option Value} (newest : NewestAt entries user maxSeq result) :
    NewestAt (entries.map flushedEntry) user maxSeq (result.map Value.viaIterator) := by
  cases result with
  | none =>
    intro entry entryMem
    rcases mem_map.mp entryMem with ⟨original, originalMem, rfl⟩
    exact newest original originalMem
  | some value =>
    rcases newest with ⟨entry, entryMem, isUser, isVisible, rfl, isNewest⟩
    refine ⟨flushedEntry entry, mem_map_of_mem entryMem, isUser, isVisible, rfl, ?_⟩
    intro other otherMem
    rcases mem_map.mp otherMem with ⟨original, originalMem, rfl⟩
    exact isNewest original originalMem

/-- The table answers like the memtable, with nil values turned into
tombstones. -/
theorem getAt_flushed {opts : Options} {mt : Memtable} {table : Reader}
    (long : ∀ entry ∈ mt.entries, entry.Long) (flushed : flushTable opts mt = .ok table)
    {user : Bytes} (unshadowed : UnshadowedFor mt.entries user) (maxSeq : Nat) :
    Source.getAt user maxSeq (.table table) =
      (Source.getAt user maxSeq (.memtable mt)).map Value.viaIterator := by
  rcases flushTable_eq_ok long flushed with ⟨contents, wellFormed, healthy⟩
  have memtableSound : (Source.memtable mt).Sound := long
  have tableSound : (Source.table table).Sound := ⟨wellFormed, healthy⟩
  have tableUnshadowed : UnshadowedFor (Source.table table).entries user := by
    rw [Source.entries, contents]
    intro entry entryMem isUser other otherMem
    rcases mem_map.mp entryMem with ⟨original, originalMem, rfl⟩
    rcases mem_map.mp otherMem with ⟨cover, coverMem, rfl⟩
    exact unshadowed original originalMem isUser cover coverMem
  have fromTable := tableSound.getAt_newestAt tableUnshadowed maxSeq
  have fromMemtable := newestAt_map_flushedEntry (memtableSound.getAt_newestAt unshadowed maxSeq)
  rw [Source.entries, ← contents] at fromMemtable
  exact NewestAt.unique (wellFormed.ascending.distinct wellFormed.long) fromTable fromMemtable

/-! ## The engine after the flush -/

namespace DB

variable {db : DB} {newer : List Memtable} {mt : Memtable}

/-- The sources before the oldest memtable. -/
def newerSources (db : DB) (newer : List Memtable) : List Source :=
  (db.active :: newer).map .memtable

theorem sources_split (oldest : db.immutables = newer ++ [mt]) :
    db.sources = db.newerSources newer ++ .memtable mt :: db.tables.map .table := by
  simp [sources, newerSources, oldest, tables]

theorem sources_installFlushed (oldest : db.immutables = newer ++ [mt]) (table : Reader) :
    (db.installFlushed table).sources =
      db.newerSources newer ++ .table table :: db.tables.map .table := by
  simp [sources, newerSources, installFlushed, oldest, tables]

/-- Some newer memtable holds a version of the same user key that is visible
wherever the entry is.  Sequence numbers ascend until they wrap, so before that
no version is hidden. -/
def HiddenBy (newer : List Memtable) (entry : Entry) : Prop :=
  ∃ m ∈ newer, ∃ cover ∈ m.entries, cover.user = entry.user ∧ cover.seq ≤ entry.seq

variable {user : Bytes} {maxSeq : Nat}

/-- A memtable answers exactly when it holds a visible version. -/
theorem memtable_getAt_eq_none_iff {m : Memtable}
    (newest : NewestAt m.entries user maxSeq (Source.getAt user maxSeq (.memtable m))) :
    Source.getAt user maxSeq (.memtable m) = none ↔
      ¬ ∃ entry ∈ m.entries, entry.user = user ∧ entry.seq ≤ maxSeq := by
  cases answer : Source.getAt user maxSeq (.memtable m) with
  | none =>
    rw [answer] at newest
    apply iff_of_true rfl
    rintro ⟨entry, entryMem, isUser, isVisible⟩
    exact absurd isVisible (not_le.mpr (newest entry entryMem isUser))
  | some value =>
    rw [answer] at newest
    rcases newest with ⟨entry, entryMem, isUser, isVisible, _⟩
    exact iff_of_false (by simp) (not_not.mpr ⟨entry, entryMem, isUser, isVisible⟩)

/-- The newer memtables pass a read on exactly when none of them holds a visible
version. -/
theorem newerSources_findSome?_eq_none
    (newest : ∀ m ∈ db.active :: newer,
      NewestAt m.entries user maxSeq (Source.getAt user maxSeq (.memtable m))) :
    (db.newerSources newer).findSome? (Source.getAt user maxSeq) = none ↔
      ∀ m ∈ db.active :: newer, ¬ ∃ entry ∈ m.entries, entry.user = user ∧ entry.seq ≤ maxSeq := by
  rw [newerSources, findSome?_eq_none_iff, forall_mem_map]
  exact forall₂_congr fun m mMem => memtable_getAt_eq_none_iff (newest m mMem)

/-- Point reads before and after the flush, as far as the oldest memtable is
asked. -/
theorem getAt_installFlushed_eq_iff (oldest : db.immutables = newer ++ [mt]) {table : Reader}
    (answers : Source.getAt user maxSeq (.table table) =
      (Source.getAt user maxSeq (.memtable mt)).map Value.viaIterator) :
    (db.installFlushed table).getAt user maxSeq = db.getAt user maxSeq ↔
      ((db.newerSources newer).findSome? (Source.getAt user maxSeq) = none →
        ∀ value ∈ Source.getAt user maxSeq (.memtable mt), value.viaIterator = value) := by
  rw [getAt, getAt, sources_installFlushed oldest, sources_split oldest, findSome?_append,
    findSome?_append, findSome?_cons, findSome?_cons, answers]
  cases (db.newerSources newer).findSome? (Source.getAt user maxSeq) with
  | some value => simp
  | none =>
    cases Source.getAt user maxSeq (.memtable mt) with
    | none => simp
    | some value => simp

/-- A scan yields the same before and after the flush. -/
theorem scanned_installFlushed (oldest : db.immutables = newer ++ [mt]) {opts : Options}
    {table : Reader} (long : ∀ entry ∈ mt.entries, entry.Long)
    (flushed : flushTable opts mt = .ok table) :
    (db.installFlushed table).scanned = db.scanned := by
  have same : (Source.table table).entries.map shown = (Source.memtable mt).entries.map shown := by
    rw [Source.entries, Source.entries, (flushTable_eq_ok long flushed).1, map_map]
    exact map_congr_left fun entry _ => shown_flushedEntry entry
  rw [scanned, scanned, sources_installFlushed oldest, sources_split oldest, map_append,
    map_append, map_cons, map_cons, same]

end DB

/-- Readers do not see the difference: point reads at every sequence number and
the scan give the same. -/
structure FlushInvisible (before after : DB) : Prop where
  getAt : ∀ user maxSeq, after.getAt user maxSeq = before.getAt user maxSeq
  scan : ∃ out, Drains before.scan out none ∧ Drains after.scan out none

namespace Engine

/-- In every state that writes, flushes and compactions lead to, a flush of the
oldest memtable is invisible exactly when no visible version in it was put with a
nil value. -/
theorem flush_invisible_iff {opts : Options} {e : Engine}
    (reached : Reached (step opts) (fun _ _ => True) (start opts) e)
    (free : PrefixFree e.db.entries) {newer : List Memtable} {mt : Memtable}
    (oldest : e.db.immutables = newer ++ [mt]) {table : Reader}
    (flushed : flushTable opts mt = .ok table) :
    FlushInvisible e.db (e.db.installFlushed table) ↔
      ∀ entry ∈ mt.entries, entry.value = .new none →
        DB.HiddenBy (e.db.active :: newer) entry := by
  have scannable := scannable_of_reached reached
  have sourceMem : ∀ m ∈ e.db.memtables, .memtable m ∈ e.db.sources := by
    intro m mMem
    rw [DB.sources_eq]
    exact mem_append_left _ (mem_append_left _ (mem_map_of_mem mMem))
  have isMemtable : ∀ m ∈ e.db.active :: newer, m ∈ e.db.memtables :=
    fun m mMem => (DB.mem_memtables_split oldest).mpr (.inl mMem)
  have mtMem : mt ∈ e.db.memtables := (DB.mem_memtables_split oldest).mpr (.inr rfl)
  have unshadowed : ∀ m ∈ e.db.memtables, ∀ user, UnshadowedFor m.entries user := by
    intro m mMem user
    apply (free.unshadowed.unshadowedFor user).mono
    intro entry entryMem
    exact mem_flatMap.mpr ⟨.memtable m, sourceMem m mMem, entryMem⟩
  have newest : ∀ m ∈ e.db.memtables, ∀ user maxSeq,
      NewestAt m.entries user maxSeq (Source.getAt user maxSeq (.memtable m)) :=
    fun m mMem user maxSeq => (scannable.sound _ (sourceMem m mMem)).getAt_newestAt
      (unshadowed m mMem user) maxSeq
  have long : ∀ entry ∈ mt.entries, entry.Long :=
    fun entry entryMem => (scannable.memtables mt mtMem entry entryMem).1
  have sameRead := fun user maxSeq =>
    DB.getAt_installFlushed_eq_iff oldest
      (getAt_flushed long flushed (unshadowed mt mtMem user) maxSeq)
  constructor
  · rintro ⟨sameReads, _⟩ entry entryMem isNil
    by_contra exposed
    -- the read at the version's own number shows it
    have passed :
        (e.db.newerSources newer).findSome? (Source.getAt entry.user entry.seq) = none := by
      rw [DB.newerSources_findSome?_eq_none fun m mMem => newest m (isMemtable m mMem) _ _]
      rintro m mMem ⟨cover, coverMem, sameUser, below⟩
      exact exposed ⟨m, mMem, cover, coverMem, sameUser, below⟩
    have unchanged := (sameRead entry.user entry.seq).mp (sameReads _ _) passed
    have ascending : Ascending mt.entries := by
      rcases flushTable_eq_ok long flushed with ⟨contents, wellFormed, _⟩
      have ascending := wellFormed.ascending
      rw [contents, Ascending, pairwise_map] at ascending
      exact ascending
    have answer := newest mt mtMem entry.user entry.seq
    cases found : Source.getAt entry.user entry.seq (.memtable mt) with
    | none =>
      rw [found] at answer
      exact absurd (answer entry entryMem rfl) (lt_irrefl _)
    | some value =>
      rw [found] at answer
      rcases answer with ⟨other, otherMem, sameUser, below, rfl, isNewest⟩
      have above := isNewest entry entryMem rfl le_rfl
      have isEntry : other = entry :=
        ascending.distinct long other otherMem entry entryMem sameUser (le_antisymm below above)
      have same := unchanged other.value found
      rw [isEntry, isNil] at same
      cases same
  · intro hidden
    constructor
    · intro user maxSeq
      rw [sameRead user maxSeq]
      intro passed value found
      rw [DB.newerSources_findSome?_eq_none fun m mMem =>
        newest m (isMemtable m mMem) _ _] at passed
      have answer := newest mt mtMem user maxSeq
      rw [Option.mem_def.mp found] at answer
      rcases answer with ⟨entry, entryMem, isUser, isVisible, rfl, _⟩
      rcases (scannable.memtables mt mtMem entry entryMem).2.clean_or_nil with clean | isNil
      · exact clean.viaIterator_eq
      rcases hidden entry entryMem isNil with ⟨m, mMem, cover, coverMem, sameUser, below⟩
      exact absurd ⟨cover, coverMem, sameUser.trans isUser, below.trans isVisible⟩
        (passed m mMem)
    · refine ⟨_, DB.scanAt_drains scannable.sound _, ?_⟩
      have installed : e.db.flush opts = some (e.db.installFlushed table) := by
        rw [DB.flush, oldest, getLast?_concat]
        dsimp only
        rw [flushed]
      have after := DB.scanAt_drains (scannable.flush installed).sound e.db.currentSeq
      rw [DB.scanned_installFlushed oldest long flushed] at after
      exact after

/-- `Put("k", nil)`, whose memtable is rotated out. -/
def nilPut : List Action :=
  [.write [.put [107] none]]

/-- `Get` finds the key with a nil value; after the flush it finds a tombstone. -/
theorem nilPut_becomes_tombstone :
    ((run (step rotatingOptions) (start rotatingOptions) nilPut).bind fun e =>
        (e.db.flush rotatingOptions).map fun after =>
          (e.db.get [107], after.get [107])) =
      some (some (.new none), some .newTombstone) := by
  decide +kernel

/-- `Put("k", "")` and `Delete("k")`, each in a memtable of its own. -/
def plainWrites : List Action :=
  [.write [.put [107] (some [])], .write [.delete [107]]]

theorem plainWrites_flush_invisible :
    ∃ e table, Reached (step rotatingOptions) (fun _ _ => True) (start rotatingOptions) e ∧
      e.db.immutables ≠ [] ∧ FlushInvisible e.db (e.db.installFlushed table) := by
  have evaluated : ∃ e ∈ runAllowed (step rotatingOptions) (fun _ _ => True)
      (start rotatingOptions) plainWrites, PrefixFree e.db.entries ∧
        ∃ mt ∈ e.db.immutables.getLast?, (∀ entry ∈ mt.entries, entry.value ≠ .new none) ∧
          ∃ table ∈ (flushTable rotatingOptions mt).toOption, True := by
    decide +kernel
  rcases Reached.of_evaluated evaluated with ⟨e, reached, free, mt, last, noNil, table, flushed, _⟩
  rcases getLast?_eq_some_iff.mp last with ⟨newer, oldest⟩
  refine ⟨e, table, reached, by simp [oldest], ?_⟩
  apply (flush_invisible_iff reached free oldest (eq_ok_of_toOption flushed)).mpr
  intro entry entryMem isNil
  exact absurd isNil (noNil entry entryMem)

end Engine

end Theseon
