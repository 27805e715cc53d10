import Theseon.DB.Compacted
import Theseon.Lib.Machine

/-!
# Runs of the engine

The engine starts empty and takes writes, flushes and compactions in any order;
a write ends with a rotation when the active memtable is full.  The history
records every version that was written.

In every run whose compactions leave no version of a moved user key behind in
the input level, reads return what the history demands.  A compaction that
splits its output between two versions of one user key breaks this: the next
compaction takes the newer version down and the older one is found first.
-/

namespace Theseon

open Lib KV SSTable Compaction List

/-- The engine with the versions written to it. -/
structure Engine where
  db : DB
  history : List Entry

/-- What the engine does next.  The order of tables with equal first keys is not
specified, so a compaction comes with a sort. -/
inductive Action where
  | write (ops : List BatchOp)
  | flush
  | compact (sorter : Sorter Reader.firstKey)

namespace Engine

/-- An empty engine. -/
def start (opts : Options) : Engine :=
  ⟨.fresh opts, []⟩

/-- `waitForFlushSpace` lets a write pass. -/
def hasFlushSpace (opts : Options) (e : Engine) : Bool :=
  e.db.immutables.length < opts.normalized.maxImmutableCount

/-- One action, if it is possible and succeeds. -/
def step (opts : Options) (e : Engine) : Action → Option Engine
  | .write ops =>
    if ops ≠ [] ∧ e.hasFlushSpace opts then
      some ⟨e.db.applyBatchLocked opts ops, e.history ++ stamp e.db.nextSeq ops⟩
    else none
  | .flush => (e.db.flush opts).map fun db => ⟨db, e.history⟩
  | .compact sorter => (e.db.compact opts sorter).map fun db => ⟨db, e.history⟩

/-- The kinds of steps. -/
inductive Stepped (opts : Options) (e : Engine) : Action → Engine → Prop
  | write {ops : List BatchOp} : Stepped opts e (.write ops)
      ⟨e.db.applyBatchLocked opts ops, e.history ++ stamp e.db.nextSeq ops⟩
  | flush {db : DB} (flushed : e.db.flush opts = some db) : Stepped opts e .flush ⟨db, e.history⟩
  | compact {sorter : Sorter Reader.firstKey} {db : DB}
      (compacted : e.db.compact opts sorter = some db) :
      Stepped opts e (.compact sorter) ⟨db, e.history⟩

theorem stepped_of_step {opts : Options} {e next : Engine} {a : Action}
    (stepped : e.step opts a = some next) : Stepped opts e a next := by
  cases a with
  | write ops =>
    rw [step] at stepped
    split at stepped
    · cases stepped
      exact .write
    · cases stepped
  | flush =>
    rcases Option.map_eq_some_iff.mp stepped with ⟨db, flushed, rfl⟩
    exact .flush flushed
  | compact sorter =>
    rcases Option.map_eq_some_iff.mp stepped with ⟨db, compacted, rfl⟩
    exact .compact compacted

/-- Every read returns the newest visible version that was written. -/
def ReadsNewest (e : Engine) : Prop :=
  ∀ user maxSeq, NewestAt e.history user maxSeq (e.db.getAt user maxSeq)

/-- The versions of a level, with L0 as level 0. -/
def levelContents (e : Engine) (i : Nat) : List Entry :=
  if i = 0 then entriesOf e.db.l0 else e.db.levelEntries i

/-- All versions of a user key in one level are newer than those in the levels
below. -/
def LevelsOrdered (e : Engine) : Prop :=
  ∀ i j, i < j → Newer (e.levelContents i) (e.levelContents j)

/-- The counters do not wrap, and a compaction finds its output level and leaves
no version of a user key that it moves in its input level. -/
def Safe (opts : Options) (e : Engine) : Action → Prop
  | .write ops => e.db.nextSeq + ops.length ≤ maxSeqNum ∧ e.db.nextMemID + 1 ≤ maxSeqNum
  | .flush => True
  | .compact _ => e.db.SafeToCompact opts

instance (opts : Options) (e : Engine) (a : Action) : Decidable (e.Safe opts a) := by
  cases a <;> unfold Safe <;> infer_instance

/-! ## The invariant -/

/-- What every safe run keeps. -/
structure Invariant (e : Engine) : Prop where
  ordered : e.db.Ordered
  identified : e.db.Identified
  contents : ∀ entry, entry ∈ e.db.entries ↔ entry ∈ e.history
  ascending : e.history.Pairwise fun first second => first.seq < second.seq
  bound : ∀ entry ∈ e.history, entry.seq ≤ e.db.nextSeq

theorem start_invariant (opts : Options) : (start opts).Invariant := by
  have noTables : (start opts).db.tables = [] := by
    simp [start, DB.fresh, DB.newMemtable, DB.tables]
  have noLevels : ∀ i, (start opts).db.level i = [] := by
    intro i
    simp only [start, DB.fresh, DB.newMemtable, DB.level, getD_eq_getElem?_getD,
      getElem?_replicate]
    split <;> rfl
  have noEntries : ∀ i, (start opts).db.levelEntries i = [] := by
    intro i
    rw [DB.levelEntries, noLevels]
    rfl
  have upper : (start opts).db.upper = [[]] := rfl
  constructor
  · constructor
    · intro m mMem entry entryMem
      rw [mem_singleton.mp mMem] at entryMem
      cases entryMem
    · rw [noTables]
      intro r rMem
      cases rMem
    · rw [upper]
      exact pairwise_singleton _ _
    · intro entries _ i _
      rw [noEntries]
      exact newer_nil entries
    · intro i j _ _
      rw [noEntries j]
      exact newer_nil _
    · intro i _
      rw [noLevels]
      exact List.Pairwise.nil
  · constructor
    · intro m mMem
      rw [mem_singleton.mp mMem]
      exact le_rfl
    · rw [noTables]
      intro r rMem
      cases rMem
    · exact nodup_singleton _
    · rw [noTables]
      intro m _ r rMem
      cases rMem
    · rw [noTables]
      intro r rMem
      cases rMem
  · intro entry
    rw [DB.mem_entries, upper]
    simp only [noEntries]
    simp [start]
  · exact List.Pairwise.nil
  · intro entry entryMem
    cases entryMem

section

variable {opts : Options} {e next : Engine}

/-- Distinct numbers tell the versions of the history apart. -/
theorem Invariant.distinct (inv : e.Invariant) : ∀ entry ∈ e.history, ∀ other ∈ e.history,
    entry.user = other.user → entry.seq = other.seq → entry = other := by
  intro entry entryMem other otherMem _ sameSeq
  by_contra different
  have apart : e.history.Pairwise fun first second => first.seq ≠ second.seq :=
    inv.ascending.imp ne_of_lt
  have symmetric : Std.Symm fun first second : Entry => first.seq ≠ second.seq :=
    ⟨fun _ _ => Ne.symm⟩
  exact apart.forall entryMem otherMem different sameSeq

theorem Invariant.readsNewest (inv : e.Invariant) (free : PrefixFree e.history) :
    e.ReadsNewest := by
  intro user maxSeq
  have unshadowed : UnshadowedFor e.db.entries user :=
    ((Unshadowed.congr inv.contents).mpr free.unshadowed).unshadowedFor user
  rw [← NewestAt.congr inv.contents]
  exact inv.ordered.readable.getAt_newestAt unshadowed maxSeq

theorem Invariant.levelsOrdered (inv : e.Invariant) : e.LevelsOrdered := by
  intro i j less
  rw [levelContents, levelContents, if_neg (by omega : j ≠ 0)]
  split
  · intro first firstMem
    rcases mem_entriesOf.mp firstMem with ⟨r, rMem, inTable⟩
    exact inv.ordered.upperLevels r.entries (DB.mem_upper.mpr (.inr ⟨r, rMem, rfl⟩)) j (by omega)
      first inTable
  · exact inv.ordered.levels i j (by omega) less

theorem Invariant.write (inv : e.Invariant) {ops : List BatchOp} (safe : e.Safe opts (.write ops)) :
    (⟨e.db.applyBatchLocked opts ops, e.history ++ stamp e.db.nextSeq ops⟩ : Engine).Invariant := by
  rcases safe with ⟨seqFits, idFits⟩
  have fresh : ∀ entry ∈ stamp e.db.nextSeq ops, entry.Long ∧
      ∀ old ∈ e.db.entries, old.seq < entry.seq := by
    intro entry entryMem
    refine ⟨long_of_mem_stamp entryMem, ?_⟩
    intro old oldMem
    exact lt_of_le_of_lt (inv.bound old ((inv.contents old).mp oldMem))
      (seq_of_mem_stamp seqFits entryMem).1
  constructor
  · rw [DB.applyBatchLocked, DB.applyOps_eq]
    apply DB.Ordered.rotateIfFull
    apply inv.ordered.withActive
    intro entry entryMem
    rcases Memtable.mem_foldl_put.mp entryMem with isNew | old
    · exact .inr (fresh entry isNew)
    · exact .inl old
  · rw [DB.applyBatchLocked, DB.applyOps_eq]
    apply DB.Identified.rotateIfFull
    · apply inv.identified.withActive
      exact Memtable.foldl_put_id _ _
    · exact idFits
  · intro entry
    rw [DB.mem_entries_applyBatchLocked, inv.contents, mem_append]
  · rw [pairwise_append]
    refine ⟨inv.ascending, stamp_pairwise seqFits, ?_⟩
    intro old oldMem entry entryMem
    exact (fresh entry entryMem).2 old ((inv.contents old).mpr oldMem)
  · intro entry entryMem
    rw [DB.nextSeq_applyBatchLocked, addUint64_eq seqFits]
    rcases mem_append.mp entryMem with old | isNew
    · exact (inv.bound entry old).trans (Nat.le_add_right _ _)
    · exact (seq_of_mem_stamp seqFits isNew).2

theorem Invariant.flush (inv : e.Invariant) (clean : ∀ entry ∈ e.history, entry.value.Clean)
    {db : DB} (flushed : e.db.flush opts = some db) :
    (⟨db, e.history⟩ : Engine).Invariant := by
  rcases DB.flush_eq_some flushed with ⟨older, mt, table, immutables, built, rfl⟩
  have mtMem : mt ∈ e.db.memtables := by
    simp [DB.memtables, immutables]
  rcases flushTable_eq_ok (inv.ordered.long mt mtMem) built with ⟨contents, sound⟩
  have mtClean : ∀ entry ∈ mt.entries, entry.value.Clean := by
    intro entry entryMem
    apply clean entry
    exact (inv.contents entry).mp (DB.mem_entries_iff.mpr (.inl ⟨mt, mtMem, entryMem⟩))
  rw [map_flushedEntry mtClean] at contents
  constructor
  · exact inv.ordered.flushed immutables contents sound
  · exact inv.identified.flushed immutables (flushTable_id built)
  · intro entry
    rw [← inv.contents, DB.mem_entries_flushed immutables contents]
  · exact inv.ascending
  · exact inv.bound

theorem Invariant.compact (inv : e.Invariant) (free : PrefixFree e.history)
    (safe : e.db.SafeToCompact opts) {sorter : Sorter Reader.firstKey} {db : DB}
    (compacted : e.db.compact opts sorter = some db) :
    (⟨db, e.history⟩ : Engine).Invariant := by
  have freeDb : PrefixFree e.db.entries := free.mono fun entry => (inv.contents entry).mp
  rcases inv.ordered.compact inv.identified freeDb safe compacted with
    ⟨ordered, identified, sameSeq, sameEntries⟩
  constructor
  · exact ordered
  · exact identified
  · intro entry
    rw [← inv.contents, sameEntries]
  · exact inv.ascending
  · intro entry entryMem
    rw [sameSeq]
    exact inv.bound entry entryMem

theorem history_subset {a : Action} (stepped : e.step opts a = some next) :
    e.history ⊆ next.history := by
  cases stepped_of_step stepped with
  | write => exact subset_append_left _ _
  | flush => exact List.Subset.refl _
  | compact => exact List.Subset.refl _

theorem Invariant.step (inv : e.Invariant) (clean : ∀ entry ∈ e.history, entry.value.Clean)
    (free : PrefixFree e.history) {a : Action} (safe : e.Safe opts a)
    (stepped : e.step opts a = some next) : next.Invariant := by
  cases stepped_of_step stepped with
  | write => exact inv.write safe
  | flush flushed => exact inv.flush clean flushed
  | compact compacted => exact inv.compact free safe compacted

theorem invariant_of_reached (reached : Reached (step opts) (Safe opts) (start opts) e)
    (clean : ∀ entry ∈ e.history, entry.value.Clean) (free : PrefixFree e.history) :
    e.Invariant := by
  -- the assumptions on the versions written are passed down to the shorter histories
  have kept : (∀ entry ∈ e.history, entry.value.Clean) → PrefixFree e.history → e.Invariant := by
    apply reached.invariant fun e =>
      (∀ entry ∈ e.history, entry.value.Clean) → PrefixFree e.history → e.Invariant
    · exact fun _ _ => start_invariant opts
    intro state next action inv safe stepped clean free
    have before := history_subset stepped
    have cleanBefore : ∀ entry ∈ state.history, entry.value.Clean := fun entry mem =>
      clean entry (before mem)
    have freeBefore := free.mono before
    exact (inv cleanBefore freeBefore).step cleanBefore freeBefore safe stepped
  exact kept clean free

/-- In every run of safe steps reads are exact, the levels are ordered by age and
a safe compaction cannot be seen by a reader. -/
theorem compaction_invisible (reached : Reached (step opts) (Safe opts) (start opts) e)
    (clean : ∀ entry ∈ e.history, entry.value.Clean) (free : PrefixFree e.history) :
    e.ReadsNewest ∧ e.LevelsOrdered ∧
      ∀ sorter next, e.Safe opts (.compact sorter) → e.step opts (.compact sorter) = some next →
        next.LevelsOrdered ∧ ∀ user maxSeq, next.db.getAt user maxSeq = e.db.getAt user maxSeq := by
  have inv := invariant_of_reached reached clean free
  refine ⟨inv.readsNewest free, inv.levelsOrdered, ?_⟩
  intro sorter next safe stepped
  have nextInv := inv.step clean free safe stepped
  have sameHistory : next.history = e.history := by
    rcases Option.map_eq_some_iff.mp stepped with ⟨db, _, rfl⟩
    rfl
  refine ⟨nextInv.levelsOrdered, ?_⟩
  intro user maxSeq
  have newest := nextInv.readsNewest (sameHistory ▸ free) user maxSeq
  rw [sameHistory] at newest
  exact newest.unique inv.distinct (inv.readsNewest free user maxSeq)

end

/-! ## Outputs that end between two versions of a user key -/

/-- Memtables of two small writes and a target of one entry for every new table. -/
def tinyOptions : Options :=
  { defaultOptions with
    memtableSize := 20
    compaction :=
      { Compaction.defaultConfig with
        l0CompactionTrigger := 1, levelSizeBase := 10, maxLevels := 4 } }

/-- Two writes that fill the memtable, its flush and a compaction of L0. -/
def writeAndCompact (first second : BatchOp) : List Action :=
  [.write [first], .write [second], .flush, .compact (.insertion _)]

/-- `Put("k", "1")` and `Put("k", "2")`: the compaction of L0 writes one table for
each version.  The second compaction moves the newer version below the older
one, which every later read then returns. -/
theorem splitVersions_lose_newest :
    let actions := writeAndCompact (.put [107] (some [49])) (.put [107] (some [50]))
    (run (step tinyOptions) (start tinyOptions) actions).map
        (fun e => e.db.getAt [107] 2) = some (some (.new (some [50]))) ∧
      (run (step tinyOptions) (start tinyOptions) (actions ++ [.compact (.insertion _)])).map
        (fun e => e.db.getAt [107] 2) = some (some (.new (some [49]))) := by
  decide +kernel

/-- Two user keys in tables of their own may go down one by one. -/
theorem splitUsers_compaction_invisible :
    ∃ e next, Reached (step tinyOptions) (Safe tinyOptions) (start tinyOptions) e ∧
      e.ReadsNewest ∧ e.step tinyOptions (.compact (.insertion _)) = some next ∧
      ∀ user maxSeq, next.db.getAt user maxSeq = e.db.getAt user maxSeq := by
  have evaluated : ∃ e ∈ runAllowed (step tinyOptions) (Safe tinyOptions) (start tinyOptions)
      (writeAndCompact (.put [97] (some [49])) (.put [98] (some [50]))),
        (∀ entry ∈ e.history, entry.value.Clean) ∧ PrefixFree e.history ∧
          e.db.SafeToCompact tinyOptions ∧
          ∃ next ∈ e.step tinyOptions (.compact (.insertion _)), True := by
    decide +kernel
  rcases Reached.of_evaluated evaluated with ⟨e, reached, clean, free, safe, next, stepped, _⟩
  rcases compaction_invisible reached clean free with ⟨reads, _, invisible⟩
  exact ⟨e, next, reached, reads, stepped, (invisible _ next safe stepped).2⟩

end Engine

end Theseon
