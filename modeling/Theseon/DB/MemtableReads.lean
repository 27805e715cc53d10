import Theseon.DB.Read

/-!
# Reads of writes held in one memtable

The engine runs a sequence of `Put` and `Delete` calls that all stay in the
active memtable, whose skip list draws an arbitrary tower for every insertion.
The reads return the newest visible version of every user key exactly when the
suffix by which one written user key extends another one never competes with
the sequence bytes of the shorter key.
-/

namespace Theseon

open Lib KV Memtable List

/-- A call of the write interface for one key. -/
inductive Call where
  | put (key : Bytes) (value : Option Bytes)
  | delete (key : Bytes)
  deriving DecidableEq, Repr

/-- The operation of a call. -/
def Call.op : Call → BatchOp
  | put key value => .put key value
  | delete key => .delete key

namespace DB

/-- The engine after one call. -/
def call (opts : Options) (db : DB) : Call → DB
  | .put key value => db.put opts key value
  | .delete key => db.delete opts key

/-- An engine whose only source is an empty memtable. -/
def empty (id seq levels : Nat) : DB where
  active := .new id
  immutables := []
  l0 := []
  levels := List.replicate levels []
  nextMemID := id
  nextSeq := seq

variable {opts : Options}

theorem call_eq (db : DB) (c : Call) : db.call opts c = db.applyBatchLocked opts [c.op] := by
  cases c <;> rfl

theorem immutables_call (db : DB) (c : Call) :
    (db.call opts c).immutables = db.immutables ∧
        db.call opts c = db.applyOps [c.op] ∨
      (db.call opts c).immutables ≠ [] := by
  rw [call_eq, applyBatchLocked]
  rcases rotateIfFull_cases opts (db.applyOps [c.op]) with kept | ⟨_, rotated⟩
  · exact .inl ⟨by rw [kept]; rfl, kept⟩
  right
  rw [rotated]
  simp [rotateMemtable, newMemtable]

/-- Immutable memtables only go away through a flush. -/
theorem immutables_ne_nil_of_calls {db : DB} (calls : List Call) (filled : db.immutables ≠ []) :
    (calls.foldl (call opts) db).immutables ≠ [] := by
  induction calls generalizing db with
  | nil => exact filled
  | cons c rest ih =>
    rw [foldl_cons]
    refine ih ?_
    rcases immutables_call db c with ⟨same, _⟩ | filled
    · rw [same]
      exact filled
    · exact filled

/-- As long as nothing is rotated out, the calls stamp their versions in turn
and leave them all in the active memtable. -/
theorem calls_eq_applyOps {db : DB} (calls : List Call)
    (held : (calls.foldl (call opts) db).immutables = []) (start : db.nextSeq < 2 ^ 64) :
    calls.foldl (call opts) db = db.applyOps (calls.map Call.op) := by
  induction calls generalizing db with
  | nil =>
    obtain ⟨active, immutables, l0, levels, nextMemID, nextSeq⟩ := db
    simp only [foldl_nil, map_nil, applyOps, stamp, length_nil, addUint64,
      Nat.add_zero, Nat.mod_eq_of_lt start]
  | cons c rest ih =>
    rw [foldl_cons] at held ⊢
    rcases immutables_call db c with ⟨_, step⟩ | filled
    · rw [step] at held ⊢
      rw [ih held (Nat.mod_lt _ (by decide))]
      simp only [applyOps_eq, map_cons, stamp, foldl_cons, foldl_nil,
        length_cons, length_nil, addUint64_add]
      congr 2
      omega
    · exact absurd held (immutables_ne_nil_of_calls rest filled)

end DB

/-- No suffix by which a user key extends another one competes with the inverted
sequence bytes of the shorter key: completed by the sequence bytes of its own
version it does not sort below a version of the shorter key, and a version of
the shorter key does not sort into the range of the longer one. -/
def SuffixesApart (versions : List Entry) : Prop :=
  ∀ entry ∈ versions, ∀ other ∈ versions, ∀ w, w ≠ [] →
    (other.user = entry.user ++ w →
      ¬ w ++ invertedSeq other.seq < invertedSeq entry.seq) ∧
    (entry.user = other.user ++ w →
      ¬ (w ++ invertedSeq maxSeqNum ≤ invertedSeq other.seq ∧
        invertedSeq other.seq < w ++ invertedSeq entry.seq))

theorem unshadowed_iff_suffixesApart {versions : List Entry} :
    Unshadowed versions ↔ SuffixesApart versions := by
  constructor
  · intro unshadowed entry entryMem other otherMem w nonempty
    have free := unshadowed entry entryMem other otherMem
    rw [shadows_iff] at free
    exact ⟨fun extends_ below => free (.inl ⟨w, nonempty, extends_, below⟩),
      fun extends_ between => free (.inr ⟨w, nonempty, extends_, between⟩)⟩
  · intro apart entry entryMem other otherMem shadows
    rcases (shadows_iff _ _ _ _).mp shadows with
      ⟨w, nonempty, extends_, below⟩ | ⟨w, nonempty, extends_, between⟩
    · exact (apart entry entryMem other otherMem w nonempty).1 extends_ below
    · exact (apart entry entryMem other otherMem w nonempty).2 extends_ between

/-- Every way to read returns the newest visible one of the written versions:
the skip list, the memtable, a snapshot at any sequence number and `Get`. -/
structure ReadsNewest (versions : List Entry) (s : SkipList) (db : DB) : Prop where
  skipList : ∀ user maxSeq, NewestAt versions user maxSeq (s.getAt user maxSeq)
  memtable : ∀ user maxSeq, NewestAt versions user maxSeq (db.active.getAt user maxSeq)
  snapshot : ∀ user maxSeq, NewestAt versions user maxSeq (Snapshot.get ⟨db, maxSeq⟩ user)
  get : ∀ user, NewestAt versions user db.nextSeq (db.get user)

/-- The reads of an engine whose versions are all in the active memtable. -/
theorem readsNewest_iff {versions : List Entry} {s : SkipList} {db : DB}
    (represents : Represents s db.active)
    (held : ∀ user maxSeq, db.getAt user maxSeq = db.active.getAt user maxSeq)
    (holds : ∀ entry, entry ∈ db.active.entries ↔ entry ∈ versions)
    (long : ∀ entry ∈ versions, entry.Long) :
    ReadsNewest versions s db ↔ Unshadowed versions := by
  have memtableIff := lookupAt_newestAt_iff db.active.sorted fun entry mem =>
    long entry ((holds entry).mp mem)
  simp only [NewestAt.congr holds, Unshadowed.congr holds] at memtableIff
  rw [← memtableIff]
  constructor
  · exact fun reads => reads.memtable
  · intro newest
    refine ⟨?_, newest, ?_, ?_⟩
    · intro user maxSeq
      rw [represents.getAt_eq]
      exact newest user maxSeq
    · intro user maxSeq
      rw [Snapshot.get, held]
      exact newest user maxSeq
    · intro user
      rw [DB.get, held]
      exact newest user _

theorem DB.getAt_eq_active {db : DB} (immutables : db.immutables = []) (l0 : db.l0 = [])
    {levels : Nat} (deeper : db.levels = List.replicate levels []) (user : Bytes) (maxSeq : Nat) :
    db.getAt user maxSeq = db.active.getAt user maxSeq := by
  have noTables : (db.levels.drop 1).flatten = [] := by
    simp [deeper]
  simp only [DB.getAt, DB.sources, immutables, l0, noTables, map_nil, append_nil,
    findSome?_cons, findSome?_nil, Source.getAt]
  cases db.active.getAt user maxSeq <;> rfl

section

variable (opts : Options) (id seq levels : Nat) (calls : List (Call × Tower))

/-- The engine after the calls. -/
def heldIn : DB :=
  (calls.map Prod.fst).foldl (DB.call opts) (DB.empty id (seq % 2 ^ 64) levels)

/-- The versions that the calls write. -/
def written : List Entry :=
  stamp (seq % 2 ^ 64) (calls.map fun call => call.1.op)

/-- The skip list of the memtable after the calls. -/
def skipListAfter : SkipList :=
  skipListOf ((written seq calls).zip (calls.map Prod.snd))

end

/-- For every run of calls held in one memtable, all reads return the newest
visible version exactly when the suffixes of the written keys stay apart. -/
theorem memtable_readsNewest_iff (opts : Options) (id seq levels : Nat)
    (calls : List (Call × Tower)) (held : (heldIn opts id seq levels calls).immutables = []) :
    ReadsNewest (written seq calls) (skipListAfter seq calls) (heldIn opts id seq levels calls) ↔
      SuffixesApart (written seq calls) := by
  have state : heldIn opts id seq levels calls =
      (DB.empty id (seq % 2 ^ 64) levels).applyOps (calls.map fun call => call.1.op) := by
    rw [heldIn, DB.calls_eq_applyOps _ held (Nat.mod_lt _ (by decide)), map_map]
    rfl
  have active : (heldIn opts id seq levels calls).active = memtableOf id (written seq calls) := by
    rw [state, DB.applyOps_eq]
    rfl
  have drawn : ((written seq calls).zip (calls.map Prod.snd)).map Prod.fst = written seq calls := by
    rw [map_fst_zip]
    simp [written, length_stamp]
  rw [← unshadowed_iff_suffixesApart]
  refine readsNewest_iff ?_ ?_ ?_ ?_
  · rw [active, skipListAfter]
    have represents := represents_of_puts id ((written seq calls).zip (calls.map Prod.snd))
    rw [drawn] at represents
    exact represents
  · have noL0 : (heldIn opts id seq levels calls).l0 = [] := by
      rw [state, DB.applyOps_eq]
      rfl
    have noLevels : (heldIn opts id seq levels calls).levels = List.replicate levels [] := by
      rw [state, DB.applyOps_eq]
      rfl
    exact DB.getAt_eq_active held noL0 noLevels
  · intro entry
    rw [active, mem_memtableOf]
  · exact fun entry mem => long_of_mem_stamp mem

/-! ## Prefixes -/

/-- `Put("user:1", "a")` followed by `Put("user:10", "b")`. -/
def prefixPuts : List (Call × Tower) :=
  [(.put [117, 115, 101, 114, 58, 49] (some [97]), ⟨1, by decide⟩),
    (.put [117, 115, 101, 114, 58, 49, 48] (some [98]), ⟨1, by decide⟩)]

/-- The write to `user:10` hides the older one to `user:1` from every reader. -/
theorem prefixPuts_hides_shorter_key :
    (skipListAfter 0 prefixPuts).getAt [117, 115, 101, 114, 58, 49] 2 = none ∧
      (heldIn defaultOptions 1 0 7 prefixPuts).get [117, 115, 101, 114, 58, 49] = none ∧
      ¬ ReadsNewest (written 0 prefixPuts) (skipListAfter 0 prefixPuts)
        (heldIn defaultOptions 1 0 7 prefixPuts) := by
  have missed :
      (heldIn defaultOptions 1 0 7 prefixPuts).get [117, 115, 101, 114, 58, 49] = none := by
    decide +kernel
  refine ⟨by decide +kernel, missed, ?_⟩
  intro reads
  have newest := reads.get [117, 115, 101, 114, 58, 49]
  rw [missed] at newest
  have tooNew := newest (Call.op (.put [117, 115, 101, 114, 58, 49] (some [97])) |>.entry 1)
    (by decide +kernel) (by decide +kernel)
  exact absurd tooNew (by decide +kernel)

/-- `Put("a", "1")`, `Delete("b")` and a second `Put("a", "2")`. -/
def plainCalls : List (Call × Tower) :=
  [(.put [97] (some [49]), ⟨2, by decide⟩), (.delete [98], ⟨1, by decide⟩),
    (.put [97] (some [50]), ⟨3, by decide⟩)]

theorem plainCalls_readsNewest :
    (heldIn defaultOptions 1 0 7 plainCalls).immutables = [] ∧
      ReadsNewest (written 0 plainCalls) (skipListAfter 0 plainCalls)
        (heldIn defaultOptions 1 0 7 plainCalls) := by
  have held : (heldIn defaultOptions 1 0 7 plainCalls).immutables = [] := by
    decide +kernel
  have free : PrefixFree (written 0 plainCalls) := by
    unfold PrefixFree Unrelated
    decide +kernel
  exact ⟨held, (memtable_readsNewest_iff defaultOptions 1 0 7 plainCalls held).mpr
    (unshadowed_iff_suffixesApart.mp free.unshadowed)⟩

end Theseon
