import Theseon.Compaction.Picker
import Theseon.Memtable.Memtable

/-!
# The in-memory state of the engine and its write path

A write stamps its operations with consecutive sequence numbers, puts them into
the active memtable and rotates the memtable once it has reached its size.  The
write-ahead log of a memtable carries the identifier of the memtable, so the
state needs no handle on it.
-/

namespace Theseon

open Lib KV SSTable Compaction List

/-- `Options`, without the directory, the cache size and what only concerns
logging. -/
structure Options where
  memtableSize : Int
  blockSize : Int
  maxImmutableCount : Int
  compaction : Config

def defaultOptions : Options where
  memtableSize := 64 * 1024 * 1024
  blockSize := 4096
  maxImmutableCount := 5
  compaction := defaultConfig

/-- The options as `Open` keeps them. -/
def Options.normalized (opts : Options) : Options :=
  if opts.maxImmutableCount ≤ 0 then { opts with maxImmutableCount := 5 } else opts

theorem Options.normalized_positive (opts : Options) : 0 < opts.normalized.maxImmutableCount := by
  rw [normalized]
  split
  · exact Int.ofNat_lt.mpr (Nat.succ_pos 4)
  · rename_i positive
    exact not_le.mp positive

/-- `DB`: the memtables, the tables of every level and the two counters.
`levels` is indexed by level number and its entry 0 stays empty. -/
structure DB where
  active : Memtable
  immutables : List Memtable
  l0 : List Reader
  levels : List (List Reader)
  nextMemID : Nat
  nextSeq : Nat

structure BatchOp where
  key : Bytes
  value : Option Bytes
  tombstone : Bool
  deriving DecidableEq, Repr

namespace BatchOp

def put (key : Bytes) (value : Option Bytes) : BatchOp :=
  ⟨key, value, false⟩

def delete (key : Bytes) : BatchOp :=
  ⟨key, none, true⟩

/-- The value that the operation stores. -/
def stored (op : BatchOp) : Value :=
  if op.tombstone then .newTombstone else .new op.value

/-- The version that the operation writes under sequence number `seq`. -/
def entry (op : BatchOp) (seq : Nat) : Entry :=
  ⟨makeInternalKey op.key seq, op.stored⟩

end BatchOp

/-- The value of a `uint64` counter after `Add(n)`. -/
def addUint64 (counter n : Nat) : Nat :=
  (counter + n) % 2 ^ 64

/-- The versions that `applyBatchLocked` writes when the counter stands at `seq`:
its `baseSeq + i` is the counter advanced once for every operation, and wraps. -/
def stamp : Nat → List BatchOp → List Entry
  | _, [] => []
  | seq, op :: rest => op.entry (addUint64 seq 1) :: stamp (addUint64 seq 1) rest

namespace DB

/-- The memory part of `newMemtable`. -/
def newMemtable (db : DB) : DB :=
  let id := addUint64 db.nextMemID 1
  { db with active := .new id, nextMemID := id }

/-- The memory part of `rotateMemtable`. -/
def rotateMemtable (db : DB) : DB :=
  newMemtable { db with immutables := db.active.freeze :: db.immutables }

/-- The active memtable has reached its size. -/
def full (opts : Options) (db : DB) : Bool :=
  opts.memtableSize ≤ db.active.approximateSize

/-- The check for rotation that ends every write. -/
def rotateIfFull (opts : Options) (db : DB) : DB :=
  if db.full opts then db.rotateMemtable else db

/-- The active memtable takes an entry. -/
def insert (db : DB) (entry : Entry) : DB :=
  { db with active := db.active.put entry.key entry.value }

/-- `Put`, once the record is in the log. -/
def put (opts : Options) (db : DB) (key : Bytes) (value : Option Bytes) : DB :=
  let seq := addUint64 db.nextSeq 1
  rotateIfFull opts
    (insert { db with nextSeq := seq } ⟨makeInternalKey key seq, .new value⟩)

/-- `Delete`, once the record is in the log. -/
def delete (opts : Options) (db : DB) (key : Bytes) : DB :=
  let seq := addUint64 db.nextSeq 1
  rotateIfFull opts
    (insert { db with nextSeq := seq } ⟨makeInternalKey key seq, .newTombstone⟩)

/-- `applyBatchLocked` up to the check for rotation, once the record is in the
log. -/
def applyOps (db : DB) (ops : List BatchOp) : DB :=
  (stamp db.nextSeq ops).foldl insert
    { db with nextSeq := addUint64 db.nextSeq ops.length }

/-- `applyBatchLocked`, once the record is in the log. -/
def applyBatchLocked (opts : Options) (db : DB) (ops : List BatchOp) : DB :=
  rotateIfFull opts (db.applyOps ops)

/-- The state of `Open` on an empty directory, for `MaxLevels` at least 0.  With less, the
list of levels cannot be made. -/
def fresh (opts : Options) : DB :=
  newMemtable
    { active := .new 0
      immutables := []
      l0 := []
      levels := List.replicate opts.compaction.maxLevels.toNat []
      nextMemID := 0
      nextSeq := 0 }

theorem put_eq_applyBatchLocked (opts : Options) (db : DB) (key : Bytes) (value : Option Bytes) :
    db.put opts key value = db.applyBatchLocked opts [.put key value] :=
  rfl

theorem delete_eq_applyBatchLocked (opts : Options) (db : DB) (key : Bytes) :
    db.delete opts key = db.applyBatchLocked opts [.delete key] :=
  rfl

/-! ## What a write changes -/

/-- Insertions only change the active memtable. -/
theorem foldl_insert (db : DB) (entries : List Entry) :
    entries.foldl insert db =
      { db with
        active := entries.foldl (fun m entry => m.put entry.key entry.value) db.active } := by
  induction entries generalizing db with
  | nil => rfl
  | cons entry rest ih => rw [foldl_cons, ih]; rfl

theorem applyOps_eq (db : DB) (ops : List BatchOp) :
    db.applyOps ops =
      { db with
        active := (stamp db.nextSeq ops).foldl
          (fun m entry => m.put entry.key entry.value) db.active
        nextSeq := addUint64 db.nextSeq ops.length } := by
  rw [applyOps, foldl_insert]

/-- A rotation changes the memtables and the next identifier, or nothing. -/
theorem rotateIfFull_cases (opts : Options) (db : DB) :
    db.rotateIfFull opts = db ∨
      db.full opts = true ∧ db.rotateIfFull opts = db.rotateMemtable := by
  unfold rotateIfFull
  split
  · rename_i full
    exact .inr ⟨full, rfl⟩
  · exact .inl rfl

end DB

/-! ## Sequence numbers -/

theorem addUint64_eq {counter n : Nat} (fits : counter + n ≤ maxSeqNum) :
    addUint64 counter n = counter + n := by
  refine Nat.mod_eq_of_lt ?_
  simp only [maxSeqNum] at fits
  omega

theorem addUint64_add (counter m n : Nat) :
    addUint64 (addUint64 counter m) n = addUint64 counter (m + n) := by
  simp only [addUint64]
  omega

variable {op : BatchOp} {seq : Nat} {ops : List BatchOp} {entry : Entry}

theorem BatchOp.entry_user (seq : Nat) : (op.entry seq).user = op.key :=
  userKey_makeInternalKey _ _

theorem BatchOp.entry_long (seq : Nat) : (op.entry seq).Long := by
  rw [Entry.Long, BatchOp.entry, makeInternalKey_length]
  omega

theorem BatchOp.entry_seq (fits : seq ≤ maxSeqNum) : (op.entry seq).seq = seq :=
  seqNum_makeInternalKey fits

@[simp]
theorem length_stamp (seq : Nat) (ops : List BatchOp) : (stamp seq ops).length = ops.length := by
  induction ops generalizing seq with
  | nil => rfl
  | cons op rest ih => simp [stamp, ih]

theorem exists_op_of_mem_stamp (mem : entry ∈ stamp seq ops) :
    ∃ op ∈ ops, ∃ n, entry = op.entry n := by
  induction ops generalizing seq with
  | nil => cases mem
  | cons op rest ih =>
    rcases mem_cons.mp mem with rfl | inRest
    · exact ⟨op, mem_cons_self, _, rfl⟩
    · rcases ih inRest with ⟨other, otherMem, isEntry⟩
      exact ⟨other, mem_cons_of_mem _ otherMem, isEntry⟩

theorem long_of_mem_stamp (mem : entry ∈ stamp seq ops) : entry.Long := by
  rcases exists_op_of_mem_stamp mem with ⟨op, _, n, rfl⟩
  exact op.entry_long n

/-- As long as the counter does not wrap, the numbers ascend from the counter. -/
theorem seq_of_mem_stamp (fits : seq + ops.length ≤ maxSeqNum) (mem : entry ∈ stamp seq ops) :
    seq < entry.seq ∧ entry.seq ≤ seq + ops.length := by
  induction ops generalizing seq with
  | nil => cases mem
  | cons op rest ih =>
    rw [length_cons] at fits ⊢
    have next : addUint64 seq 1 = seq + 1 := addUint64_eq (by omega)
    rw [stamp, next] at mem
    rcases mem_cons.mp mem with rfl | inRest
    · rw [BatchOp.entry_seq (by omega)]
      omega
    · have := ih (by omega) inRest
      omega

theorem stamp_pairwise (fits : seq + ops.length ≤ maxSeqNum) :
    (stamp seq ops).Pairwise fun first second => first.seq < second.seq := by
  induction ops generalizing seq with
  | nil => exact List.Pairwise.nil
  | cons op rest ih =>
    rw [length_cons] at fits
    have next : addUint64 seq 1 = seq + 1 := addUint64_eq (by omega)
    rw [stamp, next, pairwise_cons]
    constructor
    · intro later laterMem
      rw [BatchOp.entry_seq (by omega)]
      exact (seq_of_mem_stamp (by omega) laterMem).1
    · exact ih (by omega)

end Theseon
