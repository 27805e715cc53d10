import Theseon.DB.Recover
import Theseon.WAL.Limits

/-!
# Committed batches in the log

A commit appends one record with all its operations to the log of the active
memtable.  The record has fixed-width fields for the number of its operations and
for all lengths, and no commit checks that they fit.  Recovery returns a batch
whole exactly when it fits.
-/

namespace Theseon

open Lib KV List

/-- The bytes that an operation stores. -/
def BatchOp.data (op : BatchOp) : Bytes :=
  if op.tombstone then [] else op.value.getD []

/-- The batch fits the fields of a record. -/
structure BatchFits (ops : List BatchOp) : Prop where
  count : ops.length < 2 ^ 16
  key : ∀ op ∈ ops, op.key.length < 2 ^ 16
  data : ∀ op ∈ ops, op.data.length < 2 ^ 32
  payload : 2 + (ops.map fun op => WAL.entryHeader + op.key.length + op.data.length).sum < 2 ^ 32

/-- The log of the active memtable and the counter. -/
structure ActiveLog where
  file : Bytes
  nextSeq : Nat

/-- `WriteBatch.Commit` and `Transaction.Commit` up to the record in the log. -/
def ActiveLog.commit (log : ActiveLog) (ops : List BatchOp) : ActiveLog :=
  if ops = [] then log
  else ⟨log.file ++ WAL.encodeRecord (logEntries log.nextSeq ops), addUint64 log.nextSeq ops.length⟩

/-- The log after commits, from a new file. -/
def commitAll (seq : Nat) (batches : List (List BatchOp)) : ActiveLog :=
  batches.foldl ActiveLog.commit ⟨[], seq⟩

/-- The operations of the commits with the sequence numbers they get. -/
def committed : Nat → List (List BatchOp) → List (List WAL.Entry)
  | _, [] => []
  | seq, ops :: rest =>
    if ops = [] then committed seq rest
    else logEntries seq ops :: committed (addUint64 seq ops.length) rest

/-- Recovery returns the operations in order. -/
def RecoveredWhole (file : Bytes) (entries : List WAL.Entry) : Prop :=
  ∃ recovered, WAL.recover file = .ok recovered ∧ List.Forall₂ WAL.Entry.Same entries recovered

/-! ## The records of a batch -/

@[simp]
theorem logEntries_length (seq : Nat) (ops : List BatchOp) :
    (logEntries seq ops).length = ops.length := by
  induction ops generalizing seq with
  | nil => rfl
  | cons op rest ih => simp [logEntries, ih]

variable {ops : List BatchOp} {seq : Nat}

theorem logEntries_eq_nil : logEntries seq ops = [] ↔ ops = [] := by
  rw [← length_eq_zero_iff, logEntries_length, length_eq_zero_iff]

theorem addUint64_le (counter n : Nat) : addUint64 counter n ≤ maxSeqNum := by
  have := Nat.mod_lt (counter + n) (show 0 < 2 ^ 64 by decide)
  rw [addUint64, maxSeqNum]
  omega

theorem data_stored (op : BatchOp) (seq : Nat) :
    (⟨seq, op.key, op.stored⟩ : WAL.Entry).data = op.data := by
  rcases op with ⟨key, value, _ | _⟩
  · rfl
  · rfl

theorem fits_logEntries_entry :
    (∀ entry ∈ logEntries seq ops, entry.Fits) ↔
      ∀ op ∈ ops, op.key.length < 2 ^ 16 ∧ op.data.length < 2 ^ 32 := by
  induction ops generalizing seq with
  | nil => simp [logEntries]
  | cons op rest ih =>
    rw [logEntries, forall_mem_cons, forall_mem_cons, ih]
    apply and_congr_left'
    constructor
    · intro fits
      exact ⟨fits.key, data_stored op _ ▸ fits.data⟩
    · rintro ⟨key, data⟩
      exact ⟨addUint64_le _ _, key, (data_stored op _).symm ▸ data⟩

theorem payload_logEntries (seq : Nat) (ops : List BatchOp) :
    (WAL.encodePayload (logEntries seq ops)).length =
      2 + (ops.map fun op => WAL.entryHeader + op.key.length + op.data.length).sum := by
  have entries : ((logEntries seq ops).flatMap WAL.encodeEntry).length =
      (ops.map fun op => WAL.entryHeader + op.key.length + op.data.length).sum := by
    induction ops generalizing seq with
    | nil => rfl
    | cons op rest ih =>
      rw [logEntries, flatMap_cons, length_append, ih, WAL.encodeEntry_length,
        data_stored, map_cons, sum_cons]
  rw [WAL.encodePayload, length_append, entries, littleEndian_length]

/-- Whether a batch fits does not depend on its sequence numbers. -/
theorem fits_logEntries :
    WAL.Fits (logEntries seq ops) ↔ BatchFits ops := by
  constructor
  · intro fits
    have each := fits_logEntries_entry.mp fits.entry
    exact ⟨logEntries_length seq ops ▸ fits.count, fun op mem => (each op mem).1,
      fun op mem => (each op mem).2, payload_logEntries seq ops ▸ fits.payload⟩
  · intro fits
    refine ⟨(logEntries_length seq ops).symm ▸ fits.count, ?_,
      (payload_logEntries seq ops).symm ▸ fits.payload⟩
    exact fits_logEntries_entry.mpr fun op mem => ⟨fits.key op mem, fits.data op mem⟩

theorem same_readBack_logEntries (seq : Nat) (ops : List BatchOp) :
    List.Forall₂ WAL.Entry.Same (logEntries seq ops)
      ((logEntries seq ops).map WAL.Entry.readBack) := by
  induction ops generalizing seq with
  | nil => exact .nil
  | cons op rest ih =>
    refine .cons (WAL.Entry.same_readBack _ ?_) (ih _)
    rcases op with ⟨key, value, _ | _⟩
    · intro isTombstone
      cases isTombstone
    · exact fun _ => rfl

/-! ## The log of several batches -/

theorem foldl_commit (log : ActiveLog) (batches : List (List BatchOp)) :
    (batches.foldl ActiveLog.commit log).file =
      log.file ++ (committed log.nextSeq batches).flatMap WAL.encodeRecord := by
  induction batches generalizing log with
  | nil => simp [committed]
  | cons ops rest ih =>
    rw [foldl_cons, ih, ActiveLog.commit, committed]
    split
    · rfl
    · rw [flatMap_cons, append_assoc]

theorem commitAll_file (seq : Nat) (batches : List (List BatchOp)) :
    (commitAll seq batches).file = (committed seq batches).flatMap WAL.encodeRecord := by
  rw [commitAll, foldl_commit, nil_append]

/-- The counter after commits. -/
def seqAfter (seq : Nat) (batches : List (List BatchOp)) : Nat :=
  (commitAll seq batches).nextSeq

theorem committed_append (seq : Nat) (first second : List (List BatchOp)) :
    committed seq (first ++ second) =
      committed seq first ++ committed (seqAfter seq first) second := by
  have general : ∀ (file : Bytes) (seq : Nat), committed seq (first ++ second) =
      committed seq first ++
        committed (first.foldl ActiveLog.commit ⟨file, seq⟩).nextSeq second := by
    induction first with
    | nil => exact fun file seq => rfl
    | cons ops rest ih =>
      intro file seq
      rw [cons_append, committed, committed, foldl_cons, ActiveLog.commit]
      split
      · exact ih file seq
      · rw [ih (file ++ WAL.encodeRecord (logEntries seq ops)), cons_append]
  exact general [] seq

theorem fits_of_mem_committed {batches : List (List BatchOp)}
    (fits : ∀ ops ∈ batches, BatchFits ops) :
    ∀ record ∈ committed seq batches, WAL.Fits record := by
  induction batches generalizing seq with
  | nil => exact fun record mem => nomatch mem
  | cons ops rest ih =>
    rw [forall_mem_cons] at fits
    rw [committed]
    split
    · exact ih fits.2
    · rw [forall_mem_cons]
      exact ⟨fits_logEntries.mpr fits.1, ih fits.2⟩

theorem same_readBack_committed (seq : Nat) (batches : List (List BatchOp)) :
    List.Forall₂ WAL.Entry.Same (committed seq batches).flatten
      ((committed seq batches).flatten.map WAL.Entry.readBack) := by
  induction batches generalizing seq with
  | nil => exact .nil
  | cons ops rest ih =>
    rw [committed]
    split
    · exact ih seq
    · rw [flatten_cons, map_append]
      exact rel_append (same_readBack_logEntries seq ops) (ih _)

/-- Behind batches that fit, a batch is only recovered whole if it fits. -/
theorem batchFits_of_recoveredWhole {seq : Nat} {earlier : List (List BatchOp)}
    {ops : List BatchOp} (fits : ∀ batch ∈ earlier, BatchFits batch)
    (whole : RecoveredWhole (commitAll seq (earlier ++ [ops])).file
      (committed seq (earlier ++ [ops])).flatten) : BatchFits ops := by
  rcases whole with ⟨recovered, done, same⟩
  by_cases empty : ops = []
  · subst empty
    exact ⟨by decide, (fun _ mem => nomatch mem), (fun _ mem => nomatch mem), by decide⟩
  rw [commitAll_file, committed_append, committed, if_neg empty, committed,
    flatMap_append, flatMap_singleton,
    WAL.recover_append (fits_of_mem_committed fits)] at done
  rw [committed_append, committed, if_neg empty, committed, flatten_append,
    flatten_singleton] at same
  rcases last : WAL.recover (WAL.encodeRecord (logEntries (seqAfter seq earlier) ops)) with
    err | later
  · rw [last] at done
    cases done
  rw [last] at done
  cases done
  have sameLength : (committed seq earlier).flatten.length =
      ((committed seq earlier).flatten.map WAL.Entry.readBack).length := by
    rw [length_map]
  have laterSame := List.forall₂_drop (committed seq earlier).flatten.length same
  rw [drop_left, sameLength, drop_left] at laterSame
  have nonempty : logEntries (seqAfter seq earlier) ops ≠ [] := fun none =>
    empty (logEntries_eq_nil.mp none)
  exact fits_logEntries.mp (WAL.fits_of_recover nonempty last laterSame)

/-- After every commit recovery returns all committed operations in order, with
their sequence numbers, keys, values and flags, exactly when all batches fit. -/
theorem commits_recovered_iff (seq : Nat) (batches : List (List BatchOp)) :
    (∀ n, RecoveredWhole (commitAll seq (batches.take n)).file
        (committed seq (batches.take n)).flatten) ↔
      ∀ ops ∈ batches, BatchFits ops := by
  constructor
  · intro whole
    induction batches using List.reverseRecOn with
    | nil => exact fun ops mem => nomatch mem
    | append_singleton earlier ops ih =>
      have earlierFit : ∀ batch ∈ earlier, BatchFits batch := by
        apply ih
        intro n
        have before := whole (min n earlier.length)
        rwa [take_append_of_le_length (Nat.min_le_right _ _), take_eq_take_min.symm]
          at before
      intro batch mem
      rcases mem_append.mp mem with old | isLast
      · exact earlierFit batch old
      rw [mem_singleton.mp isLast]
      have all := whole (earlier ++ [ops]).length
      rw [take_length] at all
      exact batchFits_of_recoveredWhole earlierFit all
  · intro fits n
    have fitTaken : ∀ ops ∈ batches.take n, BatchFits ops := fun ops mem =>
      fits ops (mem_of_mem_take mem)
    refine ⟨_, ?_, same_readBack_committed seq (batches.take n)⟩
    rw [commitAll_file, WAL.recover_records (fits_of_mem_committed fitTaken)]

/-- 65536 deletions in one batch. -/
def wideBatch : List BatchOp :=
  List.replicate (2 ^ 16) (.delete [107])

/-- The count of the record is cut to 0, so none of the operations comes back. -/
theorem wideBatch_lost :
    wideBatch.length = 2 ^ 16 ∧ (commitAll 0 [wideBatch]).file ≠ [] ∧
      ¬ RecoveredWhole (commitAll 0 [wideBatch]).file (committed 0 [wideBatch]).flatten := by
  have size : wideBatch.length = 2 ^ 16 := length_replicate
  refine ⟨size, ?_, ?_⟩
  · have nonempty : wideBatch ≠ [] := by
      intro empty
      rw [empty] at size
      cases size
    rw [commitAll_file, committed, if_neg nonempty, flatMap_cons]
    exact fun empty => frame_ne_nil _ (append_eq_nil_iff.mp empty).1
  intro whole
  have fits : BatchFits wideBatch :=
    @batchFits_of_recoveredWhole 0 [] wideBatch (fun batch mem => by cases mem) whole
  exact absurd fits.count (by rw [size]; exact lt_irrefl _)

end Theseon
