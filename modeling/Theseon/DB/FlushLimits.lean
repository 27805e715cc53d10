import Theseon.DB.Commit
import Theseon.DB.MemtableReads
import Theseon.SSTable.Limits

/-!
# Which memtables can be flushed

The log takes values of up to four gigabytes and cuts the length of a key to two
bytes, and the memtable takes anything.  The block format has two bytes for the
length of an internal key and of a value.  A memtable can be flushed exactly when
all its entries are within these limits.
-/

namespace Theseon

open Lib KV SSTable List

/-- The operation can be written to a block, with the sequence bytes behind its
key. -/
def BatchOp.Flushable (op : BatchOp) : Prop :=
  op.key.length + seqSize ≤ maxKeyLen ∧ op.data.length ≤ maxValueLen

instance (op : BatchOp) : Decidable op.Flushable :=
  inferInstanceAs (Decidable (_ ∧ _))

/-! ## The loop of a flush -/

/-- An ascending run within the limits can be added. -/
theorem addAll_within {b : Builder} {entries : List Entry} (sound : b.Sound) (fits : b.Fits)
    (long : ∀ entry ∈ entries, entry.Long)
    (limits : ∀ entry ∈ entries, InLimits entry.key entry.value.viaIterator)
    (ascending : Ascending entries)
    (above : ∀ entry ∈ entries, b.prevKey = [] ∨ b.prevKey < entry.key) :
    ∃ final, addAll b entries = .ok final ∧ final.Fits := by
  induction entries generalizing b with
  | nil => exact ⟨b, rfl, fits⟩
  | cons entry rest ih =>
    rw [forall_mem_cons] at long limits above
    rcases pairwise_cons.mp ascending with ⟨below, restAscending⟩
    rcases Builder.Fits.add sound fits limits.1 above.1 with ⟨next, added, nextFits⟩
    rcases Builder.add_eq_ok added with ⟨_, _, _, _, prev, _, _⟩
    rw [addAll, added]
    apply ih (sound.add long.1 added) nextFits long.2 limits.2 restAscending
    intro later laterMem
    rw [prev]
    exact .inr (below later laterMem)

theorem inLimits_of_addAll {b final : Builder} {entries : List Entry}
    (done : addAll b entries = .ok final) :
    ∀ entry ∈ entries, InLimits entry.key entry.value.viaIterator := by
  induction entries generalizing b with
  | nil => exact fun _ mem => nomatch mem
  | cons entry rest ih =>
    rw [addAll] at done
    split at done
    · cases done
    rename_i next added
    rw [forall_mem_cons]
    exact ⟨Builder.inLimits_of_add added, ih done⟩

/-- A memtable can be flushed if it is not empty, its entries are within the
limits and it holds no key twice. -/
theorem flushTable_ok_iff {opts : Options} (small : opts.blockSize ≤ maxBlockOffset)
    {mt : Memtable} (long : ∀ entry ∈ mt.entries, entry.Long) :
    (∃ table, flushTable opts mt = .ok table) ↔
      mt.entries ≠ [] ∧ (∀ entry ∈ mt.entries, InLimits entry.key entry.value.viaIterator) ∧
        (mt.entries.map Entry.key).Nodup := by
  rw [← ascending_iff mt.sorted]
  constructor
  · rintro ⟨table, done⟩
    rcases flushTable_eq_ok long done with ⟨contents, wellFormed, _⟩
    refine ⟨?_, ?_, ?_⟩
    · intro empty
      rw [empty] at contents
      exact wellFormed.nonempty contents
    · rw [flushTable] at done
      split at done
      · cases done
      · rename_i builder added
        exact inLimits_of_addAll added
    · have ascending := wellFormed.ascending
      rw [contents, Ascending, pairwise_map] at ascending
      exact ascending
  · rintro ⟨nonempty, limits, ascending⟩
    rcases addAll_within (Builder.new_sound mt.id opts.blockSize) (Builder.new_fits mt.id small)
      long limits ascending (fun _ _ => .inl rfl) with ⟨builder, added, fits⟩
    rcases addAll_eq_ok (Builder.new_sound mt.id opts.blockSize) long added with ⟨sound, contents⟩
    have filled : builder.contents ≠ [] := by
      rw [contents]
      intro empty
      exact nonempty (map_eq_nil_iff.mp (append_eq_nil_iff.mp empty).2)
    rcases fits.finish sound filled with ⟨table, finished⟩
    exact ⟨table, by rw [flushTable, added]; exact finished⟩

/-- A value above the limit stops the flush. -/
theorem flushTable_valueTooLarge {opts : Options} {mt : Memtable} {key value : Bytes}
    (single : mt.entries = [⟨key, .new (some value)⟩]) (short : key.length ≤ maxKeyLen)
    (large : maxValueLen < value.length) :
    flushTable opts mt = .error (.valueTooLarge value.length) := by
  have refused : ∀ b : BlockBuilder,
      b.add key (.new (some value)) = .error (.valueTooLarge value.length) := by
    intro b
    rw [BlockBuilder.add, if_neg (not_lt.mpr short), if_pos ⟨Bool.false_ne_true, large⟩]
    rfl
  have stopped : (Builder.new mt.id opts.blockSize).add key (Value.new (some value)).viaIterator =
      .error (.valueTooLarge value.length) := by
    have viaIterator : (Value.new (some value)).viaIterator = .new (some value) := rfl
    simp only [viaIterator, Builder.add, Builder.place, refused, Builder.new, ne_eq,
      not_true_eq_false, false_and, if_false, Bool.false_eq_true]
  rw [flushTable, single, addAll, stopped]

/-! ## What the engine accepts -/

/-- A call of the write interface. -/
inductive WriteCall where
  | put (key : Bytes) (value : Option Bytes)
  | delete (key : Bytes)
  | commit (ops : List BatchOp)
  deriving DecidableEq, Repr

/-- The operations of a call. -/
def WriteCall.ops : WriteCall → List BatchOp
  | put key value => [.put key value]
  | delete key => [.delete key]
  | commit ops => ops

namespace DB

/-- The engine after a call that returned nil. -/
def write (opts : Options) (db : DB) : WriteCall → DB
  | .put key value => db.put opts key value
  | .delete key => db.delete opts key
  | .commit ops => if ops = [] then db else db.applyBatchLocked opts ops

/-- The memtables hold the entry. -/
def InMemtables (db : DB) (entry : Entry) : Prop :=
  ∃ m ∈ db.memtables, entry ∈ m.entries

variable {opts : Options} {db : DB}

variable {ops : List BatchOp}

theorem inMemtables_applyBatchLocked {entry : Entry} :
    (db.applyBatchLocked opts ops).InMemtables entry ↔
      db.InMemtables entry ∨ entry ∈ stamp db.nextSeq ops := by
  have applied : (db.applyOps ops).InMemtables entry ↔
      db.InMemtables entry ∨ entry ∈ stamp db.nextSeq ops := by
    rw [applyOps_eq]
    simp only [InMemtables, memtables, mem_cons, exists_eq_or_imp, Memtable.mem_foldl_put]
    rw [or_comm, or_assoc, or_comm]
    simp only [or_assoc, or_comm]
  rw [applyBatchLocked, ← applied]
  rcases rotateIfFull_cases opts (db.applyOps ops) with kept | ⟨_, rotated⟩
  · rw [kept]
  · rw [rotated]
    simp [InMemtables, memtables, rotateMemtable, newMemtable]

theorem inMemtables_write {call : WriteCall} {entry : Entry} :
    (db.write opts call).InMemtables entry ↔
      db.InMemtables entry ∨ entry ∈ stamp db.nextSeq call.ops := by
  cases call with
  | put key value =>
    rw [write, put_eq_applyBatchLocked]
    exact inMemtables_applyBatchLocked
  | delete key =>
    rw [write, delete_eq_applyBatchLocked]
    exact inMemtables_applyBatchLocked
  | commit ops =>
    rw [write]
    split
    · rename_i none
      rw [WriteCall.ops, none]
      simp [stamp]
    · exact inMemtables_applyBatchLocked

end DB

theorem exists_mem_stamp {op : BatchOp} {ops : List BatchOp} (mem : op ∈ ops) (seq : Nat) :
    ∃ n, op.entry n ∈ stamp seq ops := by
  induction ops generalizing seq with
  | nil => cases mem
  | cons first rest ih =>
    rcases mem_cons.mp mem with rfl | later
    · exact ⟨_, mem_cons_self⟩
    · rcases ih later (addUint64 seq 1) with ⟨n, found⟩
      exact ⟨n, mem_cons_of_mem _ found⟩

/-- The memtables hold the operations of all calls. -/
theorem inMemtables_foldl_write {opts : Options} {db : DB} (calls : List WriteCall) :
    (∀ entry, (calls.foldl (DB.write opts) db).InMemtables entry →
        db.InMemtables entry ∨ ∃ op ∈ calls.flatMap WriteCall.ops, ∃ n, entry = op.entry n) ∧
      (∀ entry, db.InMemtables entry → (calls.foldl (DB.write opts) db).InMemtables entry) ∧
      ∀ op ∈ calls.flatMap WriteCall.ops,
        ∃ n, (calls.foldl (DB.write opts) db).InMemtables (op.entry n) := by
  induction calls generalizing db with
  | nil => exact ⟨fun _ held => .inl held, fun _ held => held, fun _ mem => nomatch mem⟩
  | cons call rest ih =>
    rcases @ih (db.write opts call) with ⟨sound, kept, all⟩
    simp only [foldl_cons, flatMap_cons, mem_append]
    refine ⟨?_, ?_, ?_⟩
    · intro entry held
      rcases sound entry held with before | ⟨op, opMem, n, isEntry⟩
      · rcases DB.inMemtables_write.mp before with old | isNew
        · exact .inl old
        · rcases exists_op_of_mem_stamp isNew with ⟨op, opMem, n, isEntry⟩
          exact .inr ⟨op, .inl opMem, n, isEntry⟩
      · exact .inr ⟨op, .inr opMem, n, isEntry⟩
    · exact fun entry held => kept entry (DB.inMemtables_write.mpr (.inl held))
    · rintro op (here | later)
      · rcases exists_mem_stamp here db.nextSeq with ⟨n, stamped⟩
        exact ⟨n, kept _ (DB.inMemtables_write.mpr (.inr stamped))⟩
      · exact all op later

/-- The limits of a block, in terms of the operation. -/
theorem inLimits_entry_iff {op : BatchOp} {seq : Nat} :
    InLimits (op.entry seq).key (op.entry seq).value.viaIterator ↔ op.Flushable := by
  rw [InLimits, BatchOp.Flushable, BatchOp.entry, makeInternalKey_length]
  apply and_congr_right'
  rcases op with ⟨key, _ | data, _ | _⟩
  · simp [BatchOp.stored, BatchOp.data, Value.new, Value.viaIterator, Value.newTombstone]
  · simp [BatchOp.stored, BatchOp.data, Value.viaIterator, Value.newTombstone]
  · simp [BatchOp.stored, BatchOp.data, Value.new, Value.viaIterator, Value.bytes]
  · simp [BatchOp.stored, BatchOp.data, Value.viaIterator, Value.newTombstone]

/-- The engine after the calls, from an empty memtable. -/
def afterCalls (opts : Options) (id seq levels : Nat) (calls : List WriteCall) : DB :=
  calls.foldl (DB.write opts) (DB.empty id seq levels)

/-- After any calls, every memtable that holds something can be flushed exactly
when all operations are within the limits of a block and no memtable got the same
key and sequence number twice. -/
theorem flush_succeeds_iff (opts : Options) (small : opts.blockSize ≤ maxBlockOffset)
    (id seq levels : Nat) (calls : List WriteCall) :
    (∀ mt ∈ (afterCalls opts id seq levels calls).memtables, mt.entries ≠ [] →
        ∃ table, flushTable opts mt = .ok table) ↔
      (∀ op ∈ calls.flatMap WriteCall.ops, op.Flushable) ∧
        ∀ mt ∈ (afterCalls opts id seq levels calls).memtables,
          (mt.entries.map Entry.key).Nodup := by
  rcases @inMemtables_foldl_write opts (DB.empty id seq levels) calls with ⟨sound, _, all⟩
  have isOp : ∀ mt ∈ (afterCalls opts id seq levels calls).memtables, ∀ entry ∈ mt.entries,
      ∃ op ∈ calls.flatMap WriteCall.ops, ∃ n, entry = op.entry n := by
    intro mt mtMem entry entryMem
    rcases sound entry ⟨mt, mtMem, entryMem⟩ with ⟨m, mMem, inStart⟩ | found
    · rw [mem_singleton.mp mMem] at inStart
      cases inStart
    · exact found
  have long : ∀ mt ∈ (afterCalls opts id seq levels calls).memtables,
      ∀ entry ∈ mt.entries, entry.Long := by
    intro mt mtMem entry entryMem
    rcases isOp mt mtMem entry entryMem with ⟨op, _, n, rfl⟩
    exact op.entry_long n
  constructor
  · intro flushes
    constructor
    · intro op opMem
      rcases all op opMem with ⟨n, mt, mtMem, entryMem⟩
      have flushed := flushes mt mtMem (ne_nil_of_mem entryMem)
      have limits := ((flushTable_ok_iff small (long mt mtMem)).mp flushed).2.1
      exact inLimits_entry_iff.mp (limits _ entryMem)
    · intro mt mtMem
      by_cases empty : mt.entries = []
      · rw [empty]
        exact nodup_nil
      · exact ((flushTable_ok_iff small (long mt mtMem)).mp (flushes mt mtMem empty)).2.2
  · rintro ⟨flushable, distinct⟩ mt mtMem nonempty
    refine (flushTable_ok_iff small (long mt mtMem)).mpr ⟨nonempty, ?_, distinct mt mtMem⟩
    intro entry entryMem
    rcases isOp mt mtMem entry entryMem with ⟨op, opMem, n, rfl⟩
    exact inLimits_entry_iff.mpr (flushable op opMem)

/-- `Put("a", "1")`, a batch that overwrites it and deletes `"b"`, `Delete("a")`. -/
def smallCalls : List WriteCall :=
  [.put [97] (some [49]), .commit [.put [97] (some []), .delete [98]], .delete [97]]

theorem smallCalls_flushed :
    (∃ mt ∈ (afterCalls defaultOptions 1 0 7 smallCalls).memtables, mt.entries ≠ []) ∧
      ∀ mt ∈ (afterCalls defaultOptions 1 0 7 smallCalls).memtables, mt.entries ≠ [] →
        ∃ table, flushTable defaultOptions mt = .ok table := by
  refine ⟨by decide +kernel, ?_⟩
  apply (flush_succeeds_iff defaultOptions (by decide) 1 0 7 smallCalls).mpr
  exact ⟨by decide +kernel, by decide +kernel⟩

/-- `Put("k", v)` with a value of 65536 bytes. -/
def largePut : WriteCall :=
  .put [107] (some (List.replicate (2 ^ 16) 0))

/-- The options of an engine that rotates after every write. -/
def rotatingOptions : Options :=
  { defaultOptions with memtableSize := 1 }

/-- The engine accepts the value and rotates its memtable out; the flush then
fails every time. -/
theorem largePut_not_flushed :
    ∃ mt, (afterCalls rotatingOptions 1 0 7 [largePut]).immutables = [mt] ∧
      flushTable rotatingOptions mt = .error (.valueTooLarge (2 ^ 16)) := by
  have size : (List.replicate (2 ^ 16) (0 : UInt8)).length = 2 ^ 16 := length_replicate
  rw [afterCalls, largePut]
  generalize List.replicate (2 ^ 16) (0 : UInt8) = value at size
  have isFull : ∀ m : Memtable, ∀ key : Bytes, ∀ v : Value,
      1 ≤ ((m.put key v).approximateSize : Int) := by
    intro m key v
    rw [Memtable.approximateSize_put, Value.encodedSize]
    omega
  refine ⟨((Memtable.new 1).put (makeInternalKey [107] 1) (.new (some value))).freeze, ?_, ?_⟩
  · rw [foldl_cons, foldl_nil, DB.write, DB.put, DB.rotateIfFull, if_pos]
    · rfl
    · exact decide_eq_true (isFull _ _ _)
  · rw [← size]
    exact flushTable_valueTooLarge rfl (by decide) (by rw [size]; decide)

end Theseon
