import Theseon.DB.DurableOpen

/-!
# Writes to a durable disk

The steps of a write and of the rotation that may follow keep the disk durable
and the engine live.  New versions go to the log of the active memtable, which is
later than everything that has been flushed or is being flushed.
-/

namespace Theseon

open Std List
open Lib KV SSTable Compaction Manifest

section Live

variable {history : History} {disk : Disk} {p : Process}

/-! ## The active memtable is the latest -/

namespace Live

variable {id : Nat}

section

variable (live : Live history disk p)

include live

theorem memtable_le (mem : id ∈ p.db.memtables.map Memtable.id) : id ≤ p.db.active.id := by
  rcases mem_cons.mp mem with rfl | older
  · exact le_rfl
  · exact ((pairwise_cons.mp live.descending).1 id older).le

theorem immutable_lt {m : Memtable} (mem : m ∈ p.db.immutables) : m.id < p.db.active.id :=
  (pairwise_cons.mp live.descending).1 m.id (mem_map_of_mem mem)

theorem active_log : p.db.active.id ∈ disk.wals :=
  (live.logs _).mpr (.inl mem_cons_self)

theorem log_le (mem : id ∈ disk.wals) : id ≤ p.db.active.id := by
  rcases (live.logs id).mp mem with isMemtable | isSwapped
  · exact live.memtable_le isMemtable
  rcases p with ⟨db, writer, flusher, compactor⟩
  have holds := live.flusher
  cases flusher with
  | swapped other =>
    cases isSwapped
    exact holds.2.1.le
  | _ => cases isSwapped

theorem table_lt (durable : disk.Durable history) (mem : id ∈ disk.manifest.tables) :
    id < p.db.active.id := by
  rcases durable.below id mem with ⟨log, logMem, less⟩
  exact less.trans_le (live.log_le logMem)

theorem logged_le {logged : Nat × Entry} (mem : logged ∈ history) : logged.1 ≤ p.db.active.id := by
  rcases mem_append.mp (live.holds.complete logged.1 logged.2 mem) with inMemtable | inL0
  · exact live.memtable_le inMemtable
  rcases mem_map.mp inL0 with ⟨r, rMem, isID⟩
  rw [← isID]
  exact (live.l0 r rMem).le

theorem seq_le {logged : Nat × Entry} (mem : logged ∈ history) : logged.2.seq ≤ p.db.nextSeq := by
  rcases p with ⟨db, writer, flusher, compactor⟩
  have holds := live.writer
  cases writer with
  | logging seq ops =>
    rcases holds with ⟨below, _, _, _, counter⟩
    exact (below logged mem).trans (counter ▸ Nat.le_add_right _ _)
  | idle => exact holds.1 logged mem
  | rotating => exact holds.1 logged mem

theorem nextMemID_le : p.db.nextMemID ≤ history.length + 1 := by
  rcases p with ⟨db, writer, flusher, compactor⟩
  have holds := live.writer
  cases writer with
  | logging seq ops => exact holds.2.1
  | idle => exact holds.2
  | rotating => exact holds.2.trans (Nat.le_succ _)

end

end Live

/-! ## Writes -/

theorem Flushing.id_lt {table : Reader} (live : Live history disk p)
    (flushing : Flushing history disk.tables p.db.immutables table) :
    table.id < p.db.active.id := by
  rcases flushing.oldest with ⟨newer, mt, isLast, sameID⟩
  rw [← sameID]
  exact live.immutable_lt (by simp [isLast])

/-- New versions of the active memtable do not concern a flush. -/
theorem Flusher.Holds.extend (live : Live history disk p) (durable : disk.Durable history)
    {new : List Entry} {wals : ExtTreeMap Nat Bytes} {db : DB}
    (immutables : db.immutables = p.db.immutables) (active : db.active.id = p.db.active.id) :
    p.flusher.Holds (history.extend p.db.active.id new) { disk with wals := wals } db := by
  have flushing : ∀ {table}, Flushing history disk.tables p.db.immutables table →
      Flushing (history.extend p.db.active.id new) disk.tables db.immutables table := by
    intro table before
    rw [immutables]
    exact ⟨before.oldest, before.onDisk, before.holds.extend_other (before.id_lt live).ne⟩
  have old : ∀ {id entry}, id ∈ disk.manifest.tables →
      (id, entry) ∈ history.extend p.db.active.id new → (id, entry) ∈ history := by
    intro id entry recorded mem
    rcases History.mem_extend.mp mem with before | ⟨same, _⟩
    · exact before
    · exact absurd same (live.table_lt durable recorded).ne
  have recorded : ∀ {id}, Recorded history disk.manifest id →
      Recorded (history.extend p.db.active.id new) disk.manifest id := by
    intro id before
    exact ⟨before.added, fun entry mem => before.ahead entry (old before.added mem)⟩
  rcases p with ⟨_, _, flusher, _⟩
  have holds := live.flusher
  cases flusher with
  | idle => trivial
  | built table => exact flushing holds
  | added table => exact ⟨flushing holds.1, holds.2⟩
  | loaded table nextMemID nextSeq =>
    rcases holds with ⟨before, added, bound, ahead⟩
    refine ⟨flushing before, added, bound.trans ?_, ?_⟩
    · simp [History.extend]
    · exact fun id mem entry logged => ahead id mem entry (old mem logged)
  | recorded table => exact ⟨flushing holds.1, recorded holds.2⟩
  | swapped id => exact ⟨recorded holds.1, active ▸ holds.2.1, immutables ▸ holds.2.2⟩

variable {ops : List BatchOp} {seq : Nat}

/-- A write draws its sequence numbers. -/
theorem Live.begin {opts : Options} {next : Process} (live : Live history disk p)
    (writable : Writable p.db.nextSeq ops) (began : p.begin opts ops = some next) :
    Live history disk next := by
  rw [Process.begin] at began
  split at began
  · rename_i possible
    cases began
    have room : p.db.nextSeq + ops.length ≤ maxSeqNum := writable.room.le
    exact { live with
      holds := { live.holds with }
      writer := ⟨fun logged mem => live.seq_le mem, live.nextMemID_le, possible.2.1, writable,
        addUint64_eq room⟩ }
  · cases began

section

variable (live : Live history disk p)

include live

/-- The record of a write keeps the history chronological. -/
theorem Live.chronological_append (durable : disk.Durable history)
    (isLogging : p.writer = .logging seq ops) :
    (history.extend p.db.active.id (stamp seq ops)).Chronological := by
  have holds := live.writer
  rw [isLogging] at holds
  rcases holds with ⟨below, _, _, writable, _⟩
  have room : seq + ops.length ≤ maxSeqNum := writable.room.le
  apply durable.chronological.extend
  · exact fun logged mem => live.logged_le mem
  · intro logged mem entry entryMem
    exact (below logged mem).trans_lt (seq_of_mem_stamp room entryMem).1
  · exact stamp_pairwise room
  · exact fun entry entryMem => long_of_mem_stamp entryMem
  · intro entry entryMem
    rcases exists_op_of_mem_stamp entryMem with ⟨op, opMem, n, rfl⟩
    exact writable.clean op opMem

theorem Live.sized_append (sized : disk.Sized history) (isLogging : p.writer = .logging seq ops) :
    (disk.appendWAL p.db.active.id (logEntries seq ops)).Sized
      (history.extend p.db.active.id (stamp seq ops)) := by
  have holds := live.writer
  rw [isLogging] at holds
  rcases holds with ⟨_, _, _, writable, _⟩
  have room := writable.room
  have grown : history.length ≤ (history.extend p.db.active.id (stamp seq ops)).length := by
    simp [History.extend]
  constructor
  · intro logged mem
    rcases History.mem_extend.mp mem with old | ⟨_, isNew⟩
    · exact sized.inRange logged old
    · have := seq_of_mem_stamp room.le isNew
      omega
  · intro id mem
    have := sized.logs id ((Disk.mem_appendWAL live.active_log).mp mem)
    omega
  · exact sized.counter.trans (Nat.succ_le_succ grown)
  · intro isEmpty
    simp [Disk.appendWAL] at isEmpty

/-- The active memtable takes versions of its log. -/
theorem Live.holds_insert (new : List Entry) :
    (new.foldl DB.insert p.db).Holds (history.extend p.db.active.id new) := by
  have sameID : (new.foldl (fun m entry => m.put entry.key entry.value) p.db.active).id =
      p.db.active.id := Memtable.foldl_put_id _ _
  have sameIDs : (new.foldl DB.insert p.db).sourceIDs = p.db.sourceIDs := by
    rw [DB.foldl_insert, DB.sourceIDs, DB.memtables, map_cons, sameID]
    rfl
  constructor
  · rw [DB.foldl_insert]
    exact live.holds.levels
  · intro m mMem
    rw [DB.foldl_insert] at mMem
    rcases mem_cons.mp mMem with rfl | isImmutable
    · rw [sameID]
      apply (live.holds.memtables _ mem_cons_self).extend_same
      exact fun entry => Memtable.mem_foldl_put
    · exact (live.holds.memtables m (mem_cons_of_mem _ isImmutable)).extend_other
        (live.immutable_lt isImmutable).ne
  · intro r rMem
    rw [DB.foldl_insert] at rMem
    exact (live.holds.l0 r rMem).extend_other (live.l0 r rMem).ne
  · rw [sameIDs]
    exact live.holds.newestFirst
  · intro id entry logged
    rw [sameIDs]
    rcases History.mem_extend.mp logged with old | ⟨rfl, _⟩
    · exact live.holds.complete id entry old
    · exact mem_append_left _ mem_cons_self

/-- The record of a write is appended and applied. -/
theorem Live.append (durable : disk.Durable history) (isLogging : p.writer = .logging seq ops)
    (opts : Options) :
    (disk.appendWAL p.db.active.id (logEntries seq ops)).Durable
        (history.extend p.db.active.id (stamp seq ops)) ∧
      Live (history.extend p.db.active.id (stamp seq ops))
        (disk.appendWAL p.db.active.id (logEntries seq ops)) (p.applied opts (stamp seq ops)) := by
  have chronological := live.chronological_append durable isLogging
  have holds := live.writer
  rw [isLogging] at holds
  rcases holds with ⟨below, bound, nonempty, writable, counter⟩
  have all : ∀ logged ∈ history.extend p.db.active.id (stamp seq ops),
      logged.2.seq ≤ p.db.nextSeq := by
    intro logged mem
    rw [counter]
    rcases History.mem_extend.mp mem with old | ⟨_, isNew⟩
    · exact (below logged old).trans (Nat.le_add_right _ _)
    · exact (seq_of_mem_stamp writable.room.le isNew).2
  have grown : history.length + 1 ≤ (history.extend p.db.active.id (stamp seq ops)).length := by
    have := length_pos_of_ne_nil nonempty
    simp [History.extend]
    omega
  have sameID : ((stamp seq ops).foldl (fun m entry => m.put entry.key entry.value)
      p.db.active).id = p.db.active.id := Memtable.foldl_put_id _ _
  have sameIDs : ((stamp seq ops).foldl DB.insert p.db).memtables.map Memtable.id =
      p.db.memtables.map Memtable.id := by
    rw [DB.foldl_insert, DB.memtables, map_cons, sameID]
    rfl
  constructor
  · have appended := durable.appendWAL live.active_log (fun id mem => live.table_lt durable mem)
      writable.fits (by rwa [map_version_logEntries])
    rwa [map_version_logEntries] at appended
  · constructor
    · exact live.holds_insert _
    · rw [Process.applied, sameIDs]
      exact live.descending
    · rw [Process.applied, DB.foldl_insert, sameID]
      exact live.l0
    · rw [Process.applied, DB.foldl_insert, sameID]
      exact live.counter
    · intro id
      rw [Disk.mem_appendWAL live.active_log, Process.applied, sameIDs]
      exact live.logs id
    · rw [Process.applied, DB.foldl_insert]
      simp only
      split
      · exact ⟨all, bound.trans grown⟩
      · exact ⟨all, bound.trans (grown.trans (Nat.le_succ _))⟩
    · apply Flusher.Holds.extend live durable
      · rw [Process.applied, DB.foldl_insert]
      · rw [Process.applied, DB.foldl_insert]
        exact sameID

/-! ## Rotations -/

/-- A full memtable leaves room for another identifier. -/
theorem Live.nextMemID_lt (durable : disk.Durable history) (sized : disk.Sized history)
    (isRotating : p.writer = .rotating) : p.db.nextMemID + 1 ≤ maxSeqNum := by
  have holds := live.writer
  rw [isRotating] at holds
  have count : history.length ≤ maxSeqNum - 1 := by
    apply durable.chronological.length_le
    intro logged mem
    have := sized.inRange logged mem
    omega
  have := holds.2
  have : 0 < maxSeqNum := by decide
  omega

/-- A rotation leaves the oldest memtable in its place. -/
theorem Flusher.Holds.rotate (counter : p.db.active.id < p.db.rotateMemtable.active.id)
    {wals : ExtTreeMap Nat Bytes} :
    p.flusher.Holds history { disk with wals := wals } p.db.rotateMemtable := by
  have flushing : ∀ {table}, Flushing history disk.tables p.db.immutables table →
      Flushing history disk.tables p.db.rotateMemtable.immutables table := by
    rintro table ⟨⟨newer, mt, isLast, sameID⟩, onDisk, holds⟩
    refine ⟨⟨p.db.active.freeze :: newer, mt, ?_, sameID⟩, onDisk, holds⟩
    rw [cons_append, ← isLast]
    rfl
  rcases p with ⟨_, _, flusher, _⟩
  have holds := live.flusher
  cases flusher with
  | idle => trivial
  | built table => exact flushing holds
  | added table => exact ⟨flushing holds.1, holds.2⟩
  | loaded table nextMemID nextSeq => exact ⟨flushing holds.1, holds.2⟩
  | recorded table => exact ⟨flushing holds.1, holds.2⟩
  | swapped id =>
    refine ⟨holds.1, holds.2.1.trans counter, ?_⟩
    intro m mMem
    rcases mem_cons.mp mMem with rfl | older
    · exact holds.2.1
    · exact holds.2.2 m older

/-- The full memtable is frozen and a new one is started. -/
theorem Live.rotate (durable : disk.Durable history) (sized : disk.Sized history)
    (isRotating : p.writer = .rotating) :
    (disk.createWAL p.db.rotateMemtable.active.id).Durable history ∧
      (disk.createWAL p.db.rotateMemtable.active.id).Sized history ∧
      Live history (disk.createWAL p.db.rotateMemtable.active.id)
        { p with db := p.db.rotateMemtable, writer := .idle } := by
  have next : addUint64 p.db.nextMemID 1 = p.db.nextMemID + 1 :=
    addUint64_eq (live.nextMemID_lt durable sized isRotating)
  have isNew : p.db.rotateMemtable.active.id = p.db.nextMemID + 1 := next
  have holds := live.writer
  rw [isRotating] at holds
  have counter : p.db.active.id < p.db.nextMemID + 1 := Nat.lt_succ_of_le live.counter
  have ids : p.db.rotateMemtable.memtables.map Memtable.id =
      (p.db.nextMemID + 1) :: p.db.memtables.map Memtable.id := by
    rw [← next]
    rfl
  have sources : p.db.rotateMemtable.sourceIDs = (p.db.nextMemID + 1) :: p.db.sourceIDs := by
    rw [DB.sourceIDs, ids]
    rfl
  rw [isNew]
  refine ⟨?_, ?_, ?_⟩
  · apply durable.createWAL
    · exact fun logged mem => ((live.logged_le mem).trans_lt counter).ne
    · exact fun table mem => ((live.table_lt durable mem).trans counter).le
  · constructor
    · exact sized.inRange
    · intro id mem
      rcases mem_insert_key.mp mem with rfl | old
      · exact Nat.succ_le_succ holds.2
      · exact sized.logs id old
    · exact sized.counter
    · intro isEmpty
      simp [Disk.createWAL] at isEmpty
  · constructor
    · constructor
      · exact live.holds.levels
      · intro m mMem
        rcases mem_cons.mp mMem with rfl | older
        · intro entry
          constructor
          · intro mem
            cases mem
          · intro logged
            have := live.logged_le logged
            change addUint64 p.db.nextMemID 1 ≤ _ at this
            omega
        rcases mem_cons.mp older with rfl | isImmutable
        · exact live.holds.memtables p.db.active mem_cons_self
        · exact live.holds.memtables m (mem_cons_of_mem _ isImmutable)
      · exact live.holds.l0
      · rw [sources, pairwise_cons]
        refine ⟨?_, live.holds.newestFirst⟩
        intro id mem
        rcases mem_append.mp mem with inMemtable | inL0
        · exact ((live.memtable_le inMemtable).trans_lt counter).le
        · rcases mem_map.mp inL0 with ⟨r, rMem, rfl⟩
          exact ((live.l0 r rMem).trans counter).le
      · intro id entry logged
        rw [sources]
        exact mem_cons_of_mem _ (live.holds.complete id entry logged)
    · rw [ids, pairwise_cons]
      exact ⟨fun id mem => (live.memtable_le mem).trans_lt counter, live.descending⟩
    · intro r rMem
      rw [isNew]
      exact (live.l0 r rMem).trans counter
    · exact le_rfl
    · intro id
      rw [ids, mem_cons, Disk.createWAL, mem_insert_key, live.logs, or_assoc, eq_comm]
    · refine ⟨holds.1, ?_⟩
      change addUint64 p.db.nextMemID 1 ≤ _
      rw [next]
      exact Nat.succ_le_succ holds.2
    · exact Flusher.Holds.rotate live (isNew ▸ counter)

end

end Live

end Theseon
