import Theseon.DB.Transaction

/-!
# Concurrent transactions

`Commit` checks its write set against the memtables while it holds the lock of
the engine, and then applies its writes.  Between the two it may have to wait for
flush space, and the wait gives up the lock.  The machine interleaves
transactions, other writers and flushes; a transaction that waits is a phase of
its own.
-/

namespace Theseon

open Std (ExtTreeMap)
open Lib KV List

namespace Transaction

/-- `checkConflicts` finds a newer version of a user key of the write set. -/
def conflicts (tx : Transaction) (db : DB) : Bool :=
  tx.writes.toList.any fun write => db.memtables.any fun m =>
    (m.getNewest write.1).any fun newest => tx.snapshotSeq < newest.2

/-- The operations that `Commit` builds from the write buffer, whose order is
unspecified. -/
def ops (tx : Transaction) (order : Arrangement (Bytes × Value)) : List BatchOp :=
  (order.arrange tx.writes.toList).map fun write => ⟨write.1, write.2.data, write.2.tombstone⟩

theorem key_mem_of_mem_ops {tx : Transaction} {order : Arrangement (Bytes × Value)} {op : BatchOp}
    (mem : op ∈ tx.ops order) : op.key ∈ tx.writes := by
  rcases mem_map.mp mem with ⟨⟨key, value⟩, written, rfl⟩
  rw [order.mem_arrange, ExtTreeMap.mem_toList_iff_getElem?_eq_some] at written
  exact mem_iff_get?.mpr ⟨value, written⟩

end Transaction

/-- Where a transaction stands. -/
inductive Phase where
  /-- It has begun and `Commit` has not been called. -/
  | running (tx : Transaction)
  /-- It has passed its conflict check and waits for flush space. -/
  | waiting (tx : Transaction) (ops : List BatchOp)
  /-- `Commit` has returned nil. -/
  | committed (tx : Transaction) (written : List Entry)
  /-- `Commit` has returned `ErrConflict`, or it was rolled back. -/
  | aborted

/-- The engine, the versions written so far and all transactions in the order in
which they began. -/
structure Sessions where
  db : DB
  log : List Entry
  phases : List Phase

/-- A step of the sessions, between two moments at which the lock is free. -/
inductive SessionAction where
  | begin
  | put (t : Nat) (key : Bytes) (value : Option Bytes)
  | delete (t : Nat) (key : Bytes)
  | rollback (t : Nat)
  | commit (t : Nat) (order : Arrangement (Bytes × Value))
  | resume (t : Nat)
  | write (ops : List BatchOp)
  | flush

namespace Sessions

/-- The engine has been opened and no transaction has begun. -/
def start (db : DB) : Sessions :=
  ⟨db, [], []⟩

/-- The condition that `waitForFlushSpace` waits for. -/
def hasFlushSpace (opts : Options) (s : Sessions) : Bool :=
  s.db.immutables.length < opts.normalized.maxImmutableCount

/-- `applyBatchLocked` behind its wait. -/
def apply (opts : Options) (s : Sessions) (ops : List BatchOp) : Sessions :=
  { s with db := s.db.applyBatchLocked opts ops, log := s.log ++ stamp s.db.nextSeq ops }

/-- A transaction goes on to another phase. -/
def enter (s : Sessions) (t : Nat) (phase : Phase) : Sessions :=
  { s with phases := s.phases.set t phase }

/-- The writes of a transaction are applied and `Commit` returns nil. -/
def finish (opts : Options) (s : Sessions) (t : Nat) (tx : Transaction) (ops : List BatchOp) :
    Sessions :=
  (s.apply opts ops).enter t (.committed tx (stamp s.db.nextSeq ops))

/-- `Commit` of a running transaction. -/
def commit (opts : Options) (s : Sessions) (t : Nat) (tx : Transaction)
    (order : Arrangement (Bytes × Value)) : Sessions :=
  let closed := { tx with closed := true }
  if tx.writes.isEmpty then s.enter t (.committed closed [])
  else if tx.conflicts s.db then s.enter t .aborted
  else if s.hasFlushSpace opts then s.finish opts t closed (tx.ops order)
  else s.enter t (.waiting closed (tx.ops order))

/-- One step. -/
def step (opts : Options) (s : Sessions) : SessionAction → Option Sessions
  | .begin => some { s with phases := s.phases ++ [.running (.begin s.db)] }
  | .put t key value =>
    match s.phases[t]? with
    | some (.running tx) => (tx.put key value).map fun tx => s.enter t (.running tx)
    | _ => none
  | .delete t key =>
    match s.phases[t]? with
    | some (.running tx) => (tx.delete key).map fun tx => s.enter t (.running tx)
    | _ => none
  | .rollback t =>
    match s.phases[t]? with
    | some (.running _) => some (s.enter t .aborted)
    | _ => none
  | .commit t order =>
    match s.phases[t]? with
    | some (.running tx) => some (s.commit opts t tx order)
    | _ => none
  | .resume t =>
    match s.phases[t]? with
    | some (.waiting tx ops) =>
      if s.hasFlushSpace opts then some (s.finish opts t tx ops) else none
    | _ => none
  | .write ops =>
    if ops ≠ [] ∧ s.hasFlushSpace opts then some (s.apply opts ops) else none
  | .flush => (s.db.flush opts).map fun db => { s with db := db }

/-! ## What a step can do -/

/-- The kinds of steps: a transaction begins, changes its buffer, gives up, is
found free of conflicts, or has its writes applied; another writer writes; a
memtable is flushed. -/
inductive Stepped (opts : Options) (s : Sessions) : SessionAction → Sessions → Prop
  | begin : Stepped opts s .begin { s with phases := s.phases ++ [.running (.begin s.db)] }
  | buffer {action : SessionAction} {t : Nat} {tx tx' : Transaction}
      (found : s.phases[t]? = some (.running tx)) (same : tx'.snapshotSeq = tx.snapshotSeq) :
      Stepped opts s action (s.enter t (.running tx'))
  | abort {action : SessionAction} {t : Nat} : Stepped opts s action (s.enter t .aborted)
  | empty {t : Nat} {tx : Transaction} {order : Arrangement (Bytes × Value)} :
      Stepped opts s (.commit t order) (s.enter t (.committed tx []))
  | wait {t : Nat} {tx : Transaction} {order : Arrangement (Bytes × Value)}
      (found : s.phases[t]? = some (.running tx)) (free : tx.conflicts s.db = false) :
      Stepped opts s (.commit t order)
        (s.enter t (.waiting { tx with closed := true } (tx.ops order)))
  | commit {t : Nat} {tx : Transaction} {order : Arrangement (Bytes × Value)}
      (found : s.phases[t]? = some (.running tx)) (free : tx.conflicts s.db = false)
      (space : s.hasFlushSpace opts) : Stepped opts s (.commit t order)
        (s.finish opts t { tx with closed := true } (tx.ops order))
  | resume {t : Nat} {tx : Transaction} {ops : List BatchOp}
      (found : s.phases[t]? = some (.waiting tx ops)) :
      Stepped opts s (.resume t) (s.finish opts t tx ops)
  | write {ops : List BatchOp} : Stepped opts s (.write ops) (s.apply opts ops)
  | flush {db : DB} (flushed : s.db.flush opts = some db) :
      Stepped opts s .flush { s with db := db }

theorem stepped_of_step {opts : Options} {s next : Sessions} {action : SessionAction}
    (stepped : s.step opts action = some next) : Stepped opts s action next := by
  cases action with
  | begin =>
    cases stepped
    exact .begin
  | put t key value =>
    simp only [step] at stepped
    split at stepped
    · rename_i tx found
      rcases Option.map_eq_some_iff.mp stepped with ⟨tx', wrote, rfl⟩
      refine .buffer found ?_
      rw [Transaction.put] at wrote
      split at wrote
      · cases wrote
      · cases wrote
        rfl
    · cases stepped
  | delete t key =>
    simp only [step] at stepped
    split at stepped
    · rename_i tx found
      rcases Option.map_eq_some_iff.mp stepped with ⟨tx', wrote, rfl⟩
      refine .buffer found ?_
      rw [Transaction.delete] at wrote
      split at wrote
      · cases wrote
      · cases wrote
        rfl
    · cases stepped
  | rollback t =>
    simp only [step] at stepped
    split at stepped
    · cases stepped
      exact .abort
    · cases stepped
  | commit t order =>
    simp only [step] at stepped
    split at stepped
    · rename_i tx found
      cases stepped
      rw [commit]
      split
      · exact .empty
      split
      · exact .abort
      rename_i noConflict
      have free : tx.conflicts s.db = false := by simpa using noConflict
      split
      · rename_i space
        exact .commit found free space
      · exact .wait found free
    · cases stepped
  | resume t =>
    simp only [step] at stepped
    split at stepped
    · rename_i tx ops found
      split at stepped
      · cases stepped
        exact .resume found
      · cases stepped
    · cases stepped
  | write ops =>
    simp only [step] at stepped
    split at stepped
    · cases stepped
      exact .write
    · cases stepped
  | flush =>
    rcases Option.map_eq_some_iff.mp stepped with ⟨db, flushed, rfl⟩
    exact .flush flushed

/-! ## First committer wins -/

/-- Nobody else wrote to a user key of the transaction between its snapshot and
its own write. -/
def NoWriteBetween (tx : Transaction) (written log : List Entry) : Prop :=
  ∀ entry ∈ written, ∀ other ∈ log, other.user = entry.user → tx.snapshotSeq < other.seq →
    other.seq < entry.seq → other ∈ written

end Sessions

namespace Phase

/-- The operations leave the keys of the transaction alone, if it waits for flush
space with its check behind it. -/
def Spared (ops : List BatchOp) : Phase → Prop
  | waiting tx _ => ∀ op ∈ ops, op.key ∉ tx.writes
  | _ => True

instance (ops : List BatchOp) (phase : Phase) : Decidable (phase.Spared ops) := by
  cases phase <;> unfold Spared <;> infer_instance

/-- The transaction does not have to check the entries, because it has passed its
check or because they are not above its snapshot. -/
def Exempts (entries : List Entry) : Phase → Prop
  | running tx => ∀ entry ∈ entries, entry.seq ≤ tx.snapshotSeq
  | _ => True

instance (entries : List Entry) (phase : Phase) : Decidable (phase.Exempts entries) := by
  cases phase <;> unfold Exempts <;> infer_instance

end Phase

namespace Sessions

/-- No operation writes to a user key of a waiting transaction other than `but`. -/
def SparesWaiting (s : Sessions) (but : Option Nat) (ops : List BatchOp) : Prop :=
  ∀ t ∈ List.range s.phases.length, but ≠ some t → ∀ phase ∈ s.phases[t]?, phase.Spared ops

instance (s : Sessions) (but : Option Nat) (ops : List BatchOp) :
    Decidable (s.SparesWaiting but ops) := by
  unfold SparesWaiting
  infer_instance

/-- The check of a transaction sees every version of its keys in the memtables. -/
def ChecksAll (s : Sessions) (tx : Transaction) : Prop :=
  ∀ write ∈ tx.writes.toList, ∀ m ∈ s.db.memtables, UnshadowedFor m.entries write.1

instance (s : Sessions) (tx : Transaction) : Decidable (s.ChecksAll tx) := by
  unfold ChecksAll UnshadowedFor
  infer_instance

/-- The steps under which the check protects the write set: no batch is applied to
the keys of a waiting transaction, a check that finds no conflict sees every version of
the keys, the counter does not wrap, and no memtable with a version above the snapshot of
a running transaction is flushed. -/
def Orderly (opts : Options) (s : Sessions) : SessionAction → Prop
  | .commit t order =>
    match s.phases[t]? with
    | some (.running tx) => tx.conflicts s.db = false → s.ChecksAll tx ∧
        (s.hasFlushSpace opts → s.SparesWaiting (some t) (tx.ops order) ∧
          s.db.nextSeq + (tx.ops order).length ≤ maxSeqNum)
    | _ => True
  | .resume t =>
    match s.phases[t]? with
    | some (.waiting _ ops) => s.SparesWaiting (some t) ops ∧
        s.db.nextSeq + ops.length ≤ maxSeqNum
    | _ => True
  | .write ops => s.SparesWaiting none ops ∧ s.db.nextSeq + ops.length ≤ maxSeqNum
  | .flush => ∀ mt ∈ s.db.immutables.getLast?, ∀ phase ∈ s.phases, phase.Exempts mt.entries
  | _ => True

/-- What holds of a transaction between the steps.  What a running transaction
has to check is still in the memtables, and nothing above the snapshot of a
waiting one has been written to its keys. -/
def Sound (s : Sessions) : Phase → Prop
  | .running tx => ∀ entry ∈ s.log, tx.snapshotSeq < entry.seq → s.db.InMemtables entry
  | .waiting tx ops => (∀ op ∈ ops, op.key ∈ tx.writes) ∧
      ∀ entry ∈ s.log, entry.user ∈ tx.writes → entry.seq ≤ tx.snapshotSeq
  | .committed tx written => (∀ entry ∈ written, entry.seq ≤ s.db.nextSeq) ∧
      NoWriteBetween tx written s.log
  | .aborted => True

structure Invariant (s : Sessions) : Prop where
  long : ∀ entry, s.db.InMemtables entry → entry.Long
  bounded : ∀ entry ∈ s.log, entry.seq ≤ s.db.nextSeq
  phases : ∀ phase ∈ s.phases, s.Sound phase

section

variable {opts : Options} {s : Sessions} {t : Nat} {tx : Transaction} {ops : List BatchOp}

theorem Invariant.enter (inv : s.Invariant) {phase : Phase} (sound : s.Sound phase) :
    (s.enter t phase).Invariant := by
  refine ⟨inv.long, inv.bounded, ?_⟩
  intro other otherMem
  rcases mem_or_eq_of_mem_set otherMem with old | rfl
  · exact inv.phases other old
  · exact sound

theorem Invariant.begin (inv : s.Invariant) :
    ({ s with phases := s.phases ++ [.running (.begin s.db)] } : Sessions).Invariant := by
  refine ⟨inv.long, inv.bounded, ?_⟩
  intro phase phaseMem
  rcases mem_append.mp phaseMem with old | isNew
  · exact inv.phases phase old
  rw [mem_singleton.mp isNew]
  intro entry entryMem above
  exact absurd (inv.bounded entry entryMem) (not_le.mpr above)

/-- A batch is applied that spares the waiting transactions. -/
theorem Invariant.apply (inv : s.Invariant) (spared : ∀ phase ∈ s.phases, phase.Spared ops)
    (fits : s.db.nextSeq + ops.length ≤ maxSeqNum) : (s.apply opts ops).Invariant := by
  have counter : (s.db.applyBatchLocked opts ops).nextSeq = s.db.nextSeq + ops.length := by
    rw [DB.nextSeq_applyBatchLocked, addUint64_eq fits]
  have held := fun entry => @DB.inMemtables_applyBatchLocked opts s.db ops entry
  refine ⟨?_, ?_, ?_⟩
  · intro entry inMemtables
    rcases (held entry).mp inMemtables with old | isNew
    · exact inv.long entry old
    · exact long_of_mem_stamp isNew
  · intro entry entryMem
    change entry.seq ≤ (s.db.applyBatchLocked opts ops).nextSeq
    rw [counter]
    rcases mem_append.mp entryMem with old | isNew
    · exact Nat.le_add_right_of_le (inv.bounded entry old)
    · exact (seq_of_mem_stamp fits isNew).2
  · intro phase phaseMem
    have sound := inv.phases phase phaseMem
    cases phase with
    | running tx =>
      intro entry entryMem above
      apply (held entry).mpr
      rcases mem_append.mp entryMem with old | isNew
      · exact .inl (sound entry old above)
      · exact .inr isNew
    | waiting tx waitingOps =>
      refine ⟨sound.1, ?_⟩
      intro entry entryMem isKey
      rcases mem_append.mp entryMem with old | isNew
      · exact sound.2 entry old isKey
      rcases exists_op_of_mem_stamp isNew with ⟨op, opMem, n, rfl⟩
      rw [BatchOp.entry_user] at isKey
      exact absurd isKey (spared _ phaseMem op opMem)
    | committed tx written =>
      constructor
      · intro entry entryMem
        change entry.seq ≤ (s.db.applyBatchLocked opts ops).nextSeq
        rw [counter]
        exact Nat.le_add_right_of_le (sound.1 entry entryMem)
      · intro entry entryMem other otherMem sameUser above below
        rcases mem_append.mp otherMem with old | isNew
        · exact sound.2 entry entryMem other old sameUser above below
        -- later writes have larger numbers
        have later := (seq_of_mem_stamp fits isNew).1
        have earlier := sound.1 entry entryMem
        omega
    | aborted => trivial

/-- The writes of a transaction that has passed its check are applied. -/
theorem Invariant.finish (inv : s.Invariant) (sound : s.Sound (.waiting tx ops))
    (spares : s.SparesWaiting (some t) ops) (fits : s.db.nextSeq + ops.length ≤ maxSeqNum) :
    (s.finish opts t tx ops).Invariant := by
  -- its own phase does not matter for the write
  have released : (s.enter t .aborted).Invariant := inv.enter trivial
  have spared : ∀ phase ∈ (s.enter t .aborted).phases, phase.Spared ops := by
    intro phase phaseMem
    rcases mem_iff_getElem?.mp phaseMem with ⟨other, found⟩
    rw [Sessions.enter, getElem?_set] at found
    split at found
    · split at found
      · cases found
        trivial
      · cases found
    rename_i different
    have inRange := (List.getElem?_eq_some_iff.mp found).1
    refine spares other (mem_range.mpr inRange) ?_ phase found
    rintro ⟨⟩
    exact different rfl
  have applied : ((s.enter t .aborted).apply opts ops).Invariant := released.apply spared fits
  have same : s.finish opts t tx ops =
      ((s.enter t .aborted).apply opts ops).enter t (.committed tx (stamp s.db.nextSeq ops)) := by
    simp [Sessions.finish, Sessions.enter, Sessions.apply]
  rw [same]
  apply applied.enter
  constructor
  · intro entry entryMem
    exact applied.bounded entry (mem_append_right _ entryMem)
  · intro entry entryMem other otherMem sameUser above _
    rcases mem_append.mp otherMem with old | own
    · rcases exists_op_of_mem_stamp entryMem with ⟨op, opMem, n, rfl⟩
      rw [BatchOp.entry_user] at sameUser
      have isKey : other.user ∈ tx.writes := sameUser ▸ sound.1 op opMem
      exact absurd (sound.2 other old isKey) (not_le.mpr above)
    · exact own

/-- A transaction without a conflict has found nothing above its snapshot. -/
theorem Invariant.checked (inv : s.Invariant) (found : s.phases[t]? = some (.running tx))
    (checks : s.ChecksAll tx) (free : tx.conflicts s.db = false)
    (order : Arrangement (Bytes × Value)) :
    s.Sound (.waiting { tx with closed := true } (tx.ops order)) := by
  refine ⟨fun op opMem => Transaction.key_mem_of_mem_ops opMem, ?_⟩
  intro entry entryMem isKey
  by_contra above
  rcases inv.phases _ (mem_of_getElem? found) entry entryMem (not_le.mp above) with
    ⟨m, mMem, inMemtable⟩
  rcases mem_iff_get?.mp isKey with ⟨value, isWrite⟩
  have writeMem : (entry.user, value) ∈ tx.writes.toList :=
    ExtTreeMap.mem_toList_iff_getElem?_eq_some.mpr isWrite
  rcases Memtable.le_getNewest (fun other otherMem => inv.long other ⟨m, mMem, otherMem⟩)
    inMemtable (checks _ writeMem m mMem) with ⟨newest, seq, isNewest, le⟩
  have conflict : tx.conflicts s.db = true := by
    rw [Transaction.conflicts, any_eq_true]
    refine ⟨_, writeMem, any_eq_true.mpr ⟨m, mMem, ?_⟩⟩
    rw [isNewest]
    exact decide_eq_true (lt_of_lt_of_le (not_le.mp above) le)
  rw [free] at conflict
  cases conflict

theorem Invariant.flush (inv : s.Invariant) {db : DB} (flushed : s.db.flush opts = some db)
    (exempt : ∀ mt ∈ s.db.immutables.getLast?, ∀ phase ∈ s.phases, phase.Exempts mt.entries) :
    ({ s with db := db } : Sessions).Invariant := by
  rcases DB.flush_eq_some flushed with ⟨newer, mt, table, immutables, _, rfl⟩
  have isLast : mt ∈ s.db.immutables.getLast? := by
    rw [immutables]
    exact getLast?_concat
  have memtables : ∀ m, m ∈ s.db.memtables ↔ m ∈ s.db.active :: newer ∨ m = mt :=
    fun _ => DB.mem_memtables_split immutables
  refine ⟨?_, inv.bounded, ?_⟩
  · rintro entry ⟨m, mMem, inMemtable⟩
    exact inv.long entry ⟨m, (memtables m).mpr (.inl mMem), inMemtable⟩
  intro phase phaseMem
  have sound := inv.phases phase phaseMem
  cases phase with
  | running tx =>
    intro entry entryMem above
    rcases sound entry entryMem above with ⟨m, mMem, inMemtable⟩
    rcases (memtables m).mp mMem with kept | rfl
    · exact ⟨m, kept, inMemtable⟩
    · exact absurd (exempt m isLast _ phaseMem entry inMemtable) (not_le.mpr above)
  | waiting tx ops => exact sound
  | committed tx written => exact sound
  | aborted => trivial

theorem Invariant.step {next : Sessions} {action : SessionAction} (inv : s.Invariant)
    (orderly : s.Orderly opts action) (stepped : s.step opts action = some next) :
    next.Invariant := by
  cases stepped_of_step stepped with
  | begin => exact inv.begin
  | buffer found same =>
    apply inv.enter
    intro entry entryMem above
    rw [same] at above
    exact inv.phases _ (mem_of_getElem? found) entry entryMem above
  | abort => exact inv.enter trivial
  | empty => exact inv.enter ⟨(fun _ mem => nomatch mem), (fun _ mem => nomatch mem)⟩
  | wait found free =>
    rw [Orderly, found] at orderly
    exact inv.enter (inv.checked found (orderly free).1 free _)
  | commit found free space =>
    rw [Orderly, found] at orderly
    rcases orderly free with ⟨checks, applies⟩
    rcases applies space with ⟨spares, fits⟩
    exact inv.finish (inv.checked found checks free _) spares fits
  | resume found =>
    rw [Orderly, found] at orderly
    exact inv.finish (inv.phases _ (mem_of_getElem? found)) orderly.1 orderly.2
  | write =>
    refine inv.apply ?_ orderly.2
    intro phase phaseMem
    rcases mem_iff_getElem?.mp phaseMem with ⟨other, found⟩
    have inRange := (List.getElem?_eq_some_iff.mp found).1
    exact orderly.1 other (mem_range.mpr inRange) nofun phase found
  | flush flushed => exact inv.flush flushed orderly

end

/-- In every orderly run, a committed transaction was the first to write to its
keys after its snapshot. -/
theorem first_committer_wins {opts : Options} {db : DB}
    (long : ∀ entry, db.InMemtables entry → entry.Long) {s : Sessions}
    (reached : Reached (step opts) (Orderly opts) (start db) s) {tx : Transaction}
    {written : List Entry} (committed : .committed tx written ∈ s.phases) :
    NoWriteBetween tx written s.log := by
  have inv : s.Invariant := by
    apply reached.invariant Invariant
    · exact ⟨long, (fun _ mem => nomatch mem), (fun _ mem => nomatch mem)⟩
    · exact fun inv orderly stepped => inv.step orderly stepped
  exact (inv.phases _ committed).2

instance (tx : Transaction) (written log : List Entry) :
    Decidable (NoWriteBetween tx written log) := by
  unfold NoWriteBetween
  infer_instance

instance (opts : Options) (s : Sessions) (action : SessionAction) :
    Decidable (s.Orderly opts action) := by
  unfold Orderly
  repeat' split
  all_goals infer_instance

/-- The options of an engine that rotates after every write and has room for one
unflushed memtable. -/
def narrowOptions : Options :=
  { defaultOptions with memtableSize := 1, maxImmutableCount := 1 }

/-- A transaction puts `"k"`; another writer fills the only immutable memtable, so
`Commit` has to wait; meanwhile a flush makes room for a write to `other`, and a
second flush for the transaction. -/
def writeWhileWaiting (other : Bytes) : List SessionAction :=
  [.begin, .put 0 [107] (some [49]), .write [.put [120] (some [48])], .commit 0 (.identity _),
    .flush, .write [.put other (some [50])], .flush, .resume 0]

/-- The other writer's `"k"` lies between the snapshot and the transaction's own,
and `Commit` has returned nil. -/
theorem writeWhileWaiting_lost :
    ∃ s tx written, run (step narrowOptions) (start (DB.fresh narrowOptions))
        (writeWhileWaiting [107]) = some s ∧
      .committed tx written ∈ s.phases ∧ ¬ NoWriteBetween tx written s.log := by
  have evaluated : ∃ s ∈ run (step narrowOptions) (start (DB.fresh narrowOptions))
      (writeWhileWaiting [107]), ∃ phase ∈ s.phases,
        (match phase with
        | .committed tx written => decide (NoWriteBetween tx written s.log)
        | _ => true) = false := by
    decide +kernel
  rcases evaluated with ⟨s, ran, phase, phaseMem, lost⟩
  cases phase with
  | committed tx written => exact ⟨s, tx, written, ran, phaseMem, of_decide_eq_false lost⟩
  | running tx => cases lost
  | waiting tx ops => cases lost
  | aborted => cases lost

/-- A write to another key does not harm the waiting transaction. -/
theorem writeWhileWaiting_spared :
    ∃ s tx written,
      Reached (step narrowOptions) (Orderly narrowOptions) (start (DB.fresh narrowOptions)) s ∧
      written ≠ [] ∧ .committed tx written ∈ s.phases ∧ NoWriteBetween tx written s.log := by
  have evaluated : ∃ s ∈ runAllowed (step narrowOptions) (Orderly narrowOptions)
      (start (DB.fresh narrowOptions)) (writeWhileWaiting [97]), ∃ phase ∈ s.phases,
        (match phase with
        | .committed _ written => written.length
        | _ => 0) = 1 := by
    decide +kernel
  rcases Reached.of_evaluated evaluated with ⟨s, reached, phase, phaseMem, one⟩
  have long : ∀ entry, (DB.fresh narrowOptions).InMemtables entry → entry.Long := by
    rintro entry ⟨m, mMem, entryMem⟩
    exact ((DB.fresh_scannable narrowOptions).memtables m mMem entry entryMem).1
  cases phase with
  | committed tx written =>
    refine ⟨s, tx, written, reached, ?_, phaseMem, first_committer_wins long reached phaseMem⟩
    rintro rfl
    cases one
  | running tx => cases one
  | waiting tx ops => cases one
  | aborted => cases one

end Sessions

end Theseon
