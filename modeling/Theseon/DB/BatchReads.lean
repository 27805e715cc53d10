import Theseon.DB.Sessions

/-!
# Batches and concurrent readers

The steps are those between two lock operations.  A writer holds the lock of the
engine while it draws the numbers of its batch and inserts the entries, each under
the lock of the active memtable.  A scan copies the pointers to the memtables and
tables under the lock of the engine, then locks the memtable it found active, and
reads the sequence number last.  A snapshot has its number from the start.

A scan that locks its memtable between two insertions of a batch shows part of the
batch.  Nothing else does.
-/

namespace Theseon

open Lib KV Iterator SSTable Compaction List

/-- A writer between the first and the last step under the lock of the engine. -/
structure Writing where
  inserted : List Entry
  rest : List Entry

/-- All entries of the batch. -/
def Writing.batch (w : Writing) : List Entry :=
  w.inserted ++ w.rest

/-- Whether a reader takes the current number when it has its sources, as `Scan`
and `ScanRange` do, or reads at the number of a snapshot. -/
inductive ReadKind where
  | scan
  | snapshot (seq : Nat)
  deriving DecidableEq, Repr

/-- A reader.  `view` holds the pointers it has copied and, once it has locked the
memtable of generation `gen` that was active then, the contents it sees there. -/
structure Reading where
  kind : ReadKind
  view : DB
  gen : Nat
  locked : Bool
  holding : Bool
  bound : Option Nat

/-- The engine with its writer and its readers. -/
structure Shared where
  db : DB
  /-- The memtables that were active before the present one, oldest first. -/
  rotated : List Memtable
  writer : Option Writing
  /-- The batches whose numbers have been drawn. -/
  batches : List (List Entry)
  snapshots : List Nat
  readings : List Reading

/-- A step under one lock. -/
inductive SharedAction where
  | draw (ops : List BatchOp)
  | insert
  | finish
  | fail
  | flush
  | takeSnapshot
  | capture (kind : ReadKind)
  | lockMemtable (r : Nat)
  | readSeq (r : Nat)
  | close (r : Nat)

namespace Shared

/-- The engine has been opened and nobody uses it. -/
def start (db : DB) : Shared :=
  ⟨db, [], none, [], [], []⟩

/-- The number of the active memtable. -/
def generation (s : Shared) : Nat :=
  s.rotated.length

/-- The memtable that a pointer leads to. -/
def memtable (s : Shared) (gen : Nat) : Memtable :=
  (s.rotated[gen]?).getD s.db.active

/-- Some reader keeps the active memtable locked. -/
def activeHeld (s : Shared) : Bool :=
  s.readings.any fun r => r.holding && r.gen == s.generation

/-- The sources of a reader as they are now. -/
def now (s : Shared) (r : Reading) : DB :=
  if r.locked then r.view else { r.view with active := s.memtable r.gen }

/-- The numbers of a batch are drawn under the lock of the engine. -/
def drawBatch (s : Shared) (ops : List BatchOp) : Shared :=
  { s with
    db := { s.db with nextSeq := addUint64 s.db.nextSeq ops.length }
    writer := some ⟨[], stamp s.db.nextSeq ops⟩
    batches := s.batches ++ [stamp s.db.nextSeq ops] }

/-- The next entry of the batch goes to the active memtable. -/
def insertEntry (s : Shared) (inserted : List Entry) (entry : Entry) (rest : List Entry) : Shared :=
  { s with db := s.db.insert entry, writer := some ⟨inserted ++ [entry], rest⟩ }

/-- The writer gives the lock of the engine back. -/
def unlock (s : Shared) : Shared :=
  { s with writer := none }

/-- The active memtable is replaced. -/
def rotate (s : Shared) : Shared :=
  { s with db := s.db.rotateMemtable, rotated := s.rotated ++ [s.db.active.freeze] }

/-- A reader copies the pointers under the lock of the engine. -/
def capture (s : Shared) (kind : ReadKind) (bound : Option Nat) : Shared :=
  { s with readings := s.readings ++ [⟨kind, s.db, s.generation, false, false, bound⟩] }

/-- One step.  `none` stands for a step that is blocked by a lock. -/
def step (opts : Options) (s : Shared) : SharedAction → Option Shared
  | .draw ops =>
    if s.writer.isNone ∧ ops ≠ [] ∧ s.db.immutables.length < opts.normalized.maxImmutableCount then
      some (s.drawBatch ops)
    else none
  | .insert =>
    match s.writer with
    | some ⟨inserted, entry :: rest⟩ =>
      if s.activeHeld then none else some (s.insertEntry inserted entry rest)
    | _ => none
  | .finish =>
    match s.writer with
    | some ⟨_, []⟩ =>
      if s.db.full opts then if s.activeHeld then none else some s.unlock.rotate
      else some s.unlock
    | _ => none
  | .fail =>
    -- the write to the log has failed
    match s.writer with
    | some ⟨[], _⟩ => some s.unlock
    | _ => none
  | .flush =>
    if s.writer.isNone then (s.db.flush opts).map fun db => { s with db := db } else none
  | .takeSnapshot => some { s with snapshots := s.snapshots ++ [s.db.nextSeq] }
  | .capture .scan => if s.writer.isNone then some (s.capture .scan none) else none
  | .capture (.snapshot seq) =>
    if s.writer.isNone ∧ seq ∈ s.snapshots then some (s.capture (.snapshot seq) (some seq))
    else none
  | .lockMemtable i => do
    let r ← s.readings[i]?
    if r.locked then none
    else some { s with
      readings := s.readings.set i { r with view := s.now r, locked := true, holding := true } }
  | .readSeq i => do
    let r ← s.readings[i]?
    if r.locked ∧ r.bound = none then
      some { s with readings := s.readings.set i { r with bound := some s.db.nextSeq } }
    else none
  | .close i => do
    let r ← s.readings[i]?
    if r.locked then some { s with readings := s.readings.set i { r with holding := false } }
    else none

end Shared

/-! ## Whole batches -/

/-- All keys of the batch or none of them. -/
def Whole (p : Bytes → Prop) (batch : List Entry) : Prop :=
  (∀ entry ∈ batch, p entry.key) ∨ ∀ entry ∈ batch, ¬ p entry.key

/-- Exactly the inserted part of the batch. -/
def Split (p : Bytes → Prop) (w : Writing) : Prop :=
  (∀ entry ∈ w.inserted, p entry.key) ∧ ∀ entry ∈ w.rest, ¬ p entry.key

variable {batch : List Entry}

theorem Whole.congr {p q : Bytes → Prop} (whole : Whole p batch)
    (same : ∀ entry ∈ batch, (p entry.key ↔ q entry.key)) : Whole q batch := by
  rcases whole with all | none
  · exact .inl fun entry mem => (same entry mem).mp (all entry mem)
  · exact .inr fun entry mem held => none entry mem ((same entry mem).mpr held)

/-- A batch that is not being inserted at the moment is whole. -/
theorem Split.whole {p : Bytes → Prop} {w : Writing} (split : Split p w)
    (between : w.inserted = [] ∨ w.rest = []) : Whole p w.batch := by
  rcases between with unstarted | ended
  · rw [Writing.batch, unstarted, nil_append]
    exact .inr split.2
  · rw [Writing.batch, ended, append_nil]
    exact .inl split.1

namespace DB

/-- Some version of the internal key is held. -/
def HoldsKey (db : DB) (key : Bytes) : Prop :=
  ∃ entry ∈ db.entries, entry.key = key

variable {db : DB} {key : Bytes}

theorem holdsKey_iff : db.HoldsKey key ↔
    (∃ m ∈ db.memtables, ∃ entry ∈ m.entries, entry.key = key) ∨
      ∃ r ∈ db.tables, ∃ entry ∈ r.entries, entry.key = key := by
  simp only [HoldsKey, mem_entries_iff, mem_entriesOf]
  constructor
  · rintro ⟨entry, ⟨m, mMem, mem⟩ | ⟨r, rMem, mem⟩, eq⟩
    · exact .inl ⟨m, mMem, entry, mem, eq⟩
    · exact .inr ⟨r, rMem, entry, mem, eq⟩
  · rintro (⟨m, mMem, entry, mem, eq⟩ | ⟨r, rMem, entry, mem, eq⟩)
    · exact ⟨entry, .inl ⟨m, mMem, mem⟩, eq⟩
    · exact ⟨entry, .inr ⟨r, rMem, mem⟩, eq⟩

/-- Only the keys of the active memtable matter when it is exchanged. -/
theorem holdsKey_active_congr {m other : Memtable}
    (same : (∃ entry ∈ m.entries, entry.key = key) ↔ ∃ entry ∈ other.entries, entry.key = key) :
    ({ db with active := m } : DB).HoldsKey key ↔
      ({ db with active := other } : DB).HoldsKey key := by
  simp only [holdsKey_iff, memtables, mem_cons, exists_eq_or_imp, same]
  rfl

theorem holdsKey_put_active {m : Memtable} {entry : Entry} :
    ({ db with active := m.put entry.key entry.value } : DB).HoldsKey key ↔
      entry.key = key ∨ ({ db with active := m } : DB).HoldsKey key := by
  simp only [holdsKey_iff, memtables, mem_cons, exists_eq_or_imp, Memtable.mem_put_entries,
    or_assoc]
  rfl

theorem holdsKey_rotateMemtable : db.rotateMemtable.HoldsKey key ↔ db.HoldsKey key := by
  simp only [holdsKey_iff, memtables, rotateMemtable, newMemtable, mem_cons,
    exists_eq_or_imp, Memtable.freeze_entries, Memtable.new_entries, not_mem_nil, false_and,
    exists_false, false_or]
  rfl

/-- A flush keeps every key. -/
theorem holdsKey_flush {opts : Options} {next : DB}
    (long : ∀ entry, db.InMemtables entry → entry.Long) (flushed : db.flush opts = some next) :
    next.HoldsKey key ↔ db.HoldsKey key := by
  rcases flush_eq_some flushed with ⟨older, mt, table, immutables, built, rfl⟩
  have mtMem : mt ∈ db.memtables := by simp [memtables, immutables]
  have contents := (flushTable_eq_ok (fun entry mem => long entry ⟨mt, mtMem, mem⟩) built).1
  have moved : (∃ entry ∈ table.entries, entry.key = key) ↔
      ∃ entry ∈ mt.entries, entry.key = key := by
    rw [contents]
    simp [flushedEntry]
  simp only [holdsKey_iff, memtables, tables, immutables, mem_cons, mem_append,
    not_mem_nil, or_false, or_and_right, exists_or, exists_eq_left, moved]
  grind

end DB

namespace Shared

/-- What a reader sees: the keys of its sources up to its bound. -/
def Sees (s : Shared) (r : Reading) (key : Bytes) : Prop :=
  (s.now r).HoldsKey key ∧ ∀ n ∈ r.bound, seqNum key ≤ n

/-- A set of keys holds every batch whole, the one being written apart.  Of that
one it holds what has been inserted if it follows the active memtable. -/
structure Consistent (s : Shared) (p : Bytes → Prop) (follows : Prop) : Prop where
  bounded : ∀ key, p key → seqNum key ≤ s.db.nextSeq
  settled : ∀ batch ∈ s.batches, (∃ w, s.writer = some w ∧ w.batch = batch) ∨ Whole p batch
  live : follows → ∀ w, s.writer = some w → Split p w
  still : ¬ follows → ∀ w, s.writer = some w → Whole p w.batch

/-- A scan that has not locked its memtable follows what is inserted there. -/
def Follows (s : Shared) (r : Reading) : Prop :=
  r.locked = false ∧ r.gen = s.generation

/-- Reads through a snapshot show what the engine holds up to its number, and what
is still to be inserted is above it. -/
structure AtSnapshot (s : Shared) (r : Reading) (n : Nat) : Prop where
  taken : n ∈ s.snapshots
  bound : r.bound = some n
  shows : ∀ key, s.Sees r key ↔ s.db.HoldsKey key ∧ seqNum key ≤ n
  above : ∀ w, s.writer = some w → ∀ entry ∈ w.rest, n < entry.seq

/-- What holds of a reader between the steps. -/
structure Sound (s : Shared) (r : Reading) : Prop where
  gen : r.gen ≤ s.generation
  scan : r.kind = .scan →
    s.Consistent (s.Sees r) (s.Follows r) ∧ (r.locked = false → r.bound = none)
  snapshot : ∀ n, r.kind = .snapshot n → s.AtSnapshot r n

structure Invariant (s : Shared) : Prop where
  long : ∀ entry, s.db.InMemtables entry → entry.Long
  drawn : ∀ batch ∈ s.batches, ∀ entry ∈ batch, entry.seq ≤ s.db.nextSeq ∧ entry.Long
  apart : ∀ first ∈ s.batches, ∀ second ∈ s.batches, first ≠ second →
    ∀ entry ∈ first, ∀ other ∈ second, entry.key ≠ other.key
  writing : ∀ w, s.writer = some w → w.batch ∈ s.batches ∧ (w.batch.map Entry.key).Nodup
  cut : ∀ n ∈ s.snapshots, n ≤ s.db.nextSeq ∧ ∀ batch ∈ s.batches,
    (∀ entry ∈ batch, entry.seq ≤ n) ∨ ∀ entry ∈ batch, n < entry.seq
  engine : s.Consistent s.db.HoldsKey True
  readings : ∀ r ∈ s.readings, s.Sound r

/-! ## What the steps keep -/

section

variable {s s' : Shared} {r : Reading} {p q : Bytes → Prop} {follows follows' : Prop} {key : Bytes}

theorem Consistent.whole_of_idle (c : s.Consistent p follows) (idle : s.writer = none) :
    ∀ batch ∈ s.batches, Whole p batch := by
  intro batch batchMem
  rcases c.settled batch batchMem with ⟨w, writing, _⟩ | whole
  · exact absurd writing (by simp [idle])
  · exact whole

/-- Nobody writes and every batch is whole. -/
theorem consistent_of_idle (idle : s.writer = none)
    (bounded : ∀ key, p key → seqNum key ≤ s.db.nextSeq)
    (whole : ∀ batch ∈ s.batches, Whole p batch) : s.Consistent p follows where
  bounded := bounded
  settled := fun batch batchMem => .inr (whole batch batchMem)
  live := fun _ w writing => absurd writing (by simp [idle])
  still := fun _ w writing => absurd writing (by simp [idle])

/-- The counter, the batches and the writer are the same. -/
structure Frame (s s' : Shared) : Prop where
  nextSeq : s'.db.nextSeq = s.db.nextSeq
  batches : s'.batches = s.batches
  writer : s'.writer = s.writer

theorem Consistent.transfer (c : s.Consistent p follows) (frame : Frame s s')
    (same : ∀ key, q key ↔ p key) (turned : s.writer = none ∨ (follows' ↔ follows)) :
    s'.Consistent q follows' := by
  have eq : q = p := funext fun key => propext (same key)
  have bounded : ∀ key, p key → seqNum key ≤ s'.db.nextSeq := by
    rw [frame.nextSeq]
    exact c.bounded
  rw [eq]
  rcases turned with idle | iff
  · apply consistent_of_idle (frame.writer.trans idle) bounded
    rw [frame.batches]
    exact c.whole_of_idle idle
  constructor
  · exact bounded
  · rw [frame.batches, frame.writer]
    exact c.settled
  · rw [iff, frame.writer]
    exact c.live
  · rw [iff, frame.writer]
    exact c.still

theorem Sound.transfer (sound : s.Sound r) (frame : Frame s s')
    (snapshots : s.snapshots ⊆ s'.snapshots) (gen : s.generation ≤ s'.generation)
    (sees : ∀ key, s'.Sees r key ↔ s.Sees r key)
    (holds : ∀ key, s'.db.HoldsKey key ↔ s.db.HoldsKey key)
    (turned : s.writer = none ∨ s'.generation = s.generation) : s'.Sound r where
  gen := le_trans sound.gen gen
  scan := by
    intro scan
    constructor
    · apply (sound.scan scan).1.transfer frame sees
      apply turned.imp id
      intro same
      rw [Follows, Follows, same]
    · exact (sound.scan scan).2
  snapshot := by
    intro n snapshot
    have at_n := sound.snapshot n snapshot
    constructor
    · exact snapshots at_n.taken
    · exact at_n.bound
    · intro key
      rw [sees, holds]
      exact at_n.shows key
    · rw [frame.writer]
      exact at_n.above

theorem Sound.withReadings (sound : s.Sound r) (readings : List Reading) :
    ({ s with readings := readings } : Shared).Sound r :=
  sound.transfer ⟨rfl, rfl, rfl⟩ (List.Subset.refl _) le_rfl (fun _ => Iff.rfl) (fun _ => Iff.rfl)
    (.inr rfl)

theorem Invariant.withReadings (inv : s.Invariant) {readings : List Reading}
    (sound : ∀ r ∈ readings, s.Sound r) :
    ({ s with readings := readings } : Shared).Invariant :=
  { inv with
    engine := inv.engine.transfer ⟨rfl, rfl, rfl⟩ (fun _ => Iff.rfl) (.inr Iff.rfl)
    readings := fun r rMem => (sound r rMem).withReadings readings }

theorem Invariant.addReading (inv : s.Invariant) (sound : s.Sound r) :
    ({ s with readings := s.readings ++ [r] } : Shared).Invariant := by
  apply inv.withReadings
  intro other otherMem
  rcases mem_append.mp otherMem with old | isNew
  · exact inv.readings other old
  · rw [mem_singleton.mp isNew]
    exact sound

theorem Invariant.setReading (inv : s.Invariant) (i : Nat) (sound : s.Sound r) :
    ({ s with readings := s.readings.set i r } : Shared).Invariant := by
  apply inv.withReadings
  intro other otherMem
  rcases mem_or_eq_of_mem_set otherMem with old | rfl
  · exact inv.readings other old
  · exact sound

variable {ops : List BatchOp}

/-! ### Drawing the numbers -/

theorem Consistent.drawBatch (c : s.Consistent p follows) (idle : s.writer = none)
    (fits : s.db.nextSeq + ops.length ≤ maxSeqNum) : (s.drawBatch ops).Consistent p follows' := by
  have counter : (s.drawBatch ops).db.nextSeq = s.db.nextSeq + ops.length := addUint64_eq fits
  have unheld : ∀ entry ∈ stamp s.db.nextSeq ops, ¬ p entry.key := by
    intro entry mem held
    exact absurd (c.bounded _ held) (not_le.mpr (seq_of_mem_stamp fits mem).1)
  constructor
  · intro key held
    rw [counter]
    exact le_trans (c.bounded key held) (Nat.le_add_right _ _)
  · intro batch batchMem
    rcases mem_append.mp batchMem with old | isNew
    · exact .inr (c.whole_of_idle idle batch old)
    · rw [mem_singleton.mp isNew]
      exact .inl ⟨⟨[], stamp s.db.nextSeq ops⟩, rfl, rfl⟩
  · rintro _ _ ⟨⟩
    exact ⟨(fun _ mem => nomatch mem), unheld⟩
  · rintro _ _ ⟨⟩
    exact .inr unheld

theorem Sound.drawBatch (sound : s.Sound r) (inv : s.Invariant) (idle : s.writer = none)
    (fits : s.db.nextSeq + ops.length ≤ maxSeqNum) :
    (s.drawBatch ops).Sound r where
  gen := sound.gen
  scan := fun scan => ⟨(sound.scan scan).1.drawBatch idle fits, (sound.scan scan).2⟩
  snapshot := by
    intro n snapshot
    have at_n := sound.snapshot n snapshot
    refine { at_n with above := ?_ }
    rintro _ ⟨⟩ entry mem
    exact lt_of_le_of_lt (inv.cut n at_n.taken).1 (seq_of_mem_stamp fits mem).1

theorem Invariant.drawBatch (inv : s.Invariant) (idle : s.writer = none)
    (fits : s.db.nextSeq + ops.length ≤ maxSeqNum) : (s.drawBatch ops).Invariant := by
  have counter : (s.drawBatch ops).db.nextSeq = s.db.nextSeq + ops.length := addUint64_eq fits
  constructor
  · exact inv.long
  · intro batch batchMem entry mem
    rw [counter]
    rcases mem_append.mp batchMem with old | isNew
    · have drawn := inv.drawn batch old entry mem
      exact ⟨le_trans drawn.1 (Nat.le_add_right _ _), drawn.2⟩
    · rw [mem_singleton.mp isNew] at mem
      exact ⟨(seq_of_mem_stamp fits mem).2, long_of_mem_stamp mem⟩
  · have above : ∀ batch ∈ s.batches, ∀ entry ∈ batch, ∀ other ∈ stamp s.db.nextSeq ops,
        entry.key ≠ other.key := by
      intro batch batchMem entry mem other otherMem sameKey
      have higher : entry.seq < other.seq :=
        lt_of_le_of_lt (inv.drawn batch batchMem entry mem).1 (seq_of_mem_stamp fits otherMem).1
      exact absurd (congrArg seqNum sameKey) (ne_of_lt higher)
    intro first firstMem second secondMem different
    rcases mem_append.mp firstMem with old | isNew
    · rcases mem_append.mp secondMem with old' | isNew'
      · exact inv.apart first old second old' different
      · rw [mem_singleton.mp isNew']
        exact above first old
    rw [mem_singleton.mp isNew] at different ⊢
    rcases mem_append.mp secondMem with old' | isNew'
    · exact fun entry mem other otherMem eq => above second old' other otherMem entry mem eq.symm
    · exact absurd (mem_singleton.mp isNew').symm different
  · rintro _ ⟨⟩
    refine ⟨mem_append.mpr (.inr (mem_singleton.mpr rfl)), ?_⟩
    apply pairwise_map.mpr
    exact (stamp_pairwise fits).imp fun above sameKey =>
      absurd (congrArg seqNum sameKey) (ne_of_lt above)
  · intro n taken
    have cut := inv.cut n taken
    rw [counter]
    refine ⟨le_trans cut.1 (Nat.le_add_right _ _), ?_⟩
    intro batch batchMem
    rcases mem_append.mp batchMem with old | isNew
    · exact cut.2 batch old
    · rw [mem_singleton.mp isNew]
      exact .inr fun entry mem => lt_of_le_of_lt cut.1 (seq_of_mem_stamp fits mem).1
  · exact inv.engine.drawBatch idle fits
  · exact fun r rMem => (inv.readings r rMem).drawBatch inv idle fits

/-! ### Inserting an entry -/

variable {inserted rest : List Entry} {entry : Entry}

theorem batch_insertEntry :
    (⟨inserted ++ [entry], rest⟩ : Writing).batch =
      (⟨inserted, entry :: rest⟩ : Writing).batch := by
  simp [Writing.batch]

/-- The entry appears in what follows the active memtable. -/
theorem Consistent.insertEntry_live (c : s.Consistent p follows) (inv : s.Invariant)
    (writing : s.writer = some ⟨inserted, entry :: rest⟩) (live : follows) (live' : follows')
    (grows : ∀ key, q key ↔ entry.key = key ∨ p key) :
    (s.insertEntry inserted entry rest).Consistent q follows' := by
  have current := inv.writing _ writing
  have entryMem : entry ∈ (⟨inserted, entry :: rest⟩ : Writing).batch := by simp [Writing.batch]
  constructor
  · intro key held
    rcases (grows key).mp held with rfl | old
    · exact (inv.drawn _ current.1 entry entryMem).1
    · exact c.bounded key old
  · intro batch batchMem
    by_cases same : batch = (⟨inserted, entry :: rest⟩ : Writing).batch
    · exact .inl ⟨_, rfl, batch_insertEntry.trans same.symm⟩
    -- the entry belongs to no other batch
    have apart := inv.apart _ current.1 batch batchMem (Ne.symm same)
    rcases c.settled batch batchMem with ⟨w, isWriter, batchEq⟩ | whole
    · rw [writing] at isWriter
      cases isWriter
      exact absurd batchEq.symm same
    apply Or.inr
    apply whole.congr
    intro other otherMem
    rw [grows, or_iff_right (apart entry entryMem other otherMem)]
  · rintro _ _ ⟨⟩
    have split := c.live live _ writing
    constructor
    · intro other otherMem
      rw [grows]
      rcases mem_append.mp otherMem with old | isNew
      · exact .inr (split.1 other old)
      · exact .inl (congrArg Entry.key (mem_singleton.mp isNew)).symm
    · intro other otherMem
      rw [grows]
      rintro (sameKey | old)
      · have distinct := (nodup_append.mp (map_append ▸ current.2)).2.1
        exact (nodup_cons.mp distinct).1 (mem_map.mpr ⟨other, otherMem, sameKey.symm⟩)
      · exact split.2 other (mem_cons_of_mem _ otherMem) old
  · exact absurd live'

/-- What does not follow the active memtable stays as it is. -/
theorem Consistent.insertEntry_still (c : s.Consistent p follows)
    (writing : s.writer = some ⟨inserted, entry :: rest⟩) (still : ¬ follows) :
    (s.insertEntry inserted entry rest).Consistent p follows := by
  constructor
  · exact c.bounded
  · intro batch batchMem
    rcases c.settled batch batchMem with ⟨w, isWriter, batchEq⟩ | whole
    · rw [writing] at isWriter
      cases isWriter
      exact .inl ⟨_, rfl, batch_insertEntry.trans batchEq⟩
    · exact .inr whole
  · exact fun live => absurd live still
  · rintro _ _ ⟨⟩
    rw [batch_insertEntry]
    exact c.still still _ writing

theorem memtable_generation (s : Shared) : s.memtable s.generation = s.db.active := by
  simp [memtable, generation]

theorem sees_insertEntry_still (gen : r.gen ≤ s.generation) (still : ¬ s.Follows r) :
    (s.insertEntry inserted entry rest).Sees r key ↔ s.Sees r key := by
  unfold Sees now
  cases locked : r.locked with
  | true => exact Iff.rfl
  | false =>
    have old : r.gen < s.rotated.length :=
      lt_of_le_of_ne gen fun same => still ⟨locked, same⟩
    simp [memtable, insertEntry, old]

theorem sees_insertEntry_live (live : s.Follows r) :
    (s.insertEntry inserted entry rest).Sees r key ↔
      (entry.key = key ∧ ∀ n ∈ r.bound, seqNum key ≤ n) ∨ s.Sees r key := by
  have active : (s.insertEntry inserted entry rest).memtable r.gen =
      s.db.active.put entry.key entry.value := by
    rw [live.2]
    exact memtable_generation (s.insertEntry inserted entry rest)
  have before : s.memtable r.gen = s.db.active := by
    rw [live.2]
    exact memtable_generation s
  simp only [Sees, now, live.1, active, before, Bool.false_eq_true, if_false,
    DB.holdsKey_put_active, or_and_right]

theorem Sound.insertEntry (sound : s.Sound r) (inv : s.Invariant)
    (writing : s.writer = some ⟨inserted, entry :: rest⟩) :
    (s.insertEntry inserted entry rest).Sound r := by
  constructor
  · exact sound.gen
  · intro scan
    rcases sound.scan scan with ⟨c, unbounded⟩
    refine ⟨?_, unbounded⟩
    by_cases live : s.Follows r
    · apply c.insertEntry_live inv writing live live
      intro key
      rw [sees_insertEntry_live live, unbounded live.1]
      simp
    have same : (s.insertEntry inserted entry rest).Sees r = s.Sees r :=
      funext fun key => propext (sees_insertEntry_still sound.gen live)
    rw [same]
    exact c.insertEntry_still writing live
  · intro n snapshot
    have at_n := sound.snapshot n snapshot
    have high : n < seqNum entry.key := at_n.above _ writing entry mem_cons_self
    constructor
    · exact at_n.taken
    · exact at_n.bound
    · intro key
      -- the entry is above the number, wherever it has become visible
      have grown : (s.db.insert entry).HoldsKey key ∧ seqNum key ≤ n ↔
          s.db.HoldsKey key ∧ seqNum key ≤ n := by
        rw [DB.insert, DB.holdsKey_put_active]
        constructor
        · rintro ⟨rfl | held, low⟩
          · exact absurd low (not_le.mpr high)
          · exact ⟨held, low⟩
        · exact fun ⟨held, low⟩ => ⟨.inr held, low⟩
      apply Iff.trans _ grown.symm
      rw [← at_n.shows]
      by_cases live : s.Follows r
      · rw [sees_insertEntry_live live, at_n.bound]
        apply or_iff_right
        rintro ⟨rfl, low⟩
        exact absurd (low n rfl) (not_le.mpr high)
      · exact sees_insertEntry_still sound.gen live
    · rintro _ ⟨⟩ other otherMem
      exact at_n.above _ writing other (mem_cons_of_mem _ otherMem)

theorem Invariant.insertEntry (inv : s.Invariant)
    (writing : s.writer = some ⟨inserted, entry :: rest⟩) :
    (s.insertEntry inserted entry rest).Invariant := by
  have current := inv.writing _ writing
  constructor
  · rintro other ⟨m, mMem, mem⟩
    rcases mem_cons.mp mMem with rfl | older
    · rcases Memtable.mem_put_entries.mp mem with rfl | old
      · exact (inv.drawn _ current.1 entry (by simp [Writing.batch])).2
      · exact inv.long other ⟨s.db.active, mem_cons_self, old⟩
    · exact inv.long other ⟨m, mem_cons_of_mem _ older, mem⟩
  · exact inv.drawn
  · exact inv.apart
  · rintro _ ⟨⟩
    rw [batch_insertEntry]
    exact current
  · exact inv.cut
  · exact inv.engine.insertEntry_live inv writing trivial trivial
      fun key => DB.holdsKey_put_active
  · exact fun r rMem => (inv.readings r rMem).insertEntry inv writing

/-! ### The end of a write -/

theorem Consistent.unlock (c : s.Consistent p follows) {w : Writing} (writing : s.writer = some w)
    (between : w.inserted = [] ∨ w.rest = []) : s.unlock.Consistent p follows' := by
  apply consistent_of_idle (s := s.unlock) rfl c.bounded
  intro batch batchMem
  rcases c.settled batch batchMem with ⟨current, isWriter, rfl⟩ | whole
  · rw [writing] at isWriter
    cases isWriter
    by_cases live : follows
    · exact (c.live live w writing).whole between
    · exact c.still live w writing
  · exact whole

theorem Invariant.unlock (inv : s.Invariant) {w : Writing} (writing : s.writer = some w)
    (between : w.inserted = [] ∨ w.rest = []) : s.unlock.Invariant := by
  refine { inv with
    writing := nofun
    engine := inv.engine.unlock writing between
    readings := ?_ }
  intro r rMem
  have sound := inv.readings r rMem
  constructor
  · exact sound.gen
  · exact fun scan => ⟨(sound.scan scan).1.unlock writing between, (sound.scan scan).2⟩
  · exact fun n snapshot => { sound.snapshot n snapshot with above := nofun }

/-- The database changes and the engine holds the same keys, while nobody writes. -/
theorem Invariant.transfer (inv : s.Invariant) (idle : s.writer = none) (frame : Frame s s')
    (snapshots : s'.snapshots = s.snapshots) (readings : s'.readings = s.readings)
    (long : ∀ entry, s'.db.InMemtables entry → entry.Long) (gen : s.generation ≤ s'.generation)
    (sees : ∀ r ∈ s.readings, ∀ key, s'.Sees r key ↔ s.Sees r key)
    (holds : ∀ key, s'.db.HoldsKey key ↔ s.db.HoldsKey key) : s'.Invariant where
  long := long
  drawn := by
    rw [frame.batches, frame.nextSeq]
    exact inv.drawn
  apart := by
    rw [frame.batches]
    exact inv.apart
  writing := by
    rw [frame.batches, frame.writer]
    exact inv.writing
  cut := by
    rw [snapshots, frame.batches, frame.nextSeq]
    exact inv.cut
  engine := inv.engine.transfer frame holds (.inl idle)
  readings := by
    rw [readings]
    exact fun r rMem => (inv.readings r rMem).transfer frame (snapshots ▸ List.Subset.refl _) gen
      (sees r rMem) holds (.inl idle)

theorem Invariant.rotate (inv : s.Invariant) (idle : s.writer = none) : s.rotate.Invariant := by
  apply inv.transfer idle (⟨rfl, rfl, rfl⟩ : Frame s s.rotate) rfl rfl
  · rintro entry ⟨m, mMem, mem⟩
    rcases mem_cons.mp mMem with rfl | mMem
    · exact nomatch mem
    rcases mem_cons.mp mMem with rfl | older
    · exact inv.long entry ⟨s.db.active, mem_cons_self, mem⟩
    · exact inv.long entry ⟨m, mem_cons_of_mem _ older, mem⟩
  · simp [generation, Shared.rotate]
  · intro r rMem key
    have gen := (inv.readings r rMem).gen
    unfold Sees now
    cases r.locked with
    | true => exact Iff.rfl
    | false =>
      apply and_congr_left
      intro _
      apply DB.holdsKey_active_congr
      rcases eq_or_lt_of_le gen with same | old
      · rw [same, memtable_generation]
        simp [memtable, generation, Shared.rotate]
      have kept : s.rotate.memtable r.gen = s.memtable r.gen := by
        rw [generation] at old
        simp [memtable, Shared.rotate, getElem?_append_left old, old]
      rw [kept]
  · exact fun key => DB.holdsKey_rotateMemtable

theorem Invariant.flush {opts : Options} (inv : s.Invariant) (idle : s.writer = none) {next : DB}
    (flushed : s.db.flush opts = some next) : ({ s with db := next } : Shared).Invariant := by
  have holds : ∀ key, next.HoldsKey key ↔ s.db.HoldsKey key :=
    fun key => DB.holdsKey_flush inv.long flushed
  rcases DB.flush_eq_some flushed with ⟨older, mt, table, immutables, built, rfl⟩
  have frame : Frame s { s with db := { s.db with l0 := table :: s.db.l0, immutables := older } } :=
    ⟨rfl, rfl, rfl⟩
  apply inv.transfer idle frame rfl rfl
  · rintro entry ⟨m, mMem, mem⟩
    exact inv.long entry ⟨m, (DB.mem_memtables_split immutables).mpr (.inl mMem), mem⟩
  · exact le_rfl
  · exact fun r _ key => Iff.rfl
  · exact holds

/-! ### The readers -/

theorem Invariant.takeSnapshot (inv : s.Invariant) :
    ({ s with snapshots := s.snapshots ++ [s.db.nextSeq] } : Shared).Invariant := by
  refine { inv with
    cut := ?_
    engine := inv.engine.transfer ⟨rfl, rfl, rfl⟩ (fun _ => Iff.rfl) (.inr Iff.rfl)
    readings := fun r rMem => (inv.readings r rMem).transfer ⟨rfl, rfl, rfl⟩
      (subset_append_left _ _) le_rfl (fun _ => Iff.rfl) (fun _ => Iff.rfl) (.inr rfl) }
  intro n taken
  rcases mem_append.mp taken with old | isNew
  · exact inv.cut n old
  rw [mem_singleton.mp isNew]
  refine ⟨le_rfl, fun batch batchMem => .inl fun entry mem => ?_⟩
  exact (inv.drawn batch batchMem entry mem).1

/-- A reader that has just copied the pointers would see the engine. -/
theorem sees_captured {kind : ReadKind} {bound : Option Nat} :
    s.Sees ⟨kind, s.db, s.generation, false, false, bound⟩ key ↔
      s.db.HoldsKey key ∧ ∀ n ∈ bound, seqNum key ≤ n := by
  simp [Sees, now, memtable_generation]

theorem Invariant.captureScan (inv : s.Invariant) (idle : s.writer = none) :
    (s.capture .scan none).Invariant := by
  apply inv.addReading
  constructor
  · exact le_rfl
  · intro _
    refine ⟨inv.engine.transfer ⟨rfl, rfl, rfl⟩ ?_ (.inl idle), fun _ => rfl⟩
    intro key
    rw [sees_captured]
    simp
  · exact nofun

theorem Invariant.captureSnapshot (inv : s.Invariant) (idle : s.writer = none) {n : Nat}
    (taken : n ∈ s.snapshots) : (s.capture (.snapshot n) (some n)).Invariant := by
  apply inv.addReading
  constructor
  · exact le_rfl
  · exact nofun
  · rintro _ ⟨⟩
    constructor
    · exact taken
    · rfl
    · intro key
      rw [sees_captured]
      simp
    · intro w writing
      rw [idle] at writing
      exact nomatch writing

theorem Sound.lockMemtable (sound : s.Sound r)
    (between : r.kind = .scan → r.gen = s.generation →
      ∀ w ∈ s.writer, w.inserted = [] ∨ w.rest = []) :
    s.Sound { r with view := s.now r, locked := true, holding := true } := by
  constructor
  · exact sound.gen
  · intro scan
    rcases sound.scan scan with ⟨c, _⟩
    refine ⟨⟨c.bounded, c.settled, (fun live => nomatch live.1), ?_⟩, nofun⟩
    intro _ w writing
    by_cases live : s.Follows r
    · exact (c.live live w writing).whole (between scan live.2 w writing)
    · exact c.still live w writing
  · exact fun n snapshot => { sound.snapshot n snapshot with }

theorem Sound.readSeq (sound : s.Sound r) (locked : r.locked = true) (unread : r.bound = none) :
    s.Sound { r with bound := some s.db.nextSeq } := by
  constructor
  · exact sound.gen
  · intro scan
    rcases sound.scan scan with ⟨c, _⟩
    refine ⟨c.transfer ⟨rfl, rfl, rfl⟩ ?_ (.inr Iff.rfl), ?_⟩
    · -- the number is at least that of every version
      intro key
      constructor
      · rintro ⟨held, _⟩
        exact ⟨held, by simp [unread]⟩
      · intro seen
        refine ⟨seen.1, ?_⟩
        rintro _ ⟨⟩
        exact c.bounded key seen
    · exact fun unlocked => absurd (locked.symm.trans unlocked) Bool.noConfusion
  · intro n snapshot
    exact absurd (sound.snapshot n snapshot).bound (by simp [unread])

theorem Sound.close (sound : s.Sound r) : s.Sound { r with holding := false } where
  gen := sound.gen
  scan := fun scan =>
    ⟨(sound.scan scan).1.transfer ⟨rfl, rfl, rfl⟩ (fun _ => Iff.rfl) (.inr Iff.rfl),
      (sound.scan scan).2⟩
  snapshot := fun n snapshot => { sound.snapshot n snapshot with }

end

/-! ## Runs -/

/-- A scan does not lock the active memtable between two insertions of a batch, and
the counter does not wrap. -/
def LocksBetween (s : Shared) : SharedAction → Prop
  | .draw ops => s.db.nextSeq + ops.length ≤ maxSeqNum
  | .lockMemtable i => ∀ r ∈ s.readings[i]?, r.kind = .scan → r.gen = s.generation →
      ∀ w ∈ s.writer, w.inserted = [] ∨ w.rest = []
  | _ => True

theorem Invariant.step {opts : Options} {s next : Shared} {a : SharedAction} (inv : s.Invariant)
    (between : s.LocksBetween a) (stepped : s.step opts a = some next) : next.Invariant := by
  cases a with
  | draw ops =>
    rcases Option.ite_none_right_eq_some.mp stepped with ⟨⟨idle, _⟩, ⟨⟩⟩
    exact inv.drawBatch (Option.isNone_iff_eq_none.mp idle) between
  | insert =>
    simp only [Shared.step] at stepped
    split at stepped
    · rename_i inserted entry rest writing
      rcases Option.ite_none_left_eq_some.mp stepped with ⟨_, ⟨⟩⟩
      exact inv.insertEntry writing
    · exact nomatch stepped
  | finish =>
    simp only [Shared.step] at stepped
    split at stepped
    · rename_i inserted writing
      have unlocked := inv.unlock writing (.inr rfl)
      split at stepped
      · rcases Option.ite_none_left_eq_some.mp stepped with ⟨_, ⟨⟩⟩
        exact unlocked.rotate rfl
      · cases stepped
        exact unlocked
    · exact nomatch stepped
  | fail =>
    simp only [Shared.step] at stepped
    split at stepped
    · rename_i rest writing
      cases stepped
      exact inv.unlock writing (.inl rfl)
    · exact nomatch stepped
  | flush =>
    rcases Option.ite_none_right_eq_some.mp stepped with ⟨idle, mapped⟩
    rcases Option.map_eq_some_iff.mp mapped with ⟨db, flushed, rfl⟩
    exact inv.flush (Option.isNone_iff_eq_none.mp idle) flushed
  | takeSnapshot =>
    cases stepped
    exact inv.takeSnapshot
  | capture kind =>
    cases kind with
    | scan =>
      rcases Option.ite_none_right_eq_some.mp stepped with ⟨idle, ⟨⟩⟩
      exact inv.captureScan (Option.isNone_iff_eq_none.mp idle)
    | snapshot n =>
      rcases Option.ite_none_right_eq_some.mp stepped with ⟨⟨idle, taken⟩, ⟨⟩⟩
      exact inv.captureSnapshot (Option.isNone_iff_eq_none.mp idle) taken
  | lockMemtable i =>
    rcases Option.bind_eq_some_iff.mp stepped with ⟨r, found, locks⟩
    rcases Option.ite_none_left_eq_some.mp locks with ⟨_, ⟨⟩⟩
    exact inv.setReading i
      ((inv.readings r (mem_of_getElem? found)).lockMemtable (between r found))
  | readSeq i =>
    rcases Option.bind_eq_some_iff.mp stepped with ⟨r, found, reads⟩
    rcases Option.ite_none_right_eq_some.mp reads with ⟨⟨locked, unread⟩, ⟨⟩⟩
    exact inv.setReading i ((inv.readings r (mem_of_getElem? found)).readSeq locked unread)
  | close i =>
    rcases Option.bind_eq_some_iff.mp stepped with ⟨r, found, closes⟩
    rcases Option.ite_none_right_eq_some.mp closes with ⟨_, ⟨⟩⟩
    exact inv.setReading i (inv.readings r (mem_of_getElem? found)).close

theorem start_invariant {db : DB} (long : ∀ entry, db.InMemtables entry → entry.Long)
    (bounded : ∀ entry ∈ db.entries, entry.seq ≤ db.nextSeq) : (start db).Invariant where
  long := long
  drawn := nofun
  apart := nofun
  writing := nofun
  cut := nofun
  engine := by
    apply consistent_of_idle rfl
    · rintro _ ⟨entry, mem, rfl⟩
      exact bounded entry mem
    · exact nofun
  readings := nofun

/-- A snapshot shows a batch whole, also the one that is being written. -/
theorem AtSnapshot.whole {s : Shared} {r : Reading} {n : Nat} (at_n : s.AtSnapshot r n)
    (inv : s.Invariant) (batchMem : batch ∈ s.batches) :
    Whole (s.Sees r) batch := by
  rcases (inv.cut n at_n.taken).2 batch batchMem with low | high
  · have same : ∀ entry ∈ batch, (s.db.HoldsKey entry.key ↔ s.Sees r entry.key) := by
      intro entry mem
      rw [at_n.shows]
      exact (and_iff_left (low entry mem)).symm
    rcases inv.engine.settled batch batchMem with ⟨w, writing, rfl⟩ | whole
    · -- nothing up to the number of the snapshot is still to be inserted
      have ended : w.rest = [] := by
        apply eq_nil_iff_forall_not_mem.mpr
        intro entry mem
        have inBatch : entry ∈ w.batch := mem_append.mpr (.inr mem)
        exact absurd (low entry inBatch) (not_le.mpr (at_n.above w writing entry mem))
      exact ((inv.engine.live trivial w writing).whole (.inr ended)).congr same
    · exact whole.congr same
  · apply Or.inr
    intro entry mem seen
    exact absurd ((at_n.shows _).mp seen).2 (not_le.mpr (high entry mem))

theorem Sound.whole {s : Shared} {r : Reading} (sound : s.Sound r) (inv : s.Invariant)
    (locked : r.locked = true) (batchMem : batch ∈ s.batches) :
    Whole (s.Sees r) batch := by
  cases kind : r.kind with
  | scan =>
    have c := (sound.scan kind).1
    have still : ¬ s.Follows r := fun live => absurd locked (by simp [live.1])
    rcases c.settled batch batchMem with ⟨w, writing, rfl⟩ | whole
    · exact c.still still w writing
    · exact whole
  | snapshot n => exact (sound.snapshot n kind).whole inv batchMem

/-- In every run in which no scan locks the active memtable in the middle of a
batch, every open scan and every read through a snapshot sees each batch whole, and
all reads through a snapshot see the same versions. -/
theorem batches_seen_whole {opts : Options} {db : DB}
    (long : ∀ entry, db.InMemtables entry → entry.Long)
    (bounded : ∀ entry ∈ db.entries, entry.seq ≤ db.nextSeq) {s : Shared}
    (reached : Reached (step opts) LocksBetween (start db) s) :
    (∀ r ∈ s.readings, r.locked = true → ∀ batch ∈ s.batches, Whole (s.Sees r) batch) ∧
      ∀ r ∈ s.readings, ∀ other ∈ s.readings, ∀ n, r.kind = .snapshot n →
        other.kind = .snapshot n → ∀ key, s.Sees r key ↔ s.Sees other key := by
  have inv : s.Invariant := reached.invariant Invariant (start_invariant long bounded)
    Invariant.step
  constructor
  · exact fun r rMem locked batch batchMem => (inv.readings r rMem).whole inv locked batchMem
  · intro r rMem other otherMem n kind otherKind key
    rw [((inv.readings r rMem).snapshot n kind).shows,
      ((inv.readings other otherMem).snapshot n otherKind).shows]

/-! ## A batch seen in part -/

instance (db : DB) (key : Bytes) : Decidable (db.HoldsKey key) :=
  inferInstanceAs (Decidable (∃ entry ∈ db.entries, entry.key = key))

instance (s : Shared) (r : Reading) (key : Bytes) : Decidable (s.Sees r key) :=
  inferInstanceAs (Decidable (_ ∧ ∀ n ∈ r.bound, seqNum key ≤ n))

instance (s : Shared) (r : Reading) (batch : List Entry) : Decidable (Whole (s.Sees r) batch) :=
  inferInstanceAs (Decidable (_ ∨ _))

instance (s : Shared) (a : SharedAction) : Decidable (s.LocksBetween a) := by
  cases a <;> unfold LocksBetween <;> infer_instance

/-- A batch of two keys is written while a scan starts.  The scan locks the memtable
after `early` insertions. -/
def scanDuringBatch (early late : List SharedAction) : List SharedAction :=
  [.capture .scan, .draw [.put [97] (some [49]), .put [98] (some [50])]] ++ early ++
    [.lockMemtable 0, .readSeq 0, .close 0] ++ late ++ [.finish]

/-- The scan that locks the memtable after the first insertion yields the first key
of the batch only.  The batch is committed, and the engine holds both. -/
theorem scan_between_insertions_shows_half :
    ∃ s, run (step defaultOptions) (start (.fresh defaultOptions))
        (scanDuringBatch [.insert] [.insert]) = some s ∧ s.writer.isNone ∧
      (∀ batch ∈ s.batches, ∀ entry ∈ batch, s.db.HoldsKey entry.key) ∧
      (∀ r ∈ s.readings, ∀ batch ∈ s.batches, ¬ Whole (s.Sees r) batch) ∧
      s.readings.map (fun r => (r.bound, visible 2 none r.view.scanned)) =
        [(some 2, [(makeInternalKey [97] 1, some [49])])] := by
  refine ⟨_, rfl, ?_⟩
  decide +kernel

/-- The scan that waits for the second insertion yields both keys. -/
theorem scan_after_insertions_seen_whole :
    ∃ s, Reached (step defaultOptions) LocksBetween (start (.fresh defaultOptions)) s ∧
      s.batches ≠ [] ∧ s.readings ≠ [] ∧
      ∀ r ∈ s.readings, r.locked = true → ∀ batch ∈ s.batches, Whole (s.Sees r) batch := by
  have evaluated : ∃ s ∈ runAllowed (step defaultOptions) LocksBetween
      (start (.fresh defaultOptions)) (scanDuringBatch [.insert, .insert] []),
        s.batches ≠ [] ∧ s.readings.length ≠ 0 := by
    decide +kernel
  rcases Reached.of_evaluated evaluated with ⟨s, reached, written, read⟩
  refine ⟨s, reached, written, mt length_eq_zero_iff.mpr read, ?_⟩
  exact (batches_seen_whole (by simp [DB.InMemtables, DB.memtables, DB.fresh, DB.newMemtable])
    (by decide +kernel) reached).1

end Shared

end Theseon
