import Theseon.DB.Store

/-!
# Backpressure

A writer that finds too many immutable memtables waits for a flush.  The flush
worker sleeps until a rotation signals it over `flushCh`, then drains the immutable
memtables and wakes the writers after every one of them.

`Open` turns all write-ahead logs but the newest into immutable memtables and does
not signal.  With at most one log no writer is left waiting without a flush to
come; with more, the worker sleeps in front of a list that is not empty.
-/

namespace Theseon

open Std (ExtTreeMap)
open Lib KV SSTable Manifest List

/-- Where the goroutine of `flushLoop` is. -/
inductive FlushWorker where
  /-- In the `select` of `flushLoop`. -/
  | waiting
  /-- At the head of the loop of `flushImmutables`. -/
  | draining
  /-- In `flushMemtable`, up to the swap of the memtable for its table. -/
  | flushing (mt : Memtable)
  /-- Behind the swap, in front of `Broadcast`. -/
  | broadcasting
  /-- On its way out of `flushImmutables`. -/
  | returning

/-- Inside `flushImmutables`. -/
def FlushWorker.inside : FlushWorker → Prop
  | waiting => False
  | _ => True

/-- Inside `flushImmutables`, with the length of the list still to be read. -/
def FlushWorker.busy : FlushWorker → Prop
  | waiting | returning => False
  | _ => True

/-- The engine with its write-ahead log open or closed, the signal in `flushCh`, the
worker, and the number of writers that wait on `flushDone`. -/
structure WriteFlow where
  db : DB
  walOpen : Bool
  flushCh : Bool
  worker : FlushWorker
  parked : Nat

/-- What writers and the worker do. -/
inductive FlowAction where
  /-- A write that finds room.  If it rotates the memtable, `created` says whether
  the next write-ahead log can be created. -/
  | write (ops : List BatchOp) (created : Bool)
  /-- `waitForFlushSpace` finds no room. -/
  | park
  /-- The worker takes the signal. -/
  | receive
  /-- `flushImmutables` looks for the oldest memtable. -/
  | check
  /-- `flushMemtable` succeeds up to the swap. -/
  | swap
  /-- `flushMemtable` fails. -/
  | fail
  /-- `Broadcast`. -/
  | broadcast
  /-- `flushImmutables` returns. -/
  | leave
  deriving DecidableEq, Repr

/-- The action is one of the worker. -/
def FlowAction.ofWorker : FlowAction → Bool
  | write _ _ | park => false
  | _ => true

namespace WriteFlow

/-- The state behind `Open`. -/
def start (db : DB) : WriteFlow where
  db := db
  walOpen := true
  flushCh := false
  worker := .waiting
  parked := 0

/-- The condition of `waitForFlushSpace`, the other way round. -/
def HasRoom (opts : Options) (s : WriteFlow) : Prop :=
  s.db.immutables.length < opts.normalized.maxImmutableCount

instance (opts : Options) (s : WriteFlow) : Decidable (s.HasRoom opts) :=
  inferInstanceAs (Decidable ((s.db.immutables.length : Int) < opts.normalized.maxImmutableCount))

/-- `rotateMemtable`.  Without a new log it returns before the signal, with the
frozen memtable still active and its log closed. -/
def rotateMemtable (s : WriteFlow) (created : Bool) : WriteFlow :=
  if created then { s with db := s.db.rotateMemtable, flushCh := true }
  else
    { s with
      db :=
        { s.db with
          active := s.db.active.freeze
          immutables := s.db.active.freeze :: s.db.immutables
          nextMemID := addUint64 s.db.nextMemID 1 }
      walOpen := false }

/-- A write behind `waitForFlushSpace`.  It fails on a closed log. -/
def write (opts : Options) (s : WriteFlow) (ops : List BatchOp) (created : Bool) : WriteFlow :=
  if s.walOpen then
    let applied := { s with db := s.db.applyOps ops }
    if applied.db.full opts then applied.rotateMemtable created else applied
  else { s with db := { s.db with nextSeq := addUint64 s.db.nextSeq ops.length } }

def step (opts : Options) (s : WriteFlow) : FlowAction → Option WriteFlow
  | .write ops created => if s.HasRoom opts then some (s.write opts ops created) else none
  | .park => if s.HasRoom opts then none else some { s with parked := s.parked + 1 }
  | .receive =>
    match s.worker, s.flushCh with
    | .waiting, true => some { s with flushCh := false, worker := .draining }
    | _, _ => none
  | .check =>
    match s.worker, s.db.immutables.getLast? with
    | .draining, none => some { s with worker := .returning }
    | .draining, some mt => some { s with worker := .flushing mt }
    | _, _ => none
  | .swap =>
    match s.worker with
    | .flushing mt =>
      match flushTable opts mt with
      | .error _ => none
      | .ok table => some { s with db := s.db.installFlushed table, worker := .broadcasting }
    | _ => none
  | .fail =>
    match s.worker with
    | .flushing _ => some { s with worker := .returning }
    | _ => none
  | .broadcast =>
    match s.worker with
    | .broadcasting => some { s with worker := .draining, parked := 0 }
    | _ => none
  | .leave =>
    match s.worker with
    | .returning => some { s with worker := .waiting }
    | _ => none

/-- Every rotation gets its log and every flush succeeds. -/
def Succeeds (_ : WriteFlow) : FlowAction → Prop
  | .write _ created => created = true
  | .fail => False
  | _ => True

/-! ## A flush is coming -/

/-- The worker alone comes to the point where it wakes all writers. -/
def Wakes (opts : Options) (s : WriteFlow) : Prop :=
  ∃ actions next, (∀ action ∈ actions, FlowAction.ofWorker action = true) ∧
    run (step opts) s actions = some next ∧ next.parked = 0

/-- Memtables that wait to be flushed are known to the worker, and writers that wait
will be woken as long as the memtables can be flushed. -/
structure Served (opts : Options) (s : WriteFlow) : Prop where
  signalled : s.db.immutables ≠ [] → s.worker.inside ∨ s.flushCh = true
  woken : s.parked ≠ 0 → (∀ mt ∈ s.db.immutables, ∃ table, flushTable opts mt = .ok table) →
    s.Wakes opts

/-- What every step keeps. -/
structure Attended (s : WriteFlow) : Prop where
  known : s.db.immutables ≠ [] → s.worker.busy ∨ s.flushCh = true
  waitedFor : s.parked ≠ 0 → s.db.immutables ≠ [] ∨ s.worker = .broadcasting
  oldest : ∀ mt, s.worker = .flushing mt → s.db.immutables.getLast? = some mt

section

variable {opts : Options} {s next : WriteFlow}

theorem Wakes.of_step {action : FlowAction} (ofWorker : action.ofWorker = true)
    (stepped : s.step opts action = some next) (wakes : next.Wakes opts) : s.Wakes opts := by
  rcases wakes with ⟨actions, final, allWorker, ran, awake⟩
  refine ⟨action :: actions, final, forall_mem_cons.mpr ⟨ofWorker, allWorker⟩, ?_, awake⟩
  rw [run, stepped]
  exact ran

theorem wakes_of_broadcasting (stage : s.worker = .broadcasting) : s.Wakes opts := by
  have stepped : s.step opts .broadcast = some { s with worker := .draining, parked := 0 } := by
    rw [step, stage]
  exact Wakes.of_step rfl stepped ⟨[], _, forall_mem_nil _, rfl, rfl⟩

theorem wakes_of_flushing {mt : Memtable} (stage : s.worker = .flushing mt) {table : Reader}
    (done : flushTable opts mt = .ok table) : s.Wakes opts := by
  have stepped : s.step opts .swap =
      some { s with db := s.db.installFlushed table, worker := .broadcasting } := by
    simp only [step, stage, done]
  exact Wakes.of_step rfl stepped (wakes_of_broadcasting rfl)

section

variable (flushable : ∀ mt ∈ s.db.immutables, ∃ table, flushTable opts mt = .ok table)
  (nonempty : s.db.immutables ≠ [])

include flushable nonempty

theorem wakes_of_draining (stage : s.worker = .draining) : s.Wakes opts := by
  have last := getLast?_eq_some_getLast nonempty
  have stepped : s.step opts .check =
      some { s with worker := .flushing (s.db.immutables.getLast nonempty) } := by
    simp only [step, stage, last]
  rcases flushable _ (getLast_mem nonempty) with ⟨table, done⟩
  exact Wakes.of_step rfl stepped (wakes_of_flushing rfl done)

theorem wakes_of_signal (stage : s.worker = .waiting) (signal : s.flushCh = true) :
    s.Wakes opts := by
  have stepped : s.step opts .receive = some { s with flushCh := false, worker := .draining } := by
    simp only [step, stage, signal]
  exact Wakes.of_step rfl stepped (wakes_of_draining flushable nonempty rfl)

theorem wakes_of_returning (stage : s.worker = .returning) (signal : s.flushCh = true) :
    s.Wakes opts := by
  have stepped : s.step opts .leave = some { s with worker := .waiting } := by
    rw [step, stage]
  exact Wakes.of_step rfl stepped (wakes_of_signal flushable nonempty rfl signal)

end

theorem Attended.served (attended : s.Attended) : s.Served opts := by
  constructor
  · intro nonempty
    rcases attended.known nonempty with busy | signal
    · left
      cases stage : s.worker with
      | waiting =>
        rw [stage] at busy
        exact busy.elim
      | draining | flushing | broadcasting | returning => trivial
    · exact .inr signal
  · intro parked flushable
    rcases attended.waitedFor parked with nonempty | stage
    · have known := attended.known nonempty
      cases stage : s.worker with
      | waiting =>
        rw [stage] at known
        exact wakes_of_signal flushable nonempty stage (known.resolve_left id)
      | draining => exact wakes_of_draining flushable nonempty stage
      | flushing mt =>
        rcases flushable mt (mem_of_getLast? (attended.oldest mt stage)) with ⟨table, done⟩
        exact wakes_of_flushing stage done
      | broadcasting => exact wakes_of_broadcasting stage
      | returning =>
        rw [stage] at known
        exact wakes_of_returning flushable nonempty stage (known.resolve_left id)
    · exact wakes_of_broadcasting stage

/-! ## Every step keeps the worker informed -/

theorem Attended.write (attended : s.Attended) (ops : List BatchOp) :
    (s.write opts ops true).Attended := by
  have unchanged : (s.db.applyOps ops).immutables = s.db.immutables := by
    rw [DB.applyOps_eq]
  rw [WriteFlow.write]
  split
  · simp only
    split
    · constructor
      · exact fun _ => .inr rfl
      · exact fun _ => .inl (cons_ne_nil _ _)
      · intro mt stage
        have last := attended.oldest mt stage
        change ((s.db.applyOps ops).active.freeze :: (s.db.applyOps ops).immutables).getLast? = _
        rw [unchanged, getLast?_cons, last]
        rfl
    · exact ⟨by rw [unchanged]; exact attended.known, by rw [unchanged]; exact attended.waitedFor,
        by rw [unchanged]; exact attended.oldest⟩
  · exact ⟨attended.known, attended.waitedFor, attended.oldest⟩

theorem Attended.step (attended : s.Attended)
    {action : FlowAction} (ok : s.Succeeds action) (stepped : s.step opts action = some next) :
    next.Attended := by
  cases action with
  | write ops created =>
    cases ok
    rw [WriteFlow.step] at stepped
    split at stepped
    · cases stepped
      exact attended.write ops
    · cases stepped
  | park =>
    rw [WriteFlow.step] at stepped
    split at stepped
    · cases stepped
    rename_i full
    cases stepped
    refine ⟨attended.known, fun _ => .inl ?_, attended.oldest⟩
    intro empty
    rw [HasRoom, empty] at full
    exact full opts.normalized_positive
  | receive =>
    rw [WriteFlow.step] at stepped
    split at stepped
    · cases stepped
      rename_i stage _
      refine ⟨fun _ => .inl trivial, fun parked => .inl ?_, fun _ flushing => nomatch flushing⟩
      exact (attended.waitedFor parked).resolve_right (by rw [stage]; exact nofun)
    · cases stepped
  | check =>
    rw [WriteFlow.step] at stepped
    split at stepped
    · cases stepped
      rename_i stage empty
      have noMemtable : s.db.immutables = [] := getLast?_eq_none_iff.mp empty
      have nobody : ∀ parked : s.parked ≠ 0, False := by
        intro parked
        rcases attended.waitedFor parked with nonempty | other
        · exact nonempty noMemtable
        · rw [stage] at other
          cases other
      exact ⟨fun nonempty => absurd noMemtable nonempty, fun parked => (nobody parked).elim,
        fun _ flushing => nomatch flushing⟩
    · cases stepped
      rename_i stage found
      have nonempty : s.db.immutables ≠ [] := by
        intro empty
        rw [empty] at found
        cases found
      refine ⟨fun _ => .inl trivial, fun _ => .inl nonempty, ?_⟩
      rintro mt ⟨⟩
      exact found
    · cases stepped
  | swap =>
    rw [WriteFlow.step] at stepped
    split at stepped
    · split at stepped
      · cases stepped
      · cases stepped
        exact ⟨fun _ => .inl trivial, fun _ => .inr rfl, fun _ flushing => nomatch flushing⟩
    · cases stepped
  | fail => exact ok.elim
  | broadcast =>
    rw [WriteFlow.step] at stepped
    split at stepped
    · cases stepped
      exact ⟨fun _ => .inl trivial, fun parked => absurd rfl parked,
        fun _ flushing => nomatch flushing⟩
    · cases stepped
  | leave =>
    rw [WriteFlow.step] at stepped
    split at stepped
    · cases stepped
      rename_i stage
      refine ⟨?_, ?_, fun _ flushing => nomatch flushing⟩
      · intro nonempty
        have known := attended.known nonempty
        rw [stage] at known
        exact .inr (known.resolve_left id)
      · intro parked
        exact .inl ((attended.waitedFor parked).resolve_right (by rw [stage]; exact nofun))
    · cases stepped

end

/-- All logs but the newest become immutable memtables. -/
theorem length_immutables_of_openDB {opts : Options} {sorter : Sorter SSTableInfo.firstKey}
    {disk next : Disk} {db : DB} (opened : openDB opts sorter disk = .ok (db, next)) :
    db.immutables.length = disk.wals.size - 1 := by
  rcases openDB_eq_ok opened with ⟨recovered, _, _, logs, _, fresh | replayed⟩
  all_goals
    have count := congrArg List.length (Disk.recoverDir_ids logs)
    rw [length_map, ExtTreeMap.length_keys] at count
  · rcases fresh with ⟨rfl, memtables, _⟩
    have none : db.immutables = [] := (cons.inj memtables).2
    rw [none, ← count]
    rfl
  · rcases replayed with ⟨init, last, rfl, _, immutables, _⟩
    rw [immutables, ← count]
    simp

/-- No writer is stuck, in whatever order writers and the worker take their steps,
exactly when `Open` finds at most one write-ahead log. -/
theorem no_stuck_writers_iff {opts : Options} {sorter : Sorter SSTableInfo.firstKey}
    {disk next : Disk} {db : DB} (opened : openDB opts sorter disk = .ok (db, next)) :
    (∀ s, Reached (step opts) Succeeds (start db) s → s.Served opts) ↔ disk.wals.size ≤ 1 := by
  have count := length_immutables_of_openDB opened
  constructor
  · intro served
    by_contra many
    have nonempty : db.immutables ≠ [] := by
      intro empty
      rw [empty] at count
      simp only [length_nil] at count
      omega
    rcases (served _ .start).signalled nonempty with inside | signal
    · exact inside
    · cases signal
  · intro few s reached
    have empty : db.immutables = [] := eq_nil_of_length_eq_zero (by omega)
    apply Attended.served
    apply reached.invariant Attended
    · exact ⟨fun nonempty => absurd empty nonempty, fun parked => absurd rfl parked,
        fun _ flushing => nomatch flushing⟩
    · exact fun attended ok stepped => attended.step ok stepped

/-! ## The number of immutable memtables -/

/-- A step adds one immutable memtable at most, and only where it finds room. -/
theorem length_immutables_step {opts : Options} {s next : WriteFlow} {action : FlowAction}
    (stepped : s.step opts action = some next) :
    next.db.immutables.length ≤ s.db.immutables.length ∨
      s.HasRoom opts ∧ next.db.immutables.length = s.db.immutables.length + 1 := by
  cases action with
  | write ops created =>
    have unchanged : (s.db.applyOps ops).immutables = s.db.immutables := by
      rw [DB.applyOps_eq]
    rw [WriteFlow.step] at stepped
    split at stepped
    · rename_i room
      cases stepped
      rw [WriteFlow.write]
      split
      · dsimp only
        split
        · refine .inr ⟨room, ?_⟩
          rw [rotateMemtable]
          split <;> simp [DB.rotateMemtable, DB.newMemtable, unchanged]
        · exact .inl (congrArg length unchanged).le
      · exact .inl le_rfl
    · cases stepped
  | swap =>
    rw [WriteFlow.step] at stepped
    split at stepped
    · split at stepped <;> cases stepped
      simp [DB.installFlushed]
    · cases stepped
  | park | receive | check | fail | broadcast | leave =>
    rw [WriteFlow.step] at stepped
    split at stepped <;> cases stepped <;> exact .inl le_rfl

/-- The limit is kept, also where flushes or rotations fail, unless `Open` has found
more logs. -/
theorem immutables_bounded {opts : Options} {sorter : Sorter SSTableInfo.firstKey}
    {disk next : Disk} {db : DB} (opened : openDB opts sorter disk = .ok (db, next)) {s : WriteFlow}
    (reached : Reached (step opts) (fun _ _ => True) (start db) s) :
    s.db.immutables.length ≤ max (disk.wals.size - 1) opts.normalized.maxImmutableCount.toNat := by
  rw [← length_immutables_of_openDB opened]
  apply reached.invariant fun s =>
    s.db.immutables.length ≤ max _ opts.normalized.maxImmutableCount.toNat
  · exact le_max_left _ _
  intro s next action within _ stepped
  have grown := length_immutables_step stepped
  unfold HasRoom at grown
  omega

/-! ## Two logs -/

/-- Every write fills its memtable, and one immutable memtable is the limit. -/
def tightOptions : Options :=
  { defaultOptions with memtableSize := 1, maxImmutableCount := 1 }

/-- A write whose memtable is rotated and not flushed before the crash. -/
def crashBeforeFlush : List StoreAction :=
  [.reopen (.insertion _), .begin [.put [97] (some [49])], .append, .rotate, .crash]

/-- The worker sleeps and a writer finds no room. -/
structure Stuck (s : WriteFlow) : Prop where
  asleep : s.worker = .waiting
  silent : s.flushCh = false
  full : s.db.immutables.length = 1

theorem Stuck.noRoom {s : WriteFlow} (stuck : s.Stuck) : ¬ s.HasRoom tightOptions := by
  rw [HasRoom, stuck.full]
  decide

theorem Stuck.step {s next : WriteFlow} (stuck : s.Stuck) {action : FlowAction}
    (stepped : s.step tightOptions action = some next) : next.Stuck := by
  cases action with
  | write ops created =>
    rw [WriteFlow.step, if_neg stuck.noRoom] at stepped
    cases stepped
  | park =>
    rw [WriteFlow.step, if_neg stuck.noRoom] at stepped
    cases stepped
    exact ⟨stuck.asleep, stuck.silent, stuck.full⟩
  | receive =>
    simp only [WriteFlow.step, stuck.asleep, stuck.silent] at stepped
    cases stepped
  | check | swap | fail | broadcast | leave =>
    simp only [WriteFlow.step, stuck.asleep] at stepped
    cases stepped

/-- The crash leaves two logs.  After `Open` the worker is never woken and no write
gets through. -/
theorem two_logs_stuck :
    ∃ crashed db next,
      run (Store.step tightOptions) Store.init crashBeforeFlush = some crashed ∧
      crashed.disk.wals.size = 2 ∧
      openDB tightOptions (.insertion _) crashed.disk = .ok (db, next) ∧
      ∀ s, Reached (step tightOptions) Succeeds (start db) s →
        s.db.immutables ≠ [] ∧ ¬ s.worker.inside ∧ s.flushCh = false ∧
          ∀ ops created, s.step tightOptions (.write ops created) = none := by
  have evaluated : ∃ crashed ∈ run (Store.step tightOptions) Store.init crashBeforeFlush,
      crashed.disk.wals.size = 2 ∧
        ∃ opened ∈ (openDB tightOptions (.insertion _) crashed.disk).toOption,
          opened.1.immutables.length = 1 := by
    decide +kernel
  rcases evaluated with ⟨crashed, ran, logs, ⟨db, next⟩, opened, length⟩
  refine ⟨crashed, db, next, ran, logs, eq_ok_of_toOption opened, ?_⟩
  intro s reached
  have stuck : s.Stuck :=
    reached.invariant Stuck ⟨rfl, rfl, length⟩ fun stuck _ stepped => stuck.step stepped
  refine ⟨?_, ?_, stuck.silent, ?_⟩
  · exact ne_nil_of_length_pos (by rw [stuck.full]; exact Nat.one_pos)
  · rw [stuck.asleep]
    exact id
  · exact fun ops created => if_neg stuck.noRoom

/-- In an empty directory no writer is stuck. -/
theorem empty_directory_served :
    ∃ db next, openDB tightOptions (.insertion _) Disk.empty = .ok (db, next) ∧
      ∀ s, Reached (step tightOptions) Succeeds (start db) s → s.Served tightOptions := by
  have succeeds : ∃ db next, openDB tightOptions (.insertion _) Disk.empty = .ok (db, next) :=
    ⟨_, _, rfl⟩
  rcases succeeds with ⟨db, next, opened⟩
  exact ⟨db, next, opened, (no_stuck_writers_iff opened).mpr (by decide)⟩

theorem one_write_bounded :
    ∃ db next s, openDB tightOptions (.insertion _) Disk.empty = .ok (db, next) ∧
      run (step tightOptions) (start db) [.write [.put [97] (some [49])] true] = some s ∧
      s.db.immutables.length ≤ 1 := by
  have evaluated : ∃ opened ∈ (openDB tightOptions (.insertion _) Disk.empty).toOption,
      (run (step tightOptions) (start opened.1) [.write [.put [97] (some [49])] true]).isSome := by
    decide +kernel
  rcases evaluated with ⟨⟨db, next⟩, opened, isSome⟩
  rcases Option.isSome_iff_exists.mp isSome with ⟨s, ran⟩
  have opened := eq_ok_of_toOption opened
  exact ⟨db, next, s, opened, ran, immutables_bounded opened (Reached.start.run ran)⟩

end WriteFlow

end Theseon
