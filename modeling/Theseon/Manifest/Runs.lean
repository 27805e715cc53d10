import Mathlib.Data.List.Sublists
import Theseon.Manifest.Manifest

/-!
# Manifests under crashes

A run of calls in which any call may be cut by a crash after any number of
bytes, after which the manifest is opened again: it is replayed up to the torn
tail and appended to behind it.

As long as nothing is appended behind a torn record, the manifest holds exactly
the effects of a sequence of calls that contains every call that returned nil.
-/

namespace Theseon.Manifest

open Lib KV List

/-- What happens to a manifest. -/
inductive Event where
  /-- The call returns nil. -/
  | call (c : Call)
  /-- The process crashes in the call when `reached` bytes of it are in the file,
  and the manifest is opened again. -/
  | crash (c : Call) (reached : Nat)
  /-- The process crashes between calls, and the manifest is opened again. -/
  | reopen
  deriving DecidableEq, Repr

/-- A manifest with its file, and the record of what was written to it. -/
structure Machine where
  manifest : Manifest
  file : Bytes
  attempts : List (Attempt Record)

namespace Machine

/-- The manifest file before `Create` writes its first record. -/
def start : Machine :=
  ⟨⟨.empty, 0⟩, [], []⟩

/-- The manifest is opened from what is in the file. -/
def reopen (m : Machine) : Except DecodeError Machine :=
  (openFile m.file).map fun manifest => { m with manifest := manifest }

/-- The machine with the bytes of a call in the file. -/
def append (order : MapOrder) (m : Machine) (c : Call) (reached : Nat) : Machine :=
  { m with
    file := m.file ++ ((m.manifest.records order c).flatMap encodeRecord).take reached
    attempts := m.attempts ++ cutAttempts codec (m.manifest.records order c) reached }

/-- The number of bytes that a call writes. -/
def callSize (order : MapOrder) (m : Machine) (c : Call) : Nat :=
  ((m.manifest.records order c).flatMap encodeRecord).length

/-- One event. -/
def step (order : MapOrder) (m : Machine) : Event → Except DecodeError Machine
  | .call c =>
    .ok { m.append order c (m.callSize order c) with manifest := m.manifest.perform c }
  | .crash c reached => (m.append order c reached).reopen
  | .reopen => m.reopen

/-- A run, which ends when the manifest cannot be opened. -/
def run (order : MapOrder) : Machine → List Event → Except DecodeError Machine
  | m, [] => .ok m
  | m, event :: rest =>
    match m.step order event with
    | .error err => .error err
    | .ok next => run order next rest

end Machine

/-- `Create`: the first record of a new manifest. -/
def create (nextMemID nextSeq : Nat) : Event :=
  .call (.updateNextIDs nextMemID nextSeq)

/-- The calls that returned nil. -/
def acknowledged : List Event → List Call
  | [] => []
  | .call c :: rest => c :: acknowledged rest
  | .crash _ _ :: rest => acknowledged rest
  | .reopen :: rest => acknowledged rest

/-- All calls of a run. -/
def calls : List Event → List Call
  | [] => []
  | .call c :: rest => c :: calls rest
  | .crash c _ :: rest => c :: calls rest
  | .reopen :: rest => calls rest

/-- The contents of a manifest after a sequence of calls. -/
def contentsAfter (done : List Call) : ManifestContents :=
  done.foldl update .empty

theorem contentsAfter_concat (done : List Call) (c : Call) :
    contentsAfter (done ++ [c]) = update (contentsAfter done) c := by
  simp [contentsAfter]

theorem contentsAfter_named (done : List Call) : (contentsAfter done).Named := by
  induction done using List.reverseRecOn with
  | nil => exact ManifestContents.empty_named
  | append_singleton done c ih =>
    rw [contentsAfter_concat]
    exact named_update ih c

/-! ## Every step keeps file and memory together -/

/-- The file holds what was written to it, and both the memory and the
completely written records have the effects of the same calls. -/
structure Machine.Holds (m : Machine) (done : List Call) : Prop where
  file : m.file = logFile codec m.attempts
  memory : m.manifest.toManifestContents = contentsAfter done
  disk : (survivors codec m.attempts).foldl ManifestContents.applyRecord .empty =
    contentsAfter done

/-- All records that were written are within the limits, and none was written
behind a torn one. -/
structure Machine.Clean (m : Machine) : Prop where
  fits : ∀ attempt ∈ m.attempts, attempt.record.Fits
  tears : NothingAfterTear codec m.attempts

instance (m : Machine) : Decidable m.Clean :=
  decidable_of_iff ((∀ attempt ∈ m.attempts, attempt.record.Fits) ∧
      NothingAfterTear codec m.attempts)
    ⟨fun clean => ⟨clean.1, clean.2⟩, fun clean => ⟨clean.fits, clean.tears⟩⟩

theorem Machine.Clean.of_attempts {m next : Machine} (clean : next.Clean)
    (earlier : m.attempts <+: next.attempts) : m.Clean := by
  constructor
  · intro attempt mem
    exact clean.fits attempt (earlier.subset mem)
  · exact List.Pairwise.sublist earlier.sublist clean.tears

theorem Machine.Clean.fits_of_survivor {m : Machine} (clean : m.Clean) {record : Record}
    (mem : record ∈ survivors codec m.attempts) : record.Fits := by
  rcases mem_map.mp mem with ⟨attempt, kept, rfl⟩
  exact clean.fits attempt (mem_filter.mp kept).1

theorem start_holds : Machine.start.Holds [] := by
  constructor <;> rfl

section

variable {order : MapOrder} {m next : Machine} {done : List Call}

theorem Machine.Holds.named (holds : m.Holds done) : m.manifest.toManifestContents.Named := by
  rw [holds.memory]
  exact contentsAfter_named done

/-- Opening the file of a clean run gives what its records say. -/
theorem Machine.Clean.openFile_eq (clean : m.Clean) (file : m.file = logFile codec m.attempts) :
    openFile m.file =
      .ok ⟨(survivors codec m.attempts).foldl ManifestContents.applyRecord .empty, 0⟩ := by
  rw [openFile, file, codec_lawful.replay_logFile _ clean.fits clean.tears (le_refl _), map_id]
  rfl

theorem Machine.reopen_attempts (opened : m.reopen = .ok next) : next.attempts = m.attempts := by
  rcases map_eq_ok.mp opened with ⟨manifest, _, rfl⟩
  rfl

/-- Opening takes the memory from the file. -/
theorem Machine.reopen_holds (opened : m.reopen = .ok next) (clean : next.Clean)
    (file : m.file = logFile codec m.attempts)
    (disk : (survivors codec m.attempts).foldl ManifestContents.applyRecord .empty =
      contentsAfter done) : next.Holds done := by
  have before : m.Clean := clean.of_attempts (by rw [reopen_attempts opened])
  rw [Machine.reopen, before.openFile_eq file] at opened
  cases opened
  constructor
  · exact file
  · exact disk
  · exact disk

theorem Machine.Holds.append_file (holds : m.Holds done) (c : Call) (reached : Nat) :
    (m.append order c reached).file = logFile codec (m.append order c reached).attempts := by
  rw [Machine.append, logFile_append, logFile_cutAttempts, holds.file]
  rfl

/-- After the first records of a call the file has the effect of the call, or
that of none. -/
theorem Machine.Holds.disk_append (holds : m.Holds done) {c : Call} {reached n : Nat}
    (kept : survivors codec (cutAttempts codec (m.manifest.records order c) reached) =
      (m.manifest.records order c).take n) :
    (survivors codec (m.append order c reached).attempts).foldl
        ManifestContents.applyRecord .empty =
      contentsAfter (done ++ if n = 0 then [] else [c]) := by
  rw [Machine.append, survivors_append, kept, foldl_append, holds.disk, ← holds.memory,
    foldl_take_records order holds.named, holds.memory]
  split
  · rw [append_nil]
  · rw [contentsAfter_concat]

theorem Machine.Holds.call (holds : m.Holds done) (c : Call) :
    ({ m.append order c (m.callSize order c) with
      manifest := m.manifest.perform c } : Machine).Holds (done ++ [c]) := by
  have kept : survivors codec (cutAttempts codec (m.manifest.records order c)
      (m.callSize order c)) =
        (m.manifest.records order c).take (m.manifest.records order c).length := by
    rw [take_length]
    exact survivors_cutAttempts_of_le (le_refl _)
  have disk := holds.disk_append kept
  rw [if_neg (by simp [Manifest.records])] at disk
  constructor
  · exact holds.append_file c _
  · rw [perform_contents, contentsAfter_concat, holds.memory]
  · exact disk

theorem Machine.Holds.crash (holds : m.Holds done) {c : Call} {reached : Nat}
    (opened : (m.append order c reached).reopen = .ok next) (clean : next.Clean) :
    ∃ more, (more = [] ∨ more = [c]) ∧ next.Holds (done ++ more) := by
  have cut : ∃ n, survivors codec (cutAttempts codec (m.manifest.records order c) reached) =
      (m.manifest.records order c).take n :=
    survivors_cutAttempts _ _
  rcases cut with ⟨n, kept⟩
  have holdsNext := Machine.reopen_holds opened clean (holds.append_file c reached)
    (holds.disk_append kept)
  by_cases unwritten : n = 0
  · rw [if_pos unwritten] at holdsNext
    exact ⟨[], .inl rfl, holdsNext⟩
  · rw [if_neg unwritten] at holdsNext
    exact ⟨[c], .inr rfl, holdsNext⟩

/-- One event adds the call it acknowledges, and of a call that is cut possibly
the effect. -/
theorem Machine.Holds.step (holds : m.Holds done) {event : Event}
    (stepped : m.step order event = .ok next) (clean : next.Clean) :
    ∃ more, (acknowledged [event]).Sublist more ∧ more.Sublist (calls [event]) ∧
      next.Holds (done ++ more) := by
  cases event with
  | call c =>
    cases stepped
    exact ⟨[c], List.Sublist.refl _, List.Sublist.refl _, holds.call c⟩
  | crash c reached =>
    rcases holds.crash stepped clean with ⟨more, rfl | rfl, holdsNext⟩
    · exact ⟨[], List.Sublist.refl _, nil_sublist _, holdsNext⟩
    · exact ⟨[c], nil_sublist _, List.Sublist.refl _, holdsNext⟩
  | reopen =>
    refine ⟨[], List.Sublist.refl _, List.Sublist.refl _, ?_⟩
    rw [append_nil]
    exact Machine.reopen_holds stepped clean holds.file holds.disk

/-! ## Every run does -/

theorem Machine.step_attempts {event : Event} (stepped : m.step order event = .ok next) :
    m.attempts <+: next.attempts := by
  cases event with
  | call c =>
    cases stepped
    exact prefix_append _ _
  | crash c reached =>
    rw [Machine.reopen_attempts stepped]
    exact prefix_append _ _
  | reopen => rw [Machine.reopen_attempts stepped]

theorem Machine.run_attempts {events : List Event} (ran : m.run order events = .ok next) :
    m.attempts <+: next.attempts := by
  induction events generalizing m with
  | nil =>
    cases ran
    exact prefix_rfl
  | cons event rest ih =>
    rw [Machine.run] at ran
    split at ran
    · cases ran
    · rename_i middle stepped
      exact (step_attempts stepped).trans (ih ran)

theorem acknowledged_append (first second : List Event) :
    acknowledged (first ++ second) = acknowledged first ++ acknowledged second := by
  induction first with
  | nil => rfl
  | cons event rest ih => cases event <;> simp [acknowledged, ih]

theorem calls_append (first second : List Event) :
    calls (first ++ second) = calls first ++ calls second := by
  induction first with
  | nil => rfl
  | cons event rest ih => cases event <;> simp [calls, ih]

theorem Machine.Holds.run (holds : m.Holds done) {events : List Event}
    (ran : m.run order events = .ok next) (clean : next.Clean) :
    ∃ more, (acknowledged events).Sublist more ∧ more.Sublist (calls events) ∧
      next.Holds (done ++ more) := by
  induction events generalizing m done with
  | nil =>
    cases ran
    refine ⟨[], List.Sublist.refl _, List.Sublist.refl _, ?_⟩
    rw [append_nil]
    exact holds
  | cons event rest ih =>
    rw [Machine.run] at ran
    split at ran
    · cases ran
    rename_i middle stepped
    have middleClean := clean.of_attempts (run_attempts ran)
    rcases holds.step stepped middleClean with ⟨first, ackFirst, callsFirst, holdsMiddle⟩
    rcases ih holdsMiddle ran with ⟨more, ackMore, callsMore, holdsNext⟩
    refine ⟨first ++ more, ?_, ?_, ?_⟩
    · rw [← singleton_append, acknowledged_append]
      exact ackFirst.append ackMore
    · rw [← singleton_append, calls_append]
      exact callsFirst.append callsMore
    · rw [← append_assoc]
      exact holdsNext

end

/-- Opening the file returns the state in which all calls that returned nil have
taken effect, and of the others at most calls that were cut by a crash. -/
def KeepsAcknowledged (sorter : Sorter SSTableInfo.firstKey) (events : List Event)
    (file : Bytes) : Prop :=
  ∃ done, (acknowledged events).Sublist done ∧ done.Sublist (calls events) ∧
    openState sorter file = .ok (some (stateOf sorter (contentsAfter done)))

/-- In every run whose records are within the limits of the format and in which
nothing is appended behind a torn record, opening the manifest returns the state
with the effect of every call that returned nil. -/
theorem open_keepsAcknowledged (order : MapOrder) (sorter : Sorter SSTableInfo.firstKey)
    (events : List Event) (m : Machine) (ran : Machine.start.run order events = .ok m)
    (clean : m.Clean) : KeepsAcknowledged sorter events m.file := by
  rcases start_holds.run ran clean with ⟨done, acked, called, holds⟩
  rw [nil_append] at holds
  have fit : TablesFit (contentsAfter done) := by
    rw [← holds.disk]
    exact tablesFit_empty.foldl fun record mem => clean.fits_of_survivor mem
  refine ⟨done, acked, called, ?_⟩
  rw [openState, clean.openFile_eq holds.file, holds.disk, ← fit.buildState_eq]
  rfl

/-! ## A torn record -/

/-- Both maps are iterated by ascending key. -/
def ascendingOrder : MapOrder :=
  ⟨.identity _, .identity _⟩

/-- A table of L0. -/
def someTable (id : Nat) : SSTableInfo :=
  ⟨id, 0, [97, 0, 0, 0, 0, 0, 0, 0, 0], [98, 0, 0, 0, 0, 0, 0, 0, 0]⟩

/-- A crash leaves one byte of an `AddSSTable` behind; after `Open` the next
`AddSSTable` returns nil. -/
def tornThenAdd : List Event :=
  [create 0 0, .crash (.addSSTable (someTable 1)) 1, .call (.addSSTable (someTable 2))]

/-- The table that was added behind the torn byte is forgotten. -/
theorem tornThenAdd_forgets_table :
    ∃ m, Machine.start.run ascendingOrder tornThenAdd = .ok m ∧
      (openFile m.file).map (fun m => m.infos) = .ok [] ∧
      ¬ KeepsAcknowledged (.insertion _) tornThenAdd m.file := by
  have evaluated : (Machine.start.run ascendingOrder tornThenAdd).map
      (fun m => (openFile m.file).map fun m => m.infos) = .ok (.ok []) := by
    decide +kernel
  rcases map_eq_ok.mp evaluated with ⟨m, ran, infos⟩
  refine ⟨m, ran, infos, ?_⟩
  rintro ⟨done, acked, called, opened⟩
  -- the table is in the state after every choice of calls that took effect
  have present : ∀ done ∈ (calls tornThenAdd).sublists, (acknowledged tornThenAdd).Sublist done →
      (stateOf (.insertion _) (contentsAfter done)).l0 ≠ [] := by
    decide +kernel
  rcases map_eq_ok.mp infos with ⟨manifest, result, empty⟩
  have placed : Placed manifest.toManifestContents := by simp [placed_iff, empty]
  rw [openState, result, Except.map, buildState, if_pos placed] at opened
  apply present done (mem_sublists.mpr called) acked
  rw [← Option.some.inj (Except.ok.inj opened)]
  simp [stateOf, empty]

/-- The same crash at the end of the run is harmless. -/
theorem open_keepsAcknowledged_tornTail :
    ∃ m, Machine.start.run ascendingOrder
        [create 0 0, .call (.addSSTable (someTable 1)), .crash (.removeSSTable 1 0) 3] = .ok m ∧
      KeepsAcknowledged (.insertion _)
        [create 0 0, .call (.addSSTable (someTable 1)), .crash (.removeSSTable 1 0) 3] m.file := by
  have evaluated : (Machine.start.run ascendingOrder
      [create 0 0, .call (.addSSTable (someTable 1)), .crash (.removeSSTable 1 0) 3]).map
        (fun m => decide m.Clean) = .ok true := by
    decide +kernel
  rcases map_eq_ok.mp evaluated with ⟨m, ran, clean⟩
  exact ⟨m, ran, open_keepsAcknowledged _ _ _ m ran (of_decide_eq_true clean)⟩

end Theseon.Manifest
