import Mathlib.Data.List.Flatten
import Theseon.Lib.RecordLog
import Theseon.WAL.Encoding

/-!
# Recovery of a write-ahead log

`Recover` reads records from the front of the file and takes a record that is
too short or fails its checksum for a torn tail.  The file is then opened for
appending behind that tail, so the records written later are only read back if
there is no torn tail in front of them.
-/

namespace Theseon.WAL

open Lib KV List

/-- The errors that `Recover` takes for a torn tail. -/
def DecodeError.isTail : DecodeError → Bool
  | .corrupt => true
  | .short => true
  | .invalidFlag => false
  | .outOfRange => false

/-- The records of the write-ahead log. -/
def codec : Codec (List Entry) DecodeError where
  encode := encodeRecord
  decode := decodeRecord
  isTail := DecodeError.isTail

/-- `Recover`, on the content of the file. -/
def recover (data : Bytes) : Except DecodeError (List Entry) :=
  codec.replay (fun entries record => entries ++ record) data.length data []

theorem codec_encode : codec.encode = encodeRecord :=
  rfl

theorem codec_decode : codec.decode = decodeRecord :=
  rfl

theorem codec_lawful : codec.Lawful Fits (List.map Entry.readBack) := by
  constructor
  · intro entries
    exact frame_ne_nil _
  · intro entries fits rest
    rw [codec_encode, codec_decode, decodeRecord_encodeRecord fits]
  · intro entries fits data isPrefix proper
    rw [codec_encode] at isPrefix proper
    rw [codec_decode, decodeRecord_cut fits isPrefix proper]
    exact ⟨.short, rfl, rfl⟩

theorem foldl_append_flatten (records : List (List Entry)) (entries : List Entry) :
    records.foldl (fun entries record => entries ++ record) entries =
      entries ++ records.flatten := by
  induction records generalizing entries with
  | nil => simp
  | cons record rest ih => rw [foldl_cons, ih, flatten_cons, append_assoc]

/-- Recovery returns the entries of the completely written records, if nothing
was written behind a torn one. -/
theorem recover_logFile {attempts : List (Attempt (List Entry))}
    (fits : ∀ attempt ∈ attempts, Fits attempt.record)
    (clean : NothingAfterTear codec attempts) :
    recover (logFile codec attempts) =
      .ok ((survivors codec attempts).flatten.map Entry.readBack) := by
  rw [recover, codec_lawful.replay_logFile _ fits clean (le_refl _), foldl_append_flatten,
    nil_append, map_flatten]

/-- Recovery of a file that is cut after `n` bytes returns the entries of the records
that lie wholly within them. -/
theorem recover_take {records : List (List Entry)} (fits : ∀ record ∈ records, Fits record)
    (n : Nat) :
    recover ((records.flatMap encodeRecord).take n) =
      .ok ((recordsWithin codec records n).flatten.map Entry.readBack) := by
  have replayed := codec_lawful.replay_take (fun entries record => entries ++ record) fits
    (le_refl ((records.flatMap encodeRecord).take n).length) []
  rw [foldl_append_flatten, nil_append, ← map_flatten] at replayed
  exact replayed

/-- A file of completely written records is read back. -/
theorem recover_records {records : List (List Entry)} (fits : ∀ record ∈ records, Fits record) :
    recover (records.flatMap encodeRecord) = .ok (records.flatten.map Entry.readBack) := by
  have all : recordsWithin codec records (records.flatMap encodeRecord).length = records :=
    recordsWithin_of_length_le (le_refl _)
  have recovered := recover_take fits (records.flatMap encodeRecord).length
  rwa [take_length, all] at recovered

/-! ## Runs with interrupted writes -/

/-- What happens to one log file. -/
inductive Event where
  /-- `WriteEntries` returns nil. -/
  | write (entries : List Entry)
  /-- `WriteEntries` fails, or the process crashes in it, after `reached` bytes of
  its record have got into the file. -/
  | interrupt (entries : List Entry) (reached : Nat)
  /-- The file is recovered and opened again for appending. -/
  | reopen
  deriving DecidableEq, Repr

/-- The file after an event.  `Open` does not truncate. -/
def step (file : Bytes) : Event → Bytes
  | .write entries => file ++ encodeRecord entries
  | .interrupt entries reached => file ++ (encodeRecord entries).take reached
  | .reopen => file

/-- The file after a run that starts with `Create`. -/
def run (events : List Event) : Bytes :=
  events.foldl step []

/-- The records whose `WriteEntries` returned nil. -/
def acknowledged : List Event → List (List Entry)
  | [] => []
  | .write entries :: rest => entries :: acknowledged rest
  | .interrupt _ _ :: rest => acknowledged rest
  | .reopen :: rest => acknowledged rest

/-- The writes of a run. -/
def attempts : List Event → List (Attempt (List Entry))
  | [] => []
  | .write entries :: rest => .whole codec entries :: attempts rest
  | .interrupt entries reached :: rest => ⟨entries, reached⟩ :: attempts rest
  | .reopen :: rest => attempts rest

theorem foldl_step (events : List Event) (file : Bytes) :
    events.foldl step file = file ++ logFile codec (attempts events) := by
  induction events generalizing file with
  | nil => simp [attempts, logFile]
  | cons event rest ih =>
    rw [foldl_cons, ih]
    cases event with
    | write entries =>
      have written : (Attempt.whole codec entries).written codec = codec.encode entries :=
        Attempt.written_of_complete (Attempt.whole_complete entries)
      rw [step, attempts, append_assoc]
      simp only [logFile, flatMap_cons, written]
      rfl
    | interrupt entries reached =>
      rw [step, attempts, append_assoc]
      rfl
    | reopen => rfl

/-- The file of a run holds what its writes left there. -/
theorem run_eq (events : List Event) : run events = logFile codec (attempts events) := by
  rw [run, foldl_step, nil_append]

/-- Acknowledged records were completely written. -/
theorem acknowledged_sublist (events : List Event) :
    (acknowledged events).Sublist (survivors codec (attempts events)) := by
  induction events with
  | nil => exact List.Sublist.refl _
  | cons event rest ih =>
    cases event with
    | write entries =>
      rw [acknowledged, attempts, survivors_cons_of_complete (Attempt.whole_complete entries)]
      exact ih.cons_cons entries
    | interrupt entries reached =>
      rw [acknowledged, attempts]
      by_cases complete : Attempt.Complete codec ⟨entries, reached⟩
      · rw [survivors_cons_of_complete complete]
        exact ih.cons _
      · rw [survivors_cons_of_not_complete complete]
        exact ih
    | reopen => exact ih

/-- Recovery of the file returns the entries of all acknowledged records, in
order. -/
def KeepsAcknowledged (events : List Event) : Prop :=
  ∃ recovered, recover (run events) = .ok recovered ∧
    ((acknowledged events).flatten.map Entry.readBack).Sublist recovered

/-- In every run in which all records are within the limits of the format and
nothing is written behind a torn record, recovery returns the entries of the
completely written records, and so all acknowledged ones. -/
theorem recover_keepsAcknowledged (events : List Event)
    (fits : ∀ attempt ∈ attempts events, Fits attempt.record)
    (clean : NothingAfterTear codec (attempts events)) :
    recover (run events) =
        .ok ((survivors codec (attempts events)).flatten.map Entry.readBack) ∧
      KeepsAcknowledged events := by
  have recovered := recover_logFile fits clean
  rw [← run_eq] at recovered
  constructor
  · exact recovered
  · exact ⟨_, recovered, ((acknowledged_sublist events).flatten).map _⟩

/-- `WriteEntries` is interrupted after one byte; the log is recovered and opened
again, and a second write is acknowledged. -/
def tornThenWrite : List Event :=
  [.interrupt [⟨1, [97], .new (some [49])⟩] 1, .reopen, .write [⟨2, [98], .new (some [50])⟩]]

/-- The acknowledged write behind the torn byte is lost. -/
theorem tornThenWrite_loses_acknowledged :
    recover (run tornThenWrite) = .ok [] ∧
      acknowledged tornThenWrite = [[⟨2, [98], .new (some [50])⟩]] ∧
      ¬ KeepsAcknowledged tornThenWrite := by
  have lost : recover (run tornThenWrite) = .ok [] := by
    decide +kernel
  refine ⟨lost, rfl, ?_⟩
  rintro ⟨recovered, found, kept⟩
  rw [lost] at found
  cases found
  have count := kept.length_le
  simp [tornThenWrite, acknowledged] at count

/-- The same interruption at the end of the run is harmless. -/
theorem recover_keepsAcknowledged_tornTail :
    KeepsAcknowledged [.write [⟨1, [97], .new (some [49])⟩], .reopen,
      .interrupt [⟨2, [98], .new (some [50])⟩] 1, .reopen] := by
  apply (recover_keepsAcknowledged _ ?_ ?_).2
  · intro attempt mem
    constructor
    · revert attempt
      decide +kernel
    · intro entry entryMem
      constructor <;> revert entry attempt <;> decide +kernel
    · revert attempt
      decide +kernel
  · decide +kernel

end Theseon.WAL
