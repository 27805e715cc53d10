import Theseon.Cluster.Replica
import Theseon.DB.KeyValue

/-!
# Last writer wins

The handlers of a replica write to an engine and read from it.  What they read is the
envelope that was delivered last, so the one with the greatest timestamp is returned
exactly if none that was delivered earlier is newer than the last one.

The keys are such that none is a prefix of another, and the steps of the engine are safe;
otherwise the engine itself may lose what was written.
-/

namespace Theseon.Cluster

open Lib HLC KV List

/-! ## A replica over the engine -/

/-- The handlers have written what passes their checks, in the order of delivery. -/
abbrev Wrote (e : Engine) (clock : Clock) (deliveries : List Delivery) : Prop :=
  e.history.map (fun entry => (entry.user, entry.value)) =
    (admitted clock deliveries).map fun p => (p.1, Value.new (some p.2))

/-- The engine of a replica that was empty. -/
structure Serves (opts : Options) (e : Engine) (clock : Clock) (deliveries : List Delivery) :
    Prop where
  plain : e.Plain opts
  wrote : Wrote e clock deliveries

/-- `Coordinator.localRead`. -/
def localRead (db : DB) (key : Bytes) : Except ReplicaError (Option Envelope) :=
  Replica.readEnvelope ((db.get key).map Value.bytes)

/-- `ReplicateRead`. -/
def replicateRead (db : DB) (key : Bytes) : Except ReplicaError (Option Envelope) :=
  if key = [] then .error .emptyKey else localRead db key

variable {opts : Options} {e : Engine} {clock : Clock} {deliveries : List Delivery}

/-- The engine returns the envelope that was delivered last. -/
theorem Serves.localRead_eq_getLast (serves : Serves opts e clock deliveries) (key : Bytes) :
    localRead e.db key = .ok (delivered clock deliveries key).getLast? := by
  have wrote := congrArg (fun pairs => ((pairs.filter fun pair => pair.1 = key).getLast?).map
    fun pair : Bytes × Value => pair.2.bytes) serves.wrote
  simp only [filter_map, getLast?_map, Option.map_map] at wrote
  rw [localRead, ← Replica.readEnvelope_admitted, serves.plain.get_eq_last, Option.map_map]
  exact congrArg Replica.readEnvelope wrote

/-! ## The newest envelope -/

/-- No envelope is newer than the last one. -/
def NewestLast (es : List Envelope) : Prop :=
  ∀ last ∈ es.getLast?, ∀ e ∈ es, e.timestamp ≤ last.timestamp

/-- The read returns one of the envelopes with the greatest timestamp. -/
def LastWriterWins (read : Except ReplicaError (Option Envelope)) (es : List Envelope) : Prop :=
  ∀ e ∈ es, ∃ env ∈ es, read = .ok (some env) ∧ e.timestamp ≤ env.timestamp

theorem lastWriterWins_iff_newestLast (es : List Envelope) :
    LastWriterWins (.ok es.getLast?) es ↔ NewestLast es := by
  constructor
  · intro wins last isLast e mem
    rcases wins e mem with ⟨env, _, read, newer⟩
    rw [Except.ok.inj read] at isLast
    cases isLast
    exact newer
  · intro newest e mem
    have nonempty : es ≠ [] := ne_nil_of_mem mem
    refine ⟨_, getLast_mem nonempty, by rw [getLast?_eq_some_getLast nonempty], ?_⟩
    exact newest _ (getLast?_eq_some_getLast nonempty) e mem

/-- Two replicas that were delivered the same envelopes, in whatever order, return
the same timestamp if neither was delivered an old envelope last. -/
theorem same_timestamp {clock' : Clock} {deliveries deliveries' : List Delivery} {key : Bytes}
    (same : ∀ e, e ∈ delivered clock deliveries key ↔ e ∈ delivered clock' deliveries' key)
    (newest : NewestLast (delivered clock deliveries key))
    (newest' : NewestLast (delivered clock' deliveries' key)) :
    (delivered clock deliveries key).getLast?.map Envelope.timestamp =
      (delivered clock' deliveries' key).getLast?.map Envelope.timestamp := by
  cases found : (delivered clock deliveries key).getLast? with
  | none =>
    have none' : delivered clock' deliveries' key = [] := by
      apply eq_nil_iff_forall_not_mem.mpr
      intro e mem
      rw [← same e, getLast?_eq_none_iff.mp found] at mem
      cases mem
    rw [none']
    rfl
  | some last =>
    have mem := mem_of_getLast? found
    cases found' : (delivered clock' deliveries' key).getLast? with
    | none =>
      rw [same last, getLast?_eq_none_iff.mp found'] at mem
      cases mem
    | some last' =>
      have mem' := mem_of_getLast? found'
      apply congrArg some
      apply le_antisymm
      · exact newest' last' found' last ((same last).mp mem)
      · exact newest last found last' ((same last').mpr mem')

/-- A replica returns the delivered envelope with the greatest timestamp exactly when
no envelope that was delivered earlier is newer than the last one.  Both ways of
reading agree, and replicas with the same envelopes then have the same timestamp. -/
theorem last_writer_wins_iff (serves : Serves opts e clock deliveries) (key : Bytes) :
    (LastWriterWins (localRead e.db key) (delivered clock deliveries key) ↔
        NewestLast (delivered clock deliveries key)) ∧
      (key ≠ [] → replicateRead e.db key = localRead e.db key) ∧
      ∀ {opts' e' clock' deliveries'}, Serves opts' e' clock' deliveries' →
        (∀ env, env ∈ delivered clock deliveries key ↔ env ∈ delivered clock' deliveries' key) →
          NewestLast (delivered clock deliveries key) →
            NewestLast (delivered clock' deliveries' key) →
              (localRead e.db key).map (Option.map Envelope.timestamp) =
                (localRead e'.db key).map (Option.map Envelope.timestamp) := by
  rw [serves.localRead_eq_getLast]
  refine ⟨lastWriterWins_iff_newestLast _, fun nonempty => ?_, ?_⟩
  · rw [replicateRead, if_neg nonempty, serves.localRead_eq_getLast]
  · intro opts' e' clock' deliveries' serves' same newest newest'
    rw [serves'.localRead_eq_getLast]
    exact congrArg Except.ok (same_timestamp same newest newest')

/-! ### Two writes -/

/-- A write of one byte under the key `k` at the given wall time. -/
def writeAt (wall : Int64) (value : UInt8) : Delivery :=
  .write 0 ⟨[107], [value], some ⟨wall, 0, [97]⟩, false⟩

/-- The engine after these deliveries, each put on its own. -/
def engineAfter (deliveries : List Delivery) : Option Engine :=
  runAllowed (Engine.step defaultOptions) (Engine.Safe defaultOptions) (.start defaultOptions)
    ((admitted (.new [114]) deliveries).map fun p => .write [.put p.1 (some p.2)])

/-- The write of time 2 arrives after the one of time 1. -/
theorem later_write_wins :
    ∃ e, Serves defaultOptions e (.new [114]) [writeAt 1 49, writeAt 2 50] ∧
      LastWriterWins (localRead e.db [107]) (delivered (.new [114]) [writeAt 1 49, writeAt 2 50]
        [107]) := by
  have evaluated : ∃ e ∈ engineAfter [writeAt 1 49, writeAt 2 50],
      ((∀ entry ∈ e.history, entry.value.Clean) ∧ PrefixFree e.history) ∧
        Wrote e (.new [114]) [writeAt 1 49, writeAt 2 50] := by
    decide +kernel
  have both : delivered (.new [114]) [writeAt 1 49, writeAt 2 50] [107] =
      [⟨⟨1, 0, [97]⟩, false, [49]⟩, ⟨⟨2, 0, [97]⟩, false, [50]⟩] := by
    decide +kernel
  rcases Engine.Plain.of_evaluated evaluated with ⟨e, plain, wrote⟩
  have serves : Serves defaultOptions e _ _ := ⟨plain, wrote⟩
  refine ⟨e, serves, (last_writer_wins_iff serves [107]).1.mpr ?_⟩
  rw [both]
  intro last isLast env mem
  cases isLast
  revert env
  decide

/-- The write of time 2 arrives first, the one of time 1 late. -/
theorem late_write_replaces_newer :
    ∃ e, Serves defaultOptions e (.new [114]) [writeAt 2 50, writeAt 1 49] ∧
      localRead e.db [107] = .ok (some ⟨⟨1, 0, [97]⟩, false, [49]⟩) ∧
      ¬ LastWriterWins (localRead e.db [107])
        (delivered (.new [114]) [writeAt 2 50, writeAt 1 49] [107]) := by
  have evaluated : ∃ e ∈ engineAfter [writeAt 2 50, writeAt 1 49],
      ((∀ entry ∈ e.history, entry.value.Clean) ∧ PrefixFree e.history) ∧
        Wrote e (.new [114]) [writeAt 2 50, writeAt 1 49] ∧
        localRead e.db [107] = .ok (some ⟨⟨1, 0, [97]⟩, false, [49]⟩) := by
    decide +kernel
  rcases Engine.Plain.of_evaluated evaluated with ⟨e, plain, wrote, read⟩
  refine ⟨e, ⟨plain, wrote⟩, read, fun wins => ?_⟩
  have newer : (⟨⟨2, 0, [97]⟩, false, [50]⟩ : Envelope) ∈
      delivered (.new [114]) [writeAt 2 50, writeAt 1 49] [107] := by
    decide +kernel
  rcases wins _ newer with ⟨env, _, isRead, notOlder⟩
  cases read.symm.trans isRead
  exact absurd notOlder (by decide)

end Theseon.Cluster
