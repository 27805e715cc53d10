import Theseon.Cluster.Envelope
import Theseon.HLC.Clock
import Theseon.Lib.KeyedMap

/-!
# A replica

The handlers of the replication calls and the local repair check what they are
given, move the clock, and put the encoded envelope under its key.  None of them
looks at the envelope that is already there: the last write that arrives wins, not
the one with the greatest timestamp.

The engine below is a map from keys to stored bytes, which is what it is as long as no
key is a prefix of another.
-/

namespace Theseon.Cluster

open Lib HLC List
open Std (ExtTreeMap)

/-- A `ReplicateWrite` request, or an entry of a batch. -/
structure WriteRequest where
  key : Bytes
  value : Bytes
  timestamp : Option Timestamp
  deleted : Bool
  deriving DecidableEq, Repr

inductive ReplicaError where
  | emptyKey
  | timestampRequired
  | entryEmptyKey (i : Nat)
  | entryTimestampRequired (i : Nat)
  | clockUpdate (err : ClockError)
  | encode (err : Timestamp.CodecError)
  | entryEncode (i : Nat) (err : Timestamp.CodecError)
  | decode (err : EnvelopeError)
  deriving DecidableEq, Repr

/-- The envelope that a request asks to store.  A missing timestamp is the zero one. -/
def WriteRequest.envelope (req : WriteRequest) : Envelope :=
  ⟨req.timestamp.getD .zero, req.deleted, req.value⟩

/-- Keys with the bytes to put under them, in order. -/
abbrev Puts := List (Bytes × Bytes)

/-! ## The checks -/

/-- The checks of `ReplicateWrite`.  The clock has moved even if the envelope cannot
be encoded. -/
def checkWrite (clock : Clock) (pt : Int64) (req : WriteRequest) :
    Clock × Except ReplicaError Puts :=
  if req.key = [] then (clock, .error .emptyKey)
  else
    match req.timestamp with
    | none => (clock, .error .timestampRequired)
    | some ts =>
      match clock.update pt ts with
      | .error err => (clock, .error (.clockUpdate err))
      | .ok clock =>
        match encodeEnvelope req.envelope with
        | .error err => (clock, .error (.encode err))
        | .ok encoded => (clock, .ok [(req.key, encoded)])

/-- The entries of a batch are checked in order; the result is the greatest
timestamp. -/
def validateEntries : Nat → Timestamp → List WriteRequest → Except ReplicaError Timestamp
  | _, maxTS, [] => .ok maxTS
  | i, maxTS, entry :: rest =>
    if entry.key = [] then .error (.entryEmptyKey i)
    else
      match entry.timestamp with
      | none => .error (.entryTimestampRequired i)
      | some ts =>
        validateEntries (i + 1) (if maxTS.isZero || maxTS.less ts then ts else maxTS) rest

/-- The entries of a batch are encoded in order. -/
def encodeEntries : Nat → List WriteRequest → Except ReplicaError Puts
  | _, [] => .ok []
  | i, entry :: rest =>
    match encodeEnvelope entry.envelope with
    | .error err => .error (.entryEncode i err)
    | .ok encoded =>
      match encodeEntries (i + 1) rest with
      | .error err => .error err
      | .ok puts => .ok ((entry.key, encoded) :: puts)

/-- The checks of `ReplicateWriteBatch`: the clock is moved once, to the greatest
timestamp of the batch. -/
def checkBatch (clock : Clock) (pt : Int64) (entries : List WriteRequest) :
    Clock × Except ReplicaError Puts :=
  match validateEntries 0 .zero entries with
  | .error err => (clock, .error err)
  | .ok maxTS =>
    match clock.update pt maxTS with
    | .error err => (clock, .error (.clockUpdate err))
    | .ok clock => (clock, encodeEntries 0 entries)

/-- A repair of the own replica, or a write that the coordinator applies to itself,
checks nothing. -/
def checkLocal (key : Bytes) (e : Envelope) : Except ReplicaError Puts :=
  match encodeEnvelope e with
  | .error err => .error (.encode err)
  | .ok encoded => .ok [(key, encoded)]

/-! ## The replica -/

structure Replica where
  clock : Clock
  store : ExtTreeMap Bytes Bytes

/-- A write on its way to a replica: by the coordinator or a hint, as a batch, or as
a repair of the own replica.  `pt` is the reading of the physical clock. -/
inductive Delivery where
  | write (pt : Int64) (req : WriteRequest)
  | batch (pt : Int64) (entries : List WriteRequest)
  | repair (key : Bytes) (e : Envelope)

/-- What passes the checks. -/
def Delivery.check (clock : Clock) : Delivery → Clock × Except ReplicaError Puts
  | .write pt req => checkWrite clock pt req
  | .batch pt entries => checkBatch clock pt entries
  | .repair key e => (clock, checkLocal key e)

namespace Replica

def put (store : ExtTreeMap Bytes Bytes) (puts : Puts) : ExtTreeMap Bytes Bytes :=
  puts.foldl (fun store p => store.insert p.1 p.2) store

/-- Put what has passed the checks. -/
def commit (r : Replica) : Clock × Except ReplicaError Puts → Replica × Except ReplicaError Unit
  | (clock, .error err) => ({ r with clock := clock }, .error err)
  | (clock, .ok puts) => (⟨clock, put r.store puts⟩, .ok ())

def replicateWrite (r : Replica) (pt : Int64) (req : WriteRequest) :
    Replica × Except ReplicaError Unit :=
  r.commit (checkWrite r.clock pt req)

def replicateWriteBatch (r : Replica) (pt : Int64) (entries : List WriteRequest) :
    Replica × Except ReplicaError Unit :=
  r.commit (checkBatch r.clock pt entries)

/-- `ApplyRepair` whose target is the own node. -/
def applyRepair (r : Replica) (key : Bytes) (e : Envelope) : Replica × Except ReplicaError Unit :=
  r.commit (r.clock, checkLocal key e)

/-- The envelope in the bytes that `Get` returns. -/
def readEnvelope : Option Bytes → Except ReplicaError (Option Envelope)
  | none => .ok none
  | some b =>
    match decodeEnvelope b with
    | .error err => .error (.decode err)
    | .ok e => .ok (some e)

/-- The envelope under a key. -/
def localRead (r : Replica) (key : Bytes) : Except ReplicaError (Option Envelope) :=
  readEnvelope r.store[key]?

def replicateRead (r : Replica) (key : Bytes) : Except ReplicaError (Option Envelope) :=
  if key = [] then .error .emptyKey else r.localRead key

/-- The envelope that a replica has for a key. -/
def current (r : Replica) (key : Bytes) : Option Envelope :=
  match r.localRead key with
  | .ok found => found
  | .error _ => none

end Replica

/-! ## What the checks let through -/

/-- Everything that passes the checks, in the order of delivery. -/
def admitted : Clock → List Delivery → Puts
  | _, [] => []
  | clock, d :: rest =>
    (match (d.check clock).2 with
      | .error _ => []
      | .ok puts => puts) ++ admitted (d.check clock).1 rest

/-- The envelopes that are delivered under a key, in the order of delivery. -/
def delivered (clock : Clock) (deliveries : List Delivery) (key : Bytes) : List Envelope :=
  ((admitted clock deliveries).filter fun p => p.1 = key).filterMap fun p =>
    (decodeEnvelope p.2).toOption

/-- The bytes of a put are an envelope. -/
def Decodes (p : Bytes × Bytes) : Prop :=
  ∃ e, decodeEnvelope p.2 = .ok e

variable {puts : Puts} {clock : Clock}

theorem encodeEntries_decodes {i : Nat} {entries : List WriteRequest}
    (encoded : encodeEntries i entries = .ok puts) : ∀ p ∈ puts, Decodes p := by
  induction entries generalizing i puts with
  | nil =>
    cases encoded
    exact forall_mem_nil _
  | cons entry rest ih =>
    rw [encodeEntries] at encoded
    split at encoded
    · cases encoded
    rename_i bytes first
    split at encoded
    · cases encoded
    rename_i others restEncoded
    cases encoded
    intro p mem
    rcases mem_cons.mp mem with rfl | later
    · exact ⟨_, decodeEnvelope_encodeEnvelope first⟩
    · exact ih restEncoded p later

theorem checkLocal_decodes {key : Bytes} {e : Envelope} (checked : checkLocal key e = .ok puts) :
    ∀ p ∈ puts, Decodes p := by
  rw [checkLocal] at checked
  split at checked
  · cases checked
  rename_i bytes encoded
  cases checked
  exact forall_mem_singleton.mpr ⟨_, decodeEnvelope_encodeEnvelope encoded⟩

theorem checkWrite_decodes {pt : Int64} {req : WriteRequest}
    (checked : (checkWrite clock pt req).2 = .ok puts) : ∀ p ∈ puts, Decodes p := by
  rw [checkWrite] at checked
  split at checked
  · cases checked
  split at checked
  · cases checked
  split at checked
  · cases checked
  split at checked
  · cases checked
  rename_i bytes encoded
  cases checked
  exact forall_mem_singleton.mpr ⟨_, decodeEnvelope_encodeEnvelope encoded⟩

theorem checkBatch_decodes {pt : Int64} {entries : List WriteRequest}
    (checked : (checkBatch clock pt entries).2 = .ok puts) : ∀ p ∈ puts, Decodes p := by
  rw [checkBatch] at checked
  split at checked
  · cases checked
  split at checked
  · cases checked
  · exact encodeEntries_decodes checked

theorem Delivery.check_decodes {d : Delivery} (checked : (d.check clock).2 = .ok puts) :
    ∀ p ∈ puts, Decodes p := by
  cases d with
  | write pt req => exact checkWrite_decodes checked
  | batch pt entries => exact checkBatch_decodes checked
  | repair key e => exact checkLocal_decodes checked

theorem admitted_decodes (clock : Clock) (deliveries : List Delivery) :
    ∀ p ∈ admitted clock deliveries, Decodes p := by
  induction deliveries generalizing clock with
  | nil => exact forall_mem_nil _
  | cons d rest ih =>
    intro p mem
    rcases mem_append.mp mem with first | later
    · split at first
      · cases first
      · rename_i puts checked
        exact Delivery.check_decodes checked p first
    · exact ih _ p later

/-! ## What a replica holds -/

namespace Replica

theorem getElem?_put (store : ExtTreeMap Bytes Bytes) (puts : Puts) (key : Bytes) :
    (put store puts)[key]? =
      ((puts.filter fun p => p.1 = key).getLast?.map Prod.snd).or store[key]? := by
  induction puts generalizing store with
  | nil => rfl
  | cons p rest ih =>
    have first : put store (p :: rest) = put (store.insert p.1 p.2) rest := rfl
    rw [first, ih, getElem?_insert_if]
    by_cases same : p.1 = key
    · rw [filter_cons_of_pos (by simpa using same), if_pos same, getLast?_cons]
      cases (rest.filter fun p => p.1 = key).getLast? with
      | none => rfl
      | some last => rfl
    · rw [filter_cons_of_neg (by simpa using same), if_neg same]

/-- The last put under a key is the envelope that was delivered last. -/
theorem readEnvelope_admitted (clock : Clock) (deliveries : List Delivery) (key : Bytes) :
    readEnvelope (((admitted clock deliveries).filter fun p => p.1 = key).getLast?.map Prod.snd) =
      .ok (delivered clock deliveries key).getLast? := by
  have decodes : ∀ p ∈ (admitted clock deliveries).filter fun p => p.1 = key, Decodes p :=
    fun p mem => admitted_decodes clock deliveries p (mem_filter.mp mem).1
  rw [delivered]
  generalize (admitted clock deliveries).filter (fun p => p.1 = key) = puts at decodes
  cases found : puts.getLast? with
  | none =>
    rw [getLast?_eq_none_iff.mp found]
    rfl
  | some last =>
    rcases getLast?_eq_some_iff.mp found with ⟨front, rfl⟩
    rcases decodes last (mem_append_right _ mem_cons_self) with ⟨e, decoded⟩
    rw [filterMap_append]
    simp only [Option.map_some, readEnvelope, decoded, filterMap_cons, Except.toOption,
      filterMap_nil, getLast?_concat]

end Replica

end Theseon.Cluster
