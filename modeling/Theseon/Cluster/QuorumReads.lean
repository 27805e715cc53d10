import Theseon.Cluster.Coordinator
import Theseon.Lib.Machine

/-!
# Quorum reads see completed quorum writes

Writes and reads of any keys run at the same time, through any coordinators that
share one view of the ring.  A write reaches a replica at any time after it has
begun: by the coordinator, as a hint or as a repair.  A replica applies the writes
of a key in the order of their timestamps.  No key is a prefix of another, so the engine
of a replica is the map that it is taken for.

A read that starts after a write has returned takes its responses from voters, and
`R` voters and `W` voters out of at most `N` have one in common.
-/

namespace Theseon.Cluster

open Lib HLC List

/-- Node IDs are compared as byte strings. -/
local instance lawful_nodeID : LawfulBEq NodeID := inferInstance

/-- A write in progress.  `applied` are the replicas that have stored it. -/
structure WriteOp where
  self : NodeID
  key : Bytes
  envelope : Envelope
  applied : List NodeID
  acks : List (Reply Unit)

/-- A read in progress.  `completed` are the timestamps of the writes of the key that
had returned without an error when the read started. -/
structure ReadOp where
  self : NodeID
  key : Bytes
  completed : List Timestamp
  responses : List (Reply (Option Envelope))

/-- The replicas with the operations of the clients. -/
structure Replicated where
  replicas : NodeID → Replica
  writes : List WriteOp
  reads : List ReadOp

inductive ReplicatedAction where
  | write (self : NodeID) (key value : Bytes) (deleted : Bool) (ts : Timestamp)
  /-- Write `i` arrives at a replica, whose physical clock reads `pt`. -/
  | deliver (i : Nat) (x : NodeID) (pt : Int64)
  /-- The coordinator of write `i` hears from a voter. -/
  | ack (i : Nat) (x : NodeID) (ok : Bool)
  | read (self : NodeID) (key : Bytes)
  /-- The coordinator of read `j` hears from a replica. -/
  | respond (j : Nat) (x : NodeID) (ok : Bool)

/-- A replica applies a write: its own coordinator puts it directly, others call
`ReplicateWrite`. -/
def Replica.apply (r : Replica) (isSelf : Bool) (pt : Int64) (key : Bytes) (e : Envelope) :
    Replica × Except ReplicaError Unit :=
  if isSelf then r.applyRepair key e
  else r.replicateWrite pt ⟨key, e.value, some e.timestamp, e.deleted⟩

def Replica.answer (r : Replica) (isSelf : Bool) (key : Bytes) :
    Except ReplicaError (Option Envelope) :=
  if isSelf then r.localRead key else r.replicateRead key

namespace Replicated

def deliver (s : Replicated) (i : Nat) (op : WriteOp) (x : NodeID) (pt : Int64) : Replicated :=
  let (r, outcome) := (s.replicas x).apply (x = op.self) pt op.key op.envelope
  { s with
    replicas := Function.update s.replicas x r
    writes :=
      match outcome with
      | .ok () => s.writes.set i { op with applied := x :: op.applied }
      | .error _ => s.writes }

/-- The timestamps of the writes of a key that have returned without an error. -/
def completed (v : View) (s : Replicated) (key : Bytes) : List Timestamp :=
  (s.writes.filter fun op => op.key = key ∧ v.writeResult op.key op.acks = some (.ok ())).map
    fun op => op.envelope.timestamp

/-- One step.  A call that fails its checks has no effect. -/
def step (v : View) (s : Replicated) : ReplicatedAction → Option Replicated
  | .write self key value deleted ts =>
    match v.beginWrite key value deleted ts with
    | .error _ => some s
    | .ok e => some { s with writes := s.writes ++ [⟨self, key, e, [], []⟩] }
  | .deliver i x pt => (s.writes[i]?).map fun op => s.deliver i op x pt
  | .ack i x ok => do
    let op ← s.writes[i]?
    -- every voter is heard once, and a success means that it has stored the write
    if x ∈ v.voters op.key ∧ x ∉ op.acks.map Prod.fst ∧
        (ok = true → x ∈ op.applied ∧ (x = op.self ∨ v.membership.isRoutable x = true)) then
      some { s with
        writes := s.writes.set i
          { op with acks := op.acks ++ [(x, if ok then some () else none)] } }
    else none
  | .read self key =>
    match v.beginRead key with
    | .error _ => some s
    | .ok () => some { s with reads := s.reads ++ [⟨self, key, completed v s key, []⟩] }
  | .respond j x ok => do
    let op ← s.reads[j]?
    if x ∈ v.readable op.key ∧ x ∉ op.responses.map Prod.fst then
      let response :=
        if ok then ((s.replicas x).answer (x = op.self) op.key).toOption else none
      some { s with
        reads := s.reads.set j { op with responses := op.responses ++ [(x, response)] } }
    else none

/-- Writes go to the given keys, and a replica applies the writes of a key in increasing
order. -/
def InOrder (keys : Bytes → Prop) (s : Replicated) : ReplicatedAction → Prop
  | .write _ key _ _ _ => keys key
  | .deliver i x _ => ∀ op ∈ s.writes[i]?, ∀ e ∈ (s.replicas x).current op.key,
      e.timestamp ≤ op.envelope.timestamp
  | _ => True

instance (keys : Bytes → Prop) [DecidablePred keys] (s : Replicated) (a : ReplicatedAction) :
    Decidable (s.InOrder keys a) := by
  cases a <;> unfold InOrder <;> infer_instance

end Replicated

/-! ## What a replica holds -/

section

variable {r r' : Replica} {isSelf : Bool} {pt : Int64} {key : Bytes} {e : Envelope}

/-- A write is stored or refused. -/
inductive Applies (r : Replica) (key : Bytes) (e : Envelope) :
    Replica × Except ReplicaError Unit → Prop where
  | refused {r' : Replica} {err : ReplicaError} (same : r'.store = r.store) :
      Applies r key e (r', .error err)
  | stored {r' : Replica} {b : Bytes} (encoded : encodeEnvelope e = .ok b)
      (put : r'.store = r.store.insert key b) : Applies r key e (r', .ok ())

theorem applies_apply (r : Replica) (isSelf : Bool) (pt : Int64) (key : Bytes) (e : Envelope) :
    Applies r key e (r.apply isSelf pt key e) := by
  rw [Replica.apply]
  split
  · rw [Replica.applyRepair, checkLocal]
    split
    · exact .refused rfl
    · rename_i b encoded
      exact .stored encoded rfl
  rw [Replica.replicateWrite, checkWrite]
  split
  · exact .refused rfl
  dsimp only
  split
  · exact .refused rfl
  split
  · exact .refused rfl
  · rename_i b encoded
    exact .stored encoded rfl

/-- The replica has an envelope of the key that is not older than `t`. -/
def Replica.Holds (r : Replica) (key : Bytes) (t : Timestamp) : Prop :=
  ∃ e, r.localRead key = .ok (some e) ∧ t ≤ e.timestamp

theorem current_of_localRead (read : r.localRead key = .ok (some e)) : r.current key = some e := by
  rw [Replica.current, read]

theorem localRead_of_store (same : r'.store = r.store) (key : Bytes) :
    r'.localRead key = r.localRead key := by
  rw [Replica.localRead, Replica.localRead, same]

theorem localRead_insert_self {b : Bytes} (encoded : encodeEnvelope e = .ok b)
    (put : r'.store = r.store.insert key b) : r'.localRead key = .ok (some e.stored) := by
  rw [Replica.localRead, put, Std.ExtTreeMap.getElem?_insert_self, Replica.readEnvelope,
    decodeEnvelope_encodeEnvelope encoded]

theorem localRead_insert_ne {b other : Bytes} (put : r'.store = r.store.insert key b)
    (different : key ≠ other) : r'.localRead other = r.localRead other := by
  rw [Replica.localRead, Replica.localRead, put, getElem?_insert_if, if_neg different]

/-- A replica that applies the writes in order never goes back. -/
theorem Replica.Holds.apply {other : Bytes} {t : Timestamp} (holds : r.Holds other t)
    (inOrder : ∀ old ∈ r.current key, old.timestamp ≤ e.timestamp) :
    (r.apply isSelf pt key e).1.Holds other t := by
  have applies := applies_apply r isSelf pt key e
  generalize r.apply isSelf pt key e = outcome at applies
  rcases holds with ⟨old, read, newer⟩
  cases applies with
  | refused same => exact ⟨old, (localRead_of_store same other).trans read, newer⟩
  | stored encoded put =>
    by_cases same : key = other
    · subst same
      refine ⟨e.stored, localRead_insert_self encoded put, ?_⟩
      rw [stored_timestamp]
      exact newer.trans (inOrder old (current_of_localRead read))
    · exact ⟨old, (localRead_insert_ne put same).trans read, newer⟩

/-- A write that is stored is held. -/
theorem holds_of_applied (ok : (r.apply isSelf pt key e).2 = .ok ()) :
    (r.apply isSelf pt key e).1.Holds key e.timestamp := by
  have applies := applies_apply r isSelf pt key e
  generalize r.apply isSelf pt key e = outcome at applies ok
  cases applies with
  | refused same => cases ok
  | stored encoded put =>
    exact ⟨e.stored, localRead_insert_self encoded put, (stored_timestamp e).symm.le⟩

theorem localRead_of_answer {resp : Option Envelope}
    (answered : (r.answer isSelf key).toOption = some resp) : r.localRead key = .ok resp := by
  rw [Replica.answer, Replica.replicateRead] at answered
  cases read : r.localRead key with
  | error err =>
    rw [read] at answered
    split at answered
    · cases answered
    split at answered
    · cases answered
    · cases answered
  | ok resp' =>
    rw [read] at answered
    split at answered
    · exact congrArg Except.ok (Option.some.inj answered)
    split at answered
    · cases answered
    · exact congrArg Except.ok (Option.some.inj answered)

end

namespace Replicated

/-! ## The invariant -/

variable {v : View} {s next : Replicated}

/-- A quorum of voters holds the write. -/
structure Quorum (v : View) (replicas : NodeID → Replica) (key : Bytes) (t : Timestamp)
    (members : List NodeID) : Prop where
  distinct : members.Nodup
  voters : members ⊆ v.voters key
  enough : v.cfg.writeQuorum ≤ members.length
  held : ∀ x ∈ members, (replicas x).Holds key t

structure WriteSound (v : View) (replicas : NodeID → Replica) (op : WriteOp) : Prop where
  applied : ∀ x ∈ op.applied, (replicas x).Holds op.key op.envelope.timestamp
  voters : ∀ a ∈ op.acks, a.1 ∈ v.voters op.key
  stored : ∀ a ∈ op.acks, a.2 = some () → a.1 ∈ op.applied
  once : (op.acks.map Prod.fst).Nodup

/-- The members of the quorum answer with the write or a newer one. -/
structure ReadSound (v : View) (replicas : NodeID → Replica) (op : ReadOp) : Prop where
  voters : ∀ a ∈ op.responses, a.1 ∈ v.voters op.key
  once : (op.responses.map Prod.fst).Nodup
  covered : ∀ t ∈ op.completed, ∃ members, Quorum v replicas op.key t members ∧
    ∀ x ∈ members, ∀ resp, (x, some resp) ∈ op.responses → ∃ e, resp = some e ∧ t ≤ e.timestamp

structure Invariant (v : View) (s : Replicated) : Prop where
  writes : ∀ op ∈ s.writes, WriteSound v s.replicas op
  reads : ∀ op ∈ s.reads, ReadSound v s.replicas op

/-- Replicas only move forward. -/
def Advances (replicas replicas' : NodeID → Replica) : Prop :=
  ∀ x key t, (replicas x).Holds key t → (replicas' x).Holds key t

variable {replicas : NodeID → Replica} {op : WriteOp} {i : Nat} {x : NodeID}

theorem WriteSound.mono {replicas' : NodeID → Replica} (sound : WriteSound v replicas op)
    (advances : Advances replicas replicas') : WriteSound v replicas' op :=
  ⟨fun x mem => advances x _ _ (sound.applied x mem), sound.voters, sound.stored, sound.once⟩

theorem ReadSound.mono {replicas' : NodeID → Replica} {op : ReadOp}
    (sound : ReadSound v replicas op) (advances : Advances replicas replicas') :
    ReadSound v replicas' op := by
  constructor
  · exact sound.voters
  · exact sound.once
  · intro t mem
    rcases sound.covered t mem with ⟨members, quorum, answers⟩
    exact ⟨members, ⟨quorum.distinct, quorum.voters, quorum.enough,
      fun x isMember => advances x _ _ (quorum.held x isMember)⟩, answers⟩

/-- A write that has returned without an error is held by a quorum. -/
theorem WriteSound.quorum (sound : WriteSound v replicas op)
    (returned : v.writeResult op.key op.acks = some (.ok ())) :
    ∃ members, Quorum v replicas op.key op.envelope.timestamp members := by
  rcases Option.map_eq_some_iff.mp returned with ⟨⟨got, failures⟩, awaited, result⟩
  rcases awaitQuorum_sublist awaited with ⟨sub, answers⟩
  refine ⟨got.map Prod.fst, sub.nodup sound.once, ?_, ?_, ?_⟩
  · intro x mem
    rcases mem_map.mp (sub.subset mem) with ⟨a, isAck, rfl⟩
    exact sound.voters a isAck
  · rw [length_map]
    dsimp only at result
    split at result
    · assumption
    · cases result
  · intro x mem
    rcases mem_map.mp mem with ⟨⟨x, answer⟩, isGot, rfl⟩
    exact sound.applied x (sound.stored _ (answers _ isGot) rfl)

/-- A read that returns without an error has selected a response that is not older
than any write that had completed. -/
theorem ReadSound.selects {op : ReadOp} (sound : ReadSound v replicas op)
    (overlap : v.cfg.replicationFactor < v.cfg.readQuorum + v.cfg.writeQuorum) {t : Timestamp}
    (completed : t ∈ op.completed) {selected : Option Envelope}
    (returned : v.readResult op.key op.responses = some (.ok selected)) :
    ∃ e, selected = some e ∧ t ≤ e.timestamp := by
  rcases Option.map_eq_some_iff.mp returned with ⟨⟨got, failures⟩, awaited, result⟩
  rcases awaitQuorum_sublist awaited with ⟨sub, answers⟩
  dsimp only at result
  split at result
  · cases result
  rename_i enough
  cases result
  rcases sound.covered t completed with ⟨members, quorum, newer⟩
  have responders : got.map Prod.fst ⊆ v.voters op.key := by
    intro x mem
    rcases mem_map.mp (sub.subset mem) with ⟨a, isResponse, rfl⟩
    exact sound.voters a isResponse
  have large : (v.voters op.key).length < (got.map Prod.fst).length + members.length := by
    rw [length_map]
    have bound := voters_length_le v op.key
    have := quorum.enough
    omega
  rcases exists_mem_of_quorums (sub.nodup sound.once) quorum.distinct responders quorum.voters
    large with ⟨x, responded, isMember⟩
  rcases mem_map.mp responded with ⟨⟨x, resp⟩, isGot, rfl⟩
  rcases newer x isMember resp (answers _ isGot) with ⟨e, rfl, notOlder⟩
  rcases selectNewest_newest (mem_map_of_mem isGot : some e ∈ got.map Prod.snd) with
    ⟨cur, isSelected, newest⟩
  exact ⟨cur, isSelected, notOlder.trans newest⟩

/-! ## Every step -/

theorem mem_set {α : Type} {items : List α} {new item : α} (mem : item ∈ items.set i new) :
    item = new ∨ item ∈ items :=
  (mem_or_eq_of_mem_set mem).symm

theorem nodup_replies {α : Type} {replies : List (Reply α)} {answer : Option α}
    (once : (replies.map Prod.fst).Nodup) (first : x ∉ replies.map Prod.fst) :
    ((replies ++ [(x, answer)]).map Prod.fst).Nodup := by
  rw [map_append, nodup_append]
  apply And.intro once
  apply And.intro (nodup_singleton _)
  rintro y before _ isNew rfl
  rw [mem_singleton.mp isNew] at before
  exact first before

theorem Invariant.deliver (inv : s.Invariant v) {pt : Int64} (found : s.writes[i]? = some op)
    (inOrder : ∀ e ∈ (s.replicas x).current op.key, e.timestamp ≤ op.envelope.timestamp) :
    (s.deliver i op x pt).Invariant v := by
  have advances : Advances s.replicas (Function.update s.replicas x
      ((s.replicas x).apply (x = op.self) pt op.key op.envelope).1) := by
    intro y key t holds
    by_cases same : y = x
    · subst same
      rw [Function.update_self]
      exact holds.apply inOrder
    · rw [Function.update_of_ne same]
      exact holds
  have sound := (inv.writes op (mem_of_getElem? found)).mono advances
  constructor
  · intro other mem
    rw [Replicated.deliver] at mem
    dsimp only at mem
    split at mem
    · rename_i ok
      rcases mem_set mem with rfl | old
      · constructor
        · intro y isApplied
          rcases mem_cons.mp isApplied with rfl | before
          · change (Function.update s.replicas y _ y).Holds op.key op.envelope.timestamp
            rw [Function.update_self]
            exact holds_of_applied ok
          · exact sound.applied y before
        · exact sound.voters
        · exact fun a isAck isOk => mem_cons_of_mem _ (sound.stored a isAck isOk)
        · exact sound.once
      · exact (inv.writes other old).mono advances
    · exact (inv.writes other mem).mono advances
  · exact fun other mem => (inv.reads other mem).mono advances

theorem Invariant.ack (inv : s.Invariant v) {ok : Bool} (found : s.writes[i]? = some op)
    (isVoter : x ∈ v.voters op.key) (first : x ∉ op.acks.map Prod.fst)
    (stored : ok = true → x ∈ op.applied) :
    Invariant v { s with
      writes := s.writes.set i
        { op with acks := op.acks ++ [(x, if ok then some () else none)] } } := by
  have sound := inv.writes op (mem_of_getElem? found)
  constructor
  · intro other mem
    rcases mem_set mem with rfl | old
    · constructor
      · exact sound.applied
      · intro a isAck
        rcases mem_append.mp isAck with before | isNew
        · exact sound.voters a before
        · rw [mem_singleton.mp isNew]
          exact isVoter
      · intro a isAck isOk
        rcases mem_append.mp isAck with before | isNew
        · exact sound.stored a before isOk
        rw [mem_singleton.mp isNew] at isOk ⊢
        cases ok with
        | true => exact stored rfl
        | false => cases isOk
      · exact nodup_replies sound.once first
    · exact inv.writes other old
  · exact inv.reads

theorem Invariant.read (inv : s.Invariant v) (self : NodeID) (key : Bytes) :
    Invariant v { s with reads := s.reads ++ [⟨self, key, completed v s key, []⟩] } := by
  constructor
  · exact inv.writes
  · intro op mem
    rcases mem_append.mp mem with old | isNew
    · exact inv.reads op old
    rw [mem_singleton.mp isNew]
    constructor
    · exact forall_mem_nil _
    · exact nodup_nil
    · intro t isCompleted
      rcases mem_map.mp isCompleted with ⟨w, filtered, rfl⟩
      rcases mem_filter.mp filtered with ⟨isWrite, passes⟩
      rcases of_decide_eq_true passes with ⟨rfl, returned⟩
      rcases (inv.writes w isWrite).quorum returned with ⟨members, quorum⟩
      exact ⟨members, quorum, fun _ _ _ absent => absurd absent not_mem_nil⟩

theorem Invariant.respond (inv : s.Invariant v) {j : Nat} {op : ReadOp}
    {response : Option (Option Envelope)} (found : s.reads[j]? = some op)
    (isReadable : x ∈ v.readable op.key) (first : x ∉ op.responses.map Prod.fst)
    (answered : ∀ resp, response = some resp → (s.replicas x).localRead op.key = .ok resp) :
    Invariant v { s with
      reads := s.reads.set j { op with responses := op.responses ++ [(x, response)] } } := by
  have sound := inv.reads op (mem_of_getElem? found)
  constructor
  · exact inv.writes
  · intro other mem
    rcases mem_set mem with rfl | old
    · constructor
      · intro a isResponse
        rcases mem_append.mp isResponse with before | isNew
        · exact sound.voters a before
        · rw [mem_singleton.mp isNew]
          exact readable_subset_voters v op.key isReadable
      · exact nodup_replies sound.once first
      · intro t isCompleted
        rcases sound.covered t isCompleted with ⟨members, quorum, answers⟩
        refine ⟨members, quorum, ?_⟩
        intro y isMember resp isResponse
        rcases mem_append.mp isResponse with before | isNew
        · exact answers y isMember resp before
        -- the replica answers with what it holds, which is the write or a newer one
        cases mem_singleton.mp isNew
        rcases quorum.held x isMember with ⟨e, read, newer⟩
        rw [answered resp rfl] at read
        exact ⟨e, Except.ok.inj read, newer⟩
    · exact inv.reads other old

variable {keys : Bytes → Prop}

theorem Invariant.step (inv : s.Invariant v) {a : ReplicatedAction} (inOrder : s.InOrder keys a)
    (stepped : s.step v a = some next) : next.Invariant v := by
  cases a with
  | write self key value deleted ts =>
    rw [Replicated.step] at stepped
    split at stepped
    · cases stepped
      exact inv
    cases stepped
    constructor
    · intro op mem
      rcases mem_append.mp mem with old | isNew
      · exact inv.writes op old
      rw [mem_singleton.mp isNew]
      exact ⟨forall_mem_nil _, forall_mem_nil _, forall_mem_nil _,
        nodup_nil⟩
    · exact inv.reads
  | deliver i x pt =>
    rcases Option.map_eq_some_iff.mp stepped with ⟨op, found, rfl⟩
    exact inv.deliver found (inOrder op found)
  | ack i x ok =>
    rcases Option.bind_eq_some_iff.mp stepped with ⟨op, found, acked⟩
    split at acked
    · rename_i guards
      cases acked
      exact inv.ack found guards.1 guards.2.1 fun isOk => (guards.2.2 isOk).1
    · cases acked
  | read self key =>
    rw [Replicated.step] at stepped
    split at stepped
    · cases stepped
      exact inv
    · cases stepped
      exact inv.read self key
  | respond j x ok =>
    rcases Option.bind_eq_some_iff.mp stepped with ⟨op, found, responded⟩
    split at responded
    · rename_i guards
      cases responded
      apply inv.respond found guards.1 guards.2
      intro resp answered
      split at answered
      · exact localRead_of_answer answered
      · cases answered
    · cases responded

theorem invariant_of_reached {start : Replicated} (noWrites : start.writes = [])
    (noReads : start.reads = []) (reached : Reached (step v) (InOrder keys) start s) :
    s.Invariant v := by
  have initially : start.Invariant v :=
    ⟨noWrites ▸ forall_mem_nil _, noReads ▸ forall_mem_nil _⟩
  exact reached.invariant _ initially fun inv inOrder stepped => inv.step inOrder stepped

/-! ## The keys -/

/-- No key is a prefix of another. -/
def PrefixFreeKeys (keys : Bytes → Prop) : Prop :=
  ∀ first second, keys first → keys second → first ≠ second → Unrelated first second

/-- Only the given keys are stored and written. -/
structure Within (keys : Bytes → Prop) (s : Replicated) : Prop where
  stored : ∀ x, ∀ key ∈ (s.replicas x).store, keys key
  written : ∀ op ∈ s.writes, keys op.key

theorem Within.deliver (within : s.Within keys) {pt : Int64} (found : s.writes[i]? = some op) :
    (s.deliver i op x pt).Within keys := by
  have isKey := within.written op (mem_of_getElem? found)
  have applies := applies_apply (s.replicas x) (x = op.self) pt op.key op.envelope
  rw [Replicated.deliver]
  generalize (s.replicas x).apply (x = op.self) pt op.key op.envelope = outcome at applies
  constructor
  · intro y key mem
    dsimp only at mem
    by_cases same : y = x
    · rw [same, Function.update_self] at mem
      cases applies with
      | refused unchanged => exact within.stored x key (unchanged ▸ mem)
      | stored encoded put =>
        dsimp only at mem
        rw [put, Std.ExtTreeMap.mem_insert, Std.LawfulEqCmp.compare_eq_iff_eq] at mem
        rcases mem with rfl | old
        · exact isKey
        · exact within.stored x key old
    · rw [Function.update_of_ne same] at mem
      exact within.stored y key mem
  · intro other mem
    dsimp only at mem
    split at mem
    · rcases mem_set mem with rfl | old
      · exact isKey
      · exact within.written other old
    · exact within.written other mem

theorem Within.step (within : s.Within keys) {a : ReplicatedAction} (inOrder : s.InOrder keys a)
    (stepped : s.step v a = some next) : next.Within keys := by
  cases a with
  | write self key value deleted ts =>
    rw [Replicated.step] at stepped
    split at stepped
    · cases stepped
      exact within
    · cases stepped
      refine ⟨within.stored, fun op mem => ?_⟩
      rcases mem_append.mp mem with old | isNew
      · exact within.written op old
      · rw [mem_singleton.mp isNew]
        exact inOrder
  | deliver i x pt =>
    rcases Option.map_eq_some_iff.mp stepped with ⟨op, found, rfl⟩
    exact within.deliver found
  | ack i x ok =>
    rcases Option.bind_eq_some_iff.mp stepped with ⟨op, found, acked⟩
    split at acked
    · cases acked
      refine ⟨within.stored, fun other mem => ?_⟩
      rcases mem_set mem with rfl | old
      · exact within.written op (mem_of_getElem? found)
      · exact within.written other old
    · cases acked
  | read self key =>
    rw [Replicated.step] at stepped
    split at stepped <;> cases stepped <;> exact ⟨within.stored, within.written⟩
  | respond j x ok =>
    rcases Option.bind_eq_some_iff.mp stepped with ⟨op, _, responded⟩
    split at responded <;> cases responded
    exact ⟨within.stored, within.written⟩

/-- No store has a key that is a prefix of another. -/
def PlainStores (s : Replicated) : Prop :=
  ∀ x, PrefixFreeKeys fun key => key ∈ (s.replicas x).store

theorem plainStores_of_reached {start : Replicated} (free : PrefixFreeKeys keys)
    (within : start.Within keys) (reached : Reached (step v) (InOrder keys) start s) :
    s.PlainStores := by
  have kept := reached.invariant _ within fun within inOrder stepped => within.step inOrder stepped
  intro x first second isFirst isSecond
  exact free first second (kept.stored x first isFirst) (kept.stored x second isSecond)

/-- The first byte as hash. -/
def firstByte (b : Bytes) : UInt64 :=
  UInt64.ofNat (b.headD 0).toNat

def activeMember (nodeID addr : UInt8) : MemberState :=
  ⟨[nodeID], [addr], .alive, .active, 1⟩

/-- Nodes `a`, `b` and `c` are active; two of them are a quorum. -/
def threeReplicas : View where
  sum64 := firstByte
  ring := (Hashring.Ring.new 1).replaceMembers (.insertion _) firstByte
    [⟨[97], [1]⟩, ⟨[98], [2]⟩, ⟨[99], [3]⟩]
  membership :=
    { Membership.new [97] [1] with
      members := insertAll MemberState.nodeID ∅
        [activeMember 97 1, activeMember 98 2, activeMember 99 3] }
  cfg := ⟨3, 2, 2⟩

/-- Empty replicas without operations. -/
def emptyReplicas : Replicated :=
  ⟨fun x => ⟨.new x, ∅⟩, [], []⟩

/-- Node `a` writes, and `a` and `b` store the write.  Node `c` reads from `b` and
from itself. -/
def writeThenRead : List ReplicatedAction :=
  [.write [97] [107] [49] false ⟨1, 0, [97]⟩, .deliver 0 [97] 0, .deliver 0 [98] 0,
    .ack 0 [98] true, .ack 0 [97] true, .read [99] [107], .respond 0 [99] true,
    .respond 0 [98] true]

/-- The only key. -/
def isK (key : Bytes) : Prop :=
  key = [107]

instance : DecidablePred isK := fun key => inferInstanceAs (Decidable (key = [107]))

theorem prefixFreeKeys_isK : PrefixFreeKeys isK :=
  fun _ _ isFirst isSecond different => absurd (isFirst.trans isSecond.symm) different

theorem within_emptyReplicas : emptyReplicas.Within isK :=
  ⟨fun _ _ mem => absurd mem Std.ExtTreeMap.not_mem_empty, forall_mem_nil _⟩

end Replicated

end Theseon.Cluster
