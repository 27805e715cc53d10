import Theseon.Cluster.Membership
import Theseon.Cluster.Replica
import Theseon.Hashring.Walk
import Theseon.Lib.Quorum

/-!
# The coordinator

A coordinator sends a write to the replicas of the key and waits for `W`
acknowledgements of voters; replicas that are joining the ring receive the write
without a vote.  A read waits for `R` responses of replicas that are reachable and
not joining, and selects the newest one.
-/

namespace Theseon.Cluster

open Lib HLC List

structure CoordinatorConfig where
  replicationFactor : Nat
  writeQuorum : Nat
  readQuorum : Nat
  deriving DecidableEq, Repr

inductive CoordinatorError where
  | emptyKey
  | notEnoughReplicas (voters need : Nat)
  | encode (err : Timestamp.CodecError)
  | writeQuorumNotMet (got need : Nat)
  | notEnoughReadable (readable need : Nat)
  | readQuorumNotMet (got need : Nat)
  deriving DecidableEq, Repr

/-- The reply of a replica; `none` is a failure. -/
abbrev Reply (α : Type) := NodeID × Option α

/-- The loop that takes the replies of a group in the order of their arrival until
it has the quorum or too many of them have failed. -/
def awaitQuorum {α : Type} (quorum group : Nat) (replies : List (Reply α)) :
    Option (List (NodeID × α) × Nat) :=
  collectQuorum quorum (group - quorum + 1) [] 0
    (replies.map fun r => r.2.map fun answer => (r.1, answer))

/-- What the coordinators know: the ring, the membership and the quorums. -/
structure View where
  sum64 : Bytes → UInt64
  ring : Hashring.Ring
  membership : Membership
  cfg : CoordinatorConfig

namespace View

variable (v : View)

def replicas (key : Bytes) : List Hashring.Node :=
  v.ring.getNodes v.sum64 key v.cfg.replicationFactor

/-- The voters of a key, and the learners, which are joining the ring. -/
def splitReplicas (nodes : List Hashring.Node) : List Hashring.Node × List Hashring.Node :=
  nodes.partition fun n => v.membership.ringStateOf n.id ≠ .joining

def voters (key : Bytes) : List NodeID :=
  (v.splitReplicas (v.replicas key)).1.map Hashring.Node.id

/-- The replicas that serve reads. -/
def readable (key : Bytes) : List NodeID :=
  ((v.replicas key).filter fun n =>
    v.membership.isRoutable n.id && v.membership.ringStateOf n.id ≠ .joining).map Hashring.Node.id

/-! ## Writes -/

/-- The checks at the start of `writeInternal`. -/
def beginWrite (key value : Bytes) (deleted : Bool) (ts : Timestamp) :
    Except CoordinatorError Envelope :=
  if key = [] then .error .emptyKey
  else if (v.voters key).length < v.cfg.writeQuorum then
    .error (.notEnoughReplicas (v.voters key).length v.cfg.writeQuorum)
  else
    match encodeEnvelope ⟨ts, deleted, value⟩ with
    | .error err => .error (.encode err)
    | .ok _ => .ok ⟨ts, deleted, value⟩

/-- The acknowledgements in the order of their arrival decide the write.  `none` as
long as it waits for more of them. -/
def writeResult (key : Bytes) (acks : List (Reply Unit)) : Option (Except CoordinatorError Unit) :=
  (awaitQuorum v.cfg.writeQuorum (v.voters key).length acks).map fun (got, _) =>
    if v.cfg.writeQuorum ≤ got.length then .ok ()
    else .error (.writeQuorumNotMet got.length v.cfg.writeQuorum)

/-- A write to a collection that the vector store knows, after the clock and the digest
of the configuration have been read. -/
def vectorResult (collection : Bytes) (acks : List (Reply Unit)) :
    Option (Except CoordinatorError Unit) :=
  if (v.voters collection).length < v.cfg.writeQuorum then
    some (.error (.notEnoughReplicas (v.voters collection).length v.cfg.writeQuorum))
  else v.writeResult collection acks

def vectorWrite (collection : Bytes) (acks : List (Reply Unit)) :
    Option (Except CoordinatorError Unit) :=
  v.vectorResult collection acks

def vectorDelete (collection : Bytes) (acks : List (Reply Unit)) :
    Option (Except CoordinatorError Unit) :=
  v.vectorResult collection acks

/-! ## Reads -/

/-- The checks at the start of `Read`. -/
def beginRead (key : Bytes) : Except CoordinatorError Unit :=
  if key = [] then .error .emptyKey
  else if (v.readable key).length < v.cfg.readQuorum then
    .error (.notEnoughReadable (v.readable key).length v.cfg.readQuorum)
  else .ok ()

end View

/-- Keep the newer one; a replica that does not have the key is skipped. -/
def keepNewer : Option Envelope → Option Envelope → Option Envelope
  | newest, none => newest
  | none, some candidate => some candidate
  | some cur, some candidate =>
    if cur.timestamp.less candidate.timestamp then some candidate else some cur

def selectNewest (responses : List (Option Envelope)) : Option Envelope :=
  responses.foldl keepNewer none

/-- The responses in the order of their arrival decide the read; the result is the
selected response. -/
def View.readResult (v : View) (key : Bytes) (responses : List (Reply (Option Envelope))) :
    Option (Except CoordinatorError (Option Envelope)) :=
  (awaitQuorum v.cfg.readQuorum (v.readable key).length responses).map fun (got, _) =>
    if got.length < v.cfg.readQuorum then .error (.readQuorumNotMet got.length v.cfg.readQuorum)
    else .ok (selectNewest (got.map Prod.snd))

/-! ## Quorums of voters -/

theorem voters_eq (v : View) (key : Bytes) :
    v.voters key = ((v.replicas key).filter fun n =>
      v.membership.ringStateOf n.id ≠ .joining).map Hashring.Node.id := by
  rw [View.voters, View.splitReplicas, partition_eq_filter_filter]

/-- There are at most `N` voters. -/
theorem voters_length_le (v : View) (key : Bytes) :
    (v.voters key).length ≤ v.cfg.replicationFactor := by
  rw [voters_eq, length_map]
  exact (length_filter_le _ _).trans
    (Hashring.Ring.length_getNodes_le v.sum64 v.ring key v.cfg.replicationFactor)

/-- Only voters are read. -/
theorem readable_subset_voters (v : View) (key : Bytes) : v.readable key ⊆ v.voters key := by
  intro x mem
  rcases mem_map.mp mem with ⟨n, isReadable, rfl⟩
  rcases mem_filter.mp isReadable with ⟨isReplica, passes⟩
  rw [Bool.and_eq_true] at passes
  rw [voters_eq]
  exact mem_map_of_mem (mem_filter.mpr ⟨isReplica, passes.2⟩)

section

variable {α : Type} {quorum group failures : Nat} {replies : List (Reply α)}
  {got : List (NodeID × α)}

def answers (replies : List (Reply α)) : List (NodeID × α) :=
  replies.filterMap fun r => r.2.map fun answer => (r.1, answer)

theorem mem_answers {x : NodeID} {answer : α} :
    (x, answer) ∈ answers replies ↔ (x, some answer) ∈ replies := by
  simp [answers]

theorem map_fst_answers (replies : List (Reply α)) :
    ((answers replies).map Prod.fst).Sublist (replies.map Prod.fst) := by
  induction replies with
  | nil => exact List.Sublist.slnil
  | cons r rest ih =>
    rcases r with ⟨x, answer⟩
    cases answer with
    | none => exact ih.cons x
    | some answer => exact ih.cons_cons x

/-- The answers are those of the first replies, up to the quorum or to one failure too
many. -/
theorem awaitQuorum_eq_some (awaited : awaitQuorum quorum group replies = some (got, failures)) :
    ∃ heard rest, replies = heard ++ rest ∧ got = answers heard ∧
      heard.length = got.length + failures ∧ got.length ≤ quorum ∧
      (got.length < quorum → group - quorum + 1 ≤ failures) := by
  rcases collectQuorum_eq_some (Nat.zero_le _) awaited with
    ⟨_, _, isReplies, isGot, isFailures, within, failed⟩
  rcases map_eq_append_iff.mp isReplies with ⟨heard, rest, rfl, rfl, rfl⟩
  have isAnswers : got = answers heard := by
    rw [isGot, nil_append, filterMap_map]
    rfl
  refine ⟨heard, rest, rfl, isAnswers, ?_, within, failed⟩
  rw [isFailures, isAnswers, answers, length_filterMap_eq_countP, countP_map, Nat.zero_add,
    length_eq_countP_add_countP fun r : Reply α => (r.2.map fun answer => (r.1, answer)).isSome]
  simp [Function.comp_def, -Option.isNone_iff_eq_none]

/-- The collected answers come from different replies, and each of them is the
answer of its replica. -/
theorem awaitQuorum_sublist (awaited : awaitQuorum quorum group replies = some (got, failures)) :
    (got.map Prod.fst).Sublist (replies.map Prod.fst) ∧
      ∀ p ∈ got, (p.1, some p.2) ∈ replies := by
  rcases awaitQuorum_eq_some awaited with ⟨heard, rest, rfl, rfl, _⟩
  constructor
  · exact (map_fst_answers heard).trans ((sublist_append_left heard rest).map Prod.fst)
  · exact fun p mem => mem_append_left rest (mem_answers.mp mem)

end

variable {e : Envelope}

/-! ## The newest response -/

/-- One step of the selection. -/
theorem newest_step {newest : Option Envelope} (response : Option Envelope)
    (seen : ∃ cur, newest = some cur ∧ e.timestamp ≤ cur.timestamp) :
    ∃ cur, keepNewer newest response = some cur ∧ e.timestamp ≤ cur.timestamp := by
  rcases seen with ⟨cur, rfl, older⟩
  cases response with
  | none => exact ⟨cur, rfl, older⟩
  | some candidate =>
    rw [keepNewer]
    split
    · rename_i newer
      exact ⟨candidate, rfl, older.trans (Timestamp.less_iff_lt.mp newer).le⟩
    · exact ⟨cur, rfl, older⟩

theorem newest_foldl {responses : List (Option Envelope)} {newest : Option Envelope}
    (seen : (∃ cur, newest = some cur ∧ e.timestamp ≤ cur.timestamp) ∨ some e ∈ responses) :
    ∃ cur, responses.foldl keepNewer newest = some cur ∧ e.timestamp ≤ cur.timestamp := by
  induction responses generalizing newest with
  | nil =>
    rcases seen with kept | absent
    · exact kept
    · cases absent
  | cons response rest ih =>
    apply ih
    rcases seen with kept | listed
    · exact .inl (newest_step response kept)
    rcases mem_cons.mp listed with rfl | later
    · left
      cases newest with
      | none => exact ⟨e, rfl, le_rfl⟩
      | some cur =>
        rw [keepNewer]
        split
        · exact ⟨e, rfl, le_rfl⟩
        rename_i newer
        rw [Bool.not_eq_true, Timestamp.less_eq_false_iff_le] at newer
        exact ⟨cur, rfl, newer⟩
    · exact .inr later

/-- The selected response is not older than any of the responses. -/
theorem selectNewest_newest {responses : List (Option Envelope)} (mem : some e ∈ responses) :
    ∃ cur, selectNewest responses = some cur ∧ e.timestamp ≤ cur.timestamp :=
  newest_foldl (.inr mem)

end Theseon.Cluster
