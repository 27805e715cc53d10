import Theseon.AntiEntropy.Tree
import Theseon.Cluster.Membership
import Theseon.Cluster.Replica
import Theseon.Hashring.Walk

/-!
# A reconcile round

The initiator compares its tree with the peer's, and merges the entries of every
divergent bucket with those that the peer streams.  Where a key is missing on one
side, or older, that side is sent the envelope of the other.

Both sides leave out the entries that are younger than a cutoff.  The merge cannot
tell an entry that was left out from one that does not exist, and the replica that
receives an envelope puts it without a comparison.
-/

namespace Theseon.AntiEntropy

open Lib HLC Cluster
open Theseon.Hashring (Ring)

/-! ## The entries of a node -/

/-- Both nodes are among the replicas of the key. -/
def shouldReconcile (sum64 : Bytes → UInt64) (ring : Ring) (key : Bytes) (selfID peerID : NodeID)
    (n : Nat) : Bool :=
  let owners := ring.getNodes sum64 key n
  (owners.any fun o => o.id = selfID) && owners.any fun o => o.id ≠ selfID ∧ o.id = peerID

/-- The peers that share a replica set with the node. -/
def ownedPeers (ring : Ring) (selfID : NodeID) (n : Nat) : List NodeID :=
  ring.coReplicas selfID n

/-- Replicas of a key are co-replicas.  If no two points share a hash, co-replicas are
replicas of the keys of some hash. -/
theorem coReplicas_exact (sum64 : Bytes → UInt64) (ring : Ring) (n : Nat) :
    (∀ (key : Bytes) (a b : Hashring.Node), a ∈ ring.getNodes sum64 key n →
      b ∈ ring.getNodes sum64 key n → a.id ≠ b.id →
      b.id ∈ ring.coReplicas a.id n ∧ a.id ∈ ring.coReplicas b.id n) ∧
    ((ring.vnodes.map Hashring.Vnode.hash).Nodup → ∀ a p, p ∈ ring.coReplicas a n →
      (∃ h : UInt64, a ∈ (ring.getNodes (fun _ => h) [] n).map Hashring.Node.id ∧
        p ∈ (ring.getNodes (fun _ => h) [] n).map Hashring.Node.id) ∧
      a ∈ ring.coReplicas p n) ∧
    ∀ (key : Bytes) (self peer : NodeID), shouldReconcile sum64 ring key self peer n = true →
      peer ∈ ownedPeers ring self n := by
  refine ⟨?_, ?_, ?_⟩
  · intro key a b aMem bMem ne
    exact ⟨Ring.mem_coReplicas_of_getNodes aMem bMem ne,
      Ring.mem_coReplicas_of_getNodes bMem aMem ne.symm⟩
  · intro distinct a p pMem
    rcases Ring.mem_coReplicas.mp pMem with ⟨ne, idx, inside, aIn, pIn⟩
    refine ⟨⟨ring.vnodes[idx].hash, ?_⟩, Ring.mem_coReplicas.mpr ⟨ne.symm, idx, inside, pIn, aIn⟩⟩
    rw [Ring.map_id_getNodes, ← Ring.rotate_eq_clockwise distinct inside]
    exact ⟨aIn, pIn⟩
  · intro key self peer shared
    rcases Bool.and_eq_true_iff.mp shared with ⟨sawSelf, sawPeer⟩
    rcases List.any_eq_true.mp sawSelf with ⟨a, aMem, isSelf⟩
    rcases List.any_eq_true.mp sawPeer with ⟨b, bMem, isPeer⟩
    rcases of_decide_eq_true isPeer with ⟨ne, rfl⟩
    cases of_decide_eq_true isSelf
    exact Ring.mem_coReplicas_of_getNodes aMem bMem ne.symm

/-- The entries of the keys that two nodes own together, in the order of the scan. -/
def sourceEntries (owned : Bytes → Bool) : List (Bytes × Bytes) → Except EnvelopeError (List Entry)
  | [] => .ok []
  | (key, value) :: rest =>
    if owned key = false then sourceEntries owned rest
    -- a tombstone of the engine
    else if value = [] then sourceEntries owned rest
    else
      match decodeEnvelope value with
      | .error err => .error err
      | .ok env =>
        match sourceEntries owned rest with
        | .error err => .error err
        | .ok entries => .ok (⟨key, env.timestamp, env.deleted⟩ :: entries)

inductive SourceError where
  | tree (err : TreeError)
  | bucketRange (bucket numLeaves : Nat)
  | decode (err : EnvelopeError)
  deriving DecidableEq, Repr

section Sources

variable (sum64 : Bytes → UInt64) (owned : Bytes → Bool) (r : Replica)

/-- The tree of a replica. -/
def buildTree (graceCutoffWall : Int64) (fanout depth : Nat) : Except SourceError Tree :=
  match sourceEntries owned r.store.toList with
  | .error err => .error (.decode err)
  | .ok entries =>
    match Tree.build sum64 entries graceCutoffWall fanout depth with
    | .error err => .error (.tree err)
    | .ok t => .ok t

/-- The entries of a bucket that are older than the cutoff. -/
def bucketEntries (fanout depth bucket : Nat) (graceCutoff : Int64) :
    Except SourceError (List Entry) :=
  match Tree.new fanout depth with
  | .error err => .error (.tree err)
  | .ok t =>
    if t.numLeaves ≤ bucket then .error (.bucketRange bucket t.numLeaves)
    else
      match sourceEntries owned r.store.toList with
      | .error err => .error (.decode err)
      | .ok entries =>
        .ok (entries.filter fun e =>
          t.bucketFor sum64 e.key = bucket ∧ e.timestamp.wallTime < graceCutoff)

end Sources

/-! ## The peer -/

/-- What a request says about the round.  The sizes travel as 32-bit numbers. -/
structure KeyspaceDigest where
  ringVersion : UInt64
  initiatorID : NodeID
  targetID : NodeID
  depth : UInt32
  fanout : UInt32
  graceCutoffWall : Int64
  replicationFactor : Int32
  deriving DecidableEq, Repr

/-- The endpoint that is not the given node. -/
def KeyspaceDigest.otherFrom (d : KeyspaceDigest) (selfID : NodeID) : NodeID :=
  if selfID = d.initiatorID then d.targetID
  else if selfID = d.targetID then d.initiatorID
  else []

inductive ServiceError where
  | endpointsRequired
  | fanoutDepthInvalid
  | notAnEndpoint
  | ringVersionMismatch
  | pathLength
  | source (err : SourceError)
  | children (err : TreeError)
  deriving DecidableEq, Repr

/-- The server side.  Its replica is passed to every call. -/
structure Service where
  selfID : NodeID
  ring : Ring
  ringVersion : UInt64
  defaultRF : Nat

namespace Service

variable (sum64 : Bytes → UInt64) (s : Service) (r : Replica)

/-- Check a digest; the result is the replication factor and the other endpoint. -/
def validateDigest (d : KeyspaceDigest) : Except ServiceError (Nat × NodeID) :=
  if d.initiatorID = [] ∨ d.targetID = [] then .error .endpointsRequired
  else if d.fanout < 2 ∨ d.depth < 1 then .error .fanoutDepthInvalid
  else if d.otherFrom s.selfID = [] then .error .notAnEndpoint
  else if d.ringVersion ≠ s.ringVersion then .error .ringVersionMismatch
  else
    .ok (if d.replicationFactor ≤ 0 then s.defaultRF else d.replicationFactor.toNatClampNeg,
      d.otherFrom s.selfID)

/-- The keys that the service takes to be owned by both endpoints. -/
def owned (checked : Nat × NodeID) (key : Bytes) : Bool :=
  shouldReconcile sum64 s.ring key s.selfID checked.2 checked.1

def buildTreeFor (d : KeyspaceDigest) : Except ServiceError Tree :=
  match s.validateDigest d with
  | .error err => .error err
  | .ok checked =>
    match buildTree sum64 (s.owned sum64 checked) r d.graceCutoffWall d.fanout.toNat
        d.depth.toNat with
    | .error err => .error (.source err)
    | .ok t => .ok t

def computeAERoot (d : KeyspaceDigest) : Except ServiceError UInt64 :=
  match s.buildTreeFor sum64 r d with
  | .error err => .error err
  | .ok t => .ok t.root

def getAESubtree (d : KeyspaceDigest) (path : List Nat) : Except ServiceError (List UInt64) :=
  match s.buildTreeFor sum64 r d with
  | .error err => .error err
  | .ok t =>
    if t.depth ≤ path.length then .error .pathLength
    else
      match t.childrenAt path with
      | .error err => .error (.children err)
      | .ok children => .ok children

def getAELeafKeys (d : KeyspaceDigest) (bucketIndex : UInt32) : Except ServiceError (List Entry) :=
  match s.validateDigest d with
  | .error err => .error err
  | .ok checked =>
    match bucketEntries sum64 (s.owned sum64 checked) r d.fanout.toNat d.depth.toNat
        bucketIndex.toNat d.graceCutoffWall with
    | .error err => .error (.source err)
    | .ok entries => .ok entries

end Service

/-! ## The initiator -/

/-- The fixed data of a round. -/
structure Reconciler where
  selfID : NodeID
  peerID : NodeID
  ring : Ring
  fanout : Nat
  depth : Nat
  maxRepairPerRound : Nat
  ringVersion : UInt64
  replicationFactor : Nat

/-- The clocks that a round reads: the cutoff of the digest, the cutoff at which each
bucket is drained, and the peer's clock when a batch of a bucket arrives. -/
structure Times where
  digest : Int64
  drain : Nat → Int64
  peer : Nat → Nat → Int64

inductive ReconcileError where
  | buildLocalTree (err : SourceError)
  | computeAERoot (err : ServiceError)
  | descent (err : DescentError ServiceError)
  | drainLocalBucket (err : SourceError)
  | getAELeafKeys (bucket : Nat) (err : ServiceError)
  | push (err : ReplicaError)
  | decodePush (err : EnvelopeError)
  | pullRead (err : ReplicaError)
  | pullRepair (err : ReplicaError)
  deriving DecidableEq, Repr

/-- The two replicas of a round. -/
structure Replicas where
  self : Replica
  peer : Replica

/-- The two replicas with the requests that are not sent yet and the number of keys
repaired. -/
structure Progress extends Replicas where
  pushBatch : List WriteRequest
  repaired : Nat

/-- The largest batch. -/
def pushBatchSize : Nat := 256

/-- The progress of a loop, and the error that has ended it. -/
abbrev Outcome := Progress × Except ReconcileError Unit

namespace Progress

/-- Send the batch.  `peerTime` is the peer's clock, given the number of keys
repaired. -/
def flushPush (peerTime : Nat → Int64) (p : Progress) : Outcome :=
  if p.pushBatch = [] then (p, .ok ())
  else
    match p.peer.replicateWriteBatch (peerTime p.repaired) p.pushBatch with
    | (peer, .error err) => ({ p with peer := peer }, .error (.push err))
    | (peer, .ok ()) => ({ p with peer := peer, pushBatch := [] }, .ok ())

/-- Add the own envelope of a key to the batch. -/
def pushLocal (peerTime : Nat → Int64) (p : Progress) (key : Bytes) : Outcome :=
  match p.self.store[key]? with
  | none => (p, .ok ())
  | some value =>
    match decodeEnvelope value with
    | .error err => (p, .error (.decodePush err))
    | .ok env =>
      let batched : Progress :=
        { p with
          pushBatch := p.pushBatch ++ [⟨key, env.value, some env.timestamp, env.deleted⟩]
          repaired := p.repaired + 1 }
      if pushBatchSize ≤ batched.pushBatch.length then batched.flushPush peerTime
      else (batched, .ok ())

/-- Fetch the peer's envelope of a key and put it. -/
def pullFromPeer (p : Progress) (key : Bytes) : Outcome :=
  match p.peer.replicateRead key with
  | .error err => (p, .error (.pullRead err))
  | .ok none => (p, .ok ())
  | .ok (some env) =>
    match p.self.applyRepair key env with
    | (self, .error err) => ({ p with self := self }, .error (.pullRepair err))
    | (self, .ok ()) => ({ p with self := self, repaired := p.repaired + 1 }, .ok ())

end Progress

/-- Continue unless an error has occurred. -/
def Outcome.andThen (o : Outcome) (next : Progress → Outcome) : Outcome :=
  match o with
  | (p, .error err) => (p, .error err)
  | (p, .ok ()) => next p

/-- Merge the own entries of a bucket with the peer's.  Every round takes at least
one entry, so `rounds` bounds their number. -/
def mergeEntries (peerTime : Nat → Int64) (repairBudget : Nat) :
    (rounds : Nat) → List Entry → List Entry → Progress → Outcome
  | 0, _, _, p => (p, .ok ())
  | rounds + 1, locals, peers, p =>
    if repairBudget ≤ p.repaired then (p, .ok ())
    else
      match locals, peers with
      | [], [] => (p, .ok ())
      | [], e :: peers =>
        (p.pullFromPeer e.key).andThen (mergeEntries peerTime repairBudget rounds [] peers)
      | e :: locals, [] =>
        (p.pushLocal peerTime e.key).andThen
          (mergeEntries peerTime repairBudget rounds locals [])
      | l :: locals, e :: peers =>
        if l.key = e.key then
          (if l.timestamp.less e.timestamp then p.pullFromPeer e.key
            else if e.timestamp.less l.timestamp then p.pushLocal peerTime l.key
            else (p, .ok ())).andThen
            (mergeEntries peerTime repairBudget rounds locals peers)
        else if l.key < e.key then
          (p.pushLocal peerTime l.key).andThen
            (mergeEntries peerTime repairBudget rounds locals (e :: peers))
        else
          (p.pullFromPeer e.key).andThen
            (mergeEntries peerTime repairBudget rounds (l :: locals) peers)

namespace Reconciler

variable (sum64 : Bytes → UInt64) (c : Reconciler) (s : Service) (times : Times)

def digest : KeyspaceDigest where
  ringVersion := c.ringVersion
  initiatorID := c.selfID
  targetID := c.peerID
  depth := UInt32.ofNat c.depth
  fanout := UInt32.ofNat c.fanout
  graceCutoffWall := times.digest
  replicationFactor := Int32.ofNat c.replicationFactor

/-- The keys that the initiator takes to be owned by both endpoints. -/
def owned (key : Bytes) : Bool :=
  shouldReconcile sum64 c.ring key c.selfID c.peerID c.replicationFactor

def drainLocalBucket (r : Replica) (bucket : Nat) : Except SourceError (List Entry) :=
  bucketEntries sum64 (c.owned sum64) r c.fanout c.depth bucket (times.drain bucket)

/-- The first three phases: the divergent buckets. -/
def divergentBuckets (rs : Replicas) : Except ReconcileError (List Nat) :=
  match buildTree sum64 (c.owned sum64) rs.self times.digest c.fanout c.depth with
  | .error err => .error (.buildLocalTree err)
  | .ok t =>
    match s.computeAERoot sum64 rs.peer (c.digest times) with
    | .error err => .error (.computeAERoot err)
    | .ok root =>
      if root = t.root then .ok []
      else
        match findDivergentBuckets (s.getAESubtree sum64 rs.peer (c.digest times)) t with
        | .error err => .error (.descent err)
        | .ok buckets => .ok buckets

/-- Repair the keys of a bucket, at most `repairBudget` of them. -/
def reconcileBucket (rs : Replicas) (bucket repairBudget : Nat) : Outcome :=
  if repairBudget = 0 then (⟨rs, [], 0⟩, .ok ())
  else
    match c.drainLocalBucket sum64 times rs.self bucket with
    | .error err => (⟨rs, [], 0⟩, .error (.drainLocalBucket err))
    | .ok locals =>
      match s.getAELeafKeys sum64 rs.peer (c.digest times) (UInt32.ofNat bucket) with
      | .error err => (⟨rs, [], 0⟩, .error (.getAELeafKeys bucket err))
      | .ok peers =>
        (mergeEntries (times.peer bucket) repairBudget (locals.length + peers.length) locals
          peers ⟨rs, [], 0⟩).andThen fun p => p.flushPush (times.peer bucket)

/-- The fourth phase.  The result is the number of keys repaired, with the error that
has ended the round. -/
def reconcileBuckets :
    List Nat → Nat → Replicas → Replicas × Nat × Except ReconcileError Unit
  | [], keysRepaired, rs => (rs, keysRepaired, .ok ())
  | bucket :: rest, keysRepaired, rs =>
    if c.maxRepairPerRound ≤ keysRepaired then (rs, keysRepaired, .ok ())
    else
      match c.reconcileBucket sum64 s times rs bucket (c.maxRepairPerRound - keysRepaired) with
      | (p, .error err) => (p.toReplicas, keysRepaired + p.repaired, .error err)
      | (p, .ok ()) => reconcileBuckets rest (keysRepaired + p.repaired) p.toReplicas

/-- One round. -/
def run (rs : Replicas) : Replicas × Nat × Except ReconcileError Unit :=
  match c.divergentBuckets sum64 s times rs with
  | .error err => (rs, 0, .error err)
  | .ok buckets => c.reconcileBuckets sum64 s times buckets 0 rs

end Reconciler

end Theseon.AntiEntropy
