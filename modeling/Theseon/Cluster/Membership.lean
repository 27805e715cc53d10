import Theseon.Lib.Bytes
import Theseon.Lib.KeyedMap

/-!
# What a node knows about the cluster

Every node keeps a table of the members with their liveness, which the probes and
the gossip change, and a versioned descriptor of the ring, which only the
administrative calls change.  A descriptor that arrives by gossip replaces the own
one when its version is greater.

The functions are those that run under the lock of the membership.  The
retransmit buffer is left open: a message may carry any updates.
-/

namespace Theseon.Cluster

open Lib
open Std (ExtTreeMap ExtTreeSet)

/-- The name of a node. -/
abbrev NodeID := Bytes

/-- Reachability as detected by the probes. -/
inductive LivenessState where
  | alive
  | suspect
  | dead
  deriving DecidableEq, Repr

/-- The later states win over the earlier ones. -/
def LivenessState.rank : LivenessState → Nat
  | .alive => 0
  | .suspect => 1
  | .dead => 2

/-- The role of a node in the ring. -/
inductive RingState where
  | none
  | joining
  | active
  deriving DecidableEq, Repr

structure MemberState where
  nodeID : NodeID
  addr : Bytes
  liveness : LivenessState
  ring : RingState
  incarnation : UInt64
  deriving DecidableEq, Repr

structure RingMember where
  nodeID : NodeID
  addr : Bytes
  state : RingState
  deriving DecidableEq, Repr

/-- A versioned snapshot of the ring. -/
structure RingDescriptor where
  version : UInt64
  members : List RingMember
  deriving DecidableEq, Repr

namespace RingDescriptor

/-- The first entry of the node. -/
def find? (rd : RingDescriptor) (nodeID : NodeID) : Option RingMember :=
  rd.members.find? fun rm => rm.nodeID = nodeID

/-- The state of the last entry of the node, which is the one that a map filled
from the front keeps. -/
def lastState (rd : RingDescriptor) (nodeID : NodeID) : RingState :=
  ((rd.members.reverse.find? fun rm => rm.nodeID = nodeID).map RingMember.state).getD .none

end RingDescriptor

/-- A liveness transition, for the callback. -/
structure LivenessEvent where
  nodeID : NodeID
  before : LivenessState
  after : LivenessState
  deriving DecidableEq, Repr

/-- The state behind the lock. -/
structure Membership where
  selfID : NodeID
  members : ExtTreeMap NodeID MemberState
  /-- The nodes whose suspicion is being timed. -/
  suspectTimers : ExtTreeSet NodeID
  deadSince : ExtTreeMap NodeID Nat
  ringDesc : RingDescriptor

/-- A ping, an acknowledgement, or one half of a full exchange. -/
structure PingMessage where
  updates : List MemberState
  ringDesc : Option RingDescriptor
  deriving DecidableEq, Repr

namespace Membership

/-- A node that knows only itself. -/
def new (selfID addr : Bytes) : Membership where
  selfID := selfID
  members := (∅ : ExtTreeMap NodeID MemberState).insert selfID ⟨selfID, addr, .alive, .none, 1⟩
  suspectTimers := ∅
  deadSince := ∅
  ringDesc := ⟨0, []⟩

/-! ## Queries -/

def isRoutable (m : Membership) (nodeID : NodeID) : Bool :=
  match m.members[nodeID]? with
  | some ms => ms.liveness ≠ .dead
  | none => false

def ringStateOf (m : Membership) (nodeID : NodeID) : RingState :=
  match m.members[nodeID]? with
  | some ms => ms.ring
  | none => .none

/-- The address of a node, empty if the node is unknown. -/
def addrOf (m : Membership) (nodeID : NodeID) : Bytes :=
  match m.members[nodeID]? with
  | some ms => ms.addr
  | none => []

/-! ## The ring descriptor -/

/-- Install a descriptor and give every member its state there. -/
def applyRingDescLocked (m : Membership) (rd : RingDescriptor) : Membership :=
  { m with
    members := m.members.map fun nodeID ms => { ms with ring := rd.lastState nodeID }
    ringDesc := rd }

/-- Install a descriptor if it is newer.  The second component is the descriptor
for which the ring callback is started once the lock is released. -/
def applyRingDescriptor (m : Membership) (rd : RingDescriptor) :
    Membership × Option RingDescriptor :=
  if rd.version ≤ m.ringDesc.version then (m, none) else (m.applyRingDescLocked rd, some rd)

def ringStateFromDescriptor (m : Membership) (nodeID : NodeID) : RingState :=
  ((m.ringDesc.find? nodeID).map RingMember.state).getD .none

/-! ## Gossip -/

def setLivenessLocked (m : Membership) (now : Nat) (nodeID : NodeID) (next : LivenessState) :
    Membership × Option LivenessEvent :=
  match m.members[nodeID]? with
  | none => (m, none)
  | some ms =>
    if ms.liveness = next then (m, none)
    else
      ({ m with
          members := m.members.insert nodeID { ms with liveness := next }
          deadSince :=
            if next = .dead then m.deadSince.insert nodeID now else m.deadSince.erase nodeID
          suspectTimers :=
            if ms.liveness = .suspect then m.suspectTimers.erase nodeID else m.suspectTimers },
        some ⟨nodeID, ms.liveness, next⟩)

/-- Merge what another node says about a member.  The ring state is never taken
from gossip. -/
def mergeLocked (m : Membership) (now : Nat) (remote : MemberState) :
    Membership × Option LivenessEvent :=
  match m.members[remote.nodeID]? with
  | none =>
    ({ m with
        members := m.members.insert remote.nodeID
          { remote with ring := m.ringStateFromDescriptor remote.nodeID }
        deadSince :=
          if remote.liveness = .dead then m.deadSince.insert remote.nodeID now
          else m.deadSince },
      none)
  | some own =>
    if remote.nodeID = m.selfID ∧ remote.liveness ≠ .alive then
      -- somebody suspects this node: refute
      if own.incarnation ≤ remote.incarnation then
        ({ m with
            members := m.members.insert remote.nodeID
              { own with incarnation := remote.incarnation + 1, liveness := .alive } },
          none)
      else (m, none)
    else if own.incarnation < remote.incarnation then
      let merged : Membership :=
        { m with
          members := m.members.insert remote.nodeID
            { remote with ring := own.ring, liveness := own.liveness } }
      if remote.liveness ≠ own.liveness then
        merged.setLivenessLocked now remote.nodeID remote.liveness
      else (merged, none)
    else if remote.incarnation = own.incarnation ∧ own.liveness.rank < remote.liveness.rank then
      m.setLivenessLocked now remote.nodeID remote.liveness
    else (m, none)

/-- Merge all updates of a message, in order. -/
def mergeAll (m : Membership) (now : Nat) : List MemberState → Membership × List LivenessEvent
  | [] => (m, [])
  | update :: rest =>
    let (merged, event) := m.mergeLocked now update
    let (final, events) := merged.mergeAll now rest
    (final, event.toList ++ events)

/-- What `HandlePing`, `HandleGossipSync` and the receipt of their replies have in
common: the updates are merged and a newer descriptor is installed. -/
def receive (m : Membership) (now : Nat) (msg : PingMessage) : Membership × Option RingDescriptor :=
  match msg.ringDesc with
  | none => ((m.mergeAll now msg.updates).1, none)
  | some rd => (m.mergeAll now msg.updates).1.applyRingDescriptor rd

/-- The answer to a ping or to an exchange, under the same lock. -/
def reply (m : Membership) (updates : List MemberState) : PingMessage :=
  ⟨updates, some m.ringDesc⟩

/-! ## Probes -/

/-- A direct or indirect ping has been acknowledged. -/
def probeSucceeded (m : Membership) (now : Nat) (target : NodeID) : Membership :=
  match m.members[target]? with
  | some ms => if ms.liveness = .suspect then (m.setLivenessLocked now target .alive).1 else m
  | none => m

/-- All pings have failed. -/
def probeFailed (m : Membership) (now : Nat) (target : NodeID) : Membership :=
  match m.members[target]? with
  | some ms =>
    if ms.liveness = .alive then
      { (m.setLivenessLocked now target .suspect).1 with
        suspectTimers := m.suspectTimers.insert target }
    else m
  | none => m

/-- The timer of a suspicion fires. -/
def suspectTimeout (m : Membership) (now : Nat) (nodeID : NodeID) : Membership :=
  match m.members[nodeID]? with
  | some ms => if ms.liveness = .suspect then (m.setLivenessLocked now nodeID .dead).1 else m
  | none => m

/-- The node has been dead for long enough to be forgotten. -/
def expired (m : Membership) (now timeout : Nat) (nodeID : NodeID) : Bool :=
  match m.deadSince[nodeID]? with
  | some deadAt => timeout ≤ now - deadAt
  | none => false

/-- Forget the nodes that are dead and not in the ring. -/
def reapDeadNodes (m : Membership) (now timeout : Nat) : Membership :=
  if timeout = 0 then m
  else
    { m with
      members := m.members.filter fun nodeID ms =>
        !(m.expired now timeout nodeID && ms.liveness = .dead && ms.ring = .none)
      deadSince := m.deadSince.filter fun nodeID _ =>
        !(m.expired now timeout nodeID &&
          match m.members[nodeID]? with
          | some ms => ms.liveness = .dead && ms.ring = .none
          | none => true) }

/-! ## The descriptor under the other operations -/

variable {m : Membership} {now : Nat}

@[simp]
theorem setLivenessLocked_ringDesc (nodeID : NodeID) (next : LivenessState) :
    (m.setLivenessLocked now nodeID next).1.ringDesc = m.ringDesc := by
  rw [setLivenessLocked]
  split
  · rfl
  split
  · rfl
  · rfl

@[simp]
theorem mergeLocked_ringDesc (remote : MemberState) :
    (m.mergeLocked now remote).1.ringDesc = m.ringDesc := by
  rw [mergeLocked]
  split
  · rfl
  split
  · split
    · rfl
    · rfl
  split
  · dsimp only
    split
    · exact setLivenessLocked_ringDesc _ _
    · rfl
  split
  · exact setLivenessLocked_ringDesc _ _
  · rfl

@[simp]
theorem mergeAll_ringDesc (updates : List MemberState) :
    (m.mergeAll now updates).1.ringDesc = m.ringDesc := by
  induction updates generalizing m with
  | nil => rfl
  | cons update rest ih => exact ih.trans (mergeLocked_ringDesc update)

/-- The steps of the probes. -/
inductive Probing where
  | succeeded (target : NodeID)
  | failed (target : NodeID)
  | timeout (nodeID : NodeID)
  | reap (timeout : Nat)

/-- Carry out a step of the probes. -/
def probing (m : Membership) (now : Nat) : Probing → Membership
  | .succeeded target => m.probeSucceeded now target
  | .failed target => m.probeFailed now target
  | .timeout nodeID => m.suspectTimeout now nodeID
  | .reap timeout => m.reapDeadNodes now timeout

/-- The probes never touch the descriptor. -/
@[simp]
theorem probing_ringDesc (p : Probing) : (m.probing now p).ringDesc = m.ringDesc := by
  cases p with
  | succeeded target =>
    rw [probing, probeSucceeded]
    split
    · split
      · exact setLivenessLocked_ringDesc _ _
      · rfl
    · rfl
  | failed target =>
    rw [probing, probeFailed]
    split
    · split
      · exact setLivenessLocked_ringDesc _ _
      · rfl
    · rfl
  | timeout nodeID =>
    rw [probing, suspectTimeout]
    split
    · split
      · exact setLivenessLocked_ringDesc _ _
      · rfl
    · rfl
  | reap timeout =>
    rw [probing, reapDeadNodes]
    split
    · rfl
    · rfl

/-- What an operation does to the descriptor of the membership, and for which
descriptor it starts a callback. -/
inductive Installs (before after : RingDescriptor) : Option RingDescriptor → Prop where
  | kept (same : after = before) : Installs before after none
  | replaced (newer : before.version < after.version) : Installs before after (some after)

theorem Installs.version_le {before after : RingDescriptor} {change : Option RingDescriptor}
    (installs : Installs before after change) : before.version ≤ after.version := by
  cases installs with
  | kept same => exact same ▸ UInt64.le_refl _
  | replaced newer => exact UInt64.le_of_lt newer

theorem installs_applyRingDescriptor (rd : RingDescriptor) :
    Installs m.ringDesc (m.applyRingDescriptor rd).1.ringDesc (m.applyRingDescriptor rd).2 := by
  rw [applyRingDescriptor]
  split
  · exact .kept rfl
  · rename_i newer
    exact .replaced (UInt64.not_le.mp newer)

variable {rd : RingDescriptor}

theorem newer_of_applied {rd' : RingDescriptor}
    (applied : (m.applyRingDescriptor rd).2 = some rd') :
    rd = rd' ∧ m.ringDesc.version < rd.version := by
  rw [applyRingDescriptor] at applied
  split at applied
  · cases applied
  · rename_i newer
    exact ⟨Option.some.inj applied, UInt64.not_le.mp newer⟩

theorem applyRingDescriptor_of_newer (newer : m.ringDesc.version < rd.version) :
    m.applyRingDescriptor rd = (m.applyRingDescLocked rd, some rd) :=
  if_neg (UInt64.not_le.mpr newer)

theorem installs_receive (msg : PingMessage) :
    Installs m.ringDesc (m.receive now msg).1.ringDesc (m.receive now msg).2 := by
  rw [receive]
  split
  · exact .kept (mergeAll_ringDesc msg.updates)
  rename_i rd carried
  rw [← @mergeAll_ringDesc m now msg.updates]
  exact installs_applyRingDescriptor rd

/-- Only the descriptor of the message can be installed. -/
theorem carried_of_receive {msg : PingMessage} (installed : (m.receive now msg).2 = some rd) :
    msg.ringDesc = some rd := by
  rw [receive] at installed
  split at installed
  · cases installed
  · rename_i carried same
    rw [same, (newer_of_applied installed).1]

end Membership

end Theseon.Cluster
