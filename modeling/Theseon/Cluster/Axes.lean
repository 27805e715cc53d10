import Theseon.Cluster.GossipOrder
import Theseon.Lib.Machine
import Theseon.Lib.Sorter

/-!
# Liveness and ring state stay consistent

Gossip, descriptors, probes, the timers of the suspicions and the reaping change the
table of the members in any order.  Liveness and ring state are separate axes: the
first is never taken from a descriptor, and the second never from gossip, so a member
has the ring state that the present descriptor gives it, whether it was known before
the descriptor arrived or became known later.
-/

namespace Theseon.Cluster

open Lib List
open Std (ExtTreeMap)

namespace RingDescriptor

/-- The members have distinct names. -/
def Distinct (rd : RingDescriptor) : Prop :=
  (rd.members.map RingMember.nodeID).Nodup

instance (rd : RingDescriptor) : Decidable rd.Distinct :=
  inferInstanceAs (Decidable (List.Nodup _))

/-- The state that the descriptor gives a node. -/
def stateOf (rd : RingDescriptor) (nodeID : NodeID) : RingState :=
  ((rd.find? nodeID).map RingMember.state).getD .none

/-- With distinct names the entry of a node is the only one. -/
theorem find?_eq_some_of_nodup {members : List RingMember} {nodeID : NodeID} {rm : RingMember}
    (distinct : (members.map RingMember.nodeID).Nodup) :
    members.find? (fun rm => rm.nodeID = nodeID) = some rm ↔
      rm ∈ members ∧ rm.nodeID = nodeID := by
  constructor
  · exact fun found => ⟨mem_of_find?_eq_some found, by simpa using find?_some found⟩
  · rintro ⟨mem, named⟩
    cases found : members.find? fun rm => rm.nodeID = nodeID with
    | none => exact absurd (decide_eq_true named) (find?_eq_none.mp found rm mem)
    | some other =>
      have same : other.nodeID = nodeID := by simpa using find?_some found
      rw [inj_on_of_nodup_map distinct (mem_of_find?_eq_some found) mem (same.trans named.symm)]

theorem lastState_eq_stateOf {rd : RingDescriptor} (distinct : rd.Distinct) (nodeID : NodeID) :
    rd.lastState nodeID = rd.stateOf nodeID := by
  have reversed : (rd.members.reverse.map RingMember.nodeID).Nodup := by
    rw [map_reverse]
    exact nodup_reverse.mpr distinct
  rw [lastState, stateOf, find?]
  congr 2
  apply Option.ext
  intro rm
  rw [find?_eq_some_of_nodup distinct, find?_eq_some_of_nodup reversed, mem_reverse]

end RingDescriptor

/-- What can happen to the table of the members under the lock. -/
inductive MembershipAction where
  /-- A ping, an exchange or an answer is received. -/
  | receive (now : Nat) (msg : PingMessage)
  | apply (rd : RingDescriptor)
  | probing (now : Nat) (p : Membership.Probing)

namespace Membership

variable {m next : Membership} {now : Nat}

def step (m : Membership) : MembershipAction → Option Membership
  | .receive now msg => some (m.receive now msg).1
  | .apply rd => some (m.applyRingDescriptor rd).1
  | .probing now p => some (m.probing now p)

/-- The descriptors have members with distinct names, and the target of a probe is
another node (`Prober.reached_membership`). -/
def Permitted (m : Membership) : MembershipAction → Prop
  | .receive _ msg => ∀ rd ∈ msg.ringDesc, rd.Distinct
  | .apply rd => rd.Distinct
  | .probing _ (.failed target) => target ≠ m.selfID
  | .probing _ _ => True

instance permittedDecidable (m : Membership) (a : MembershipAction) :
    Decidable (m.Permitted a) := by
  unfold Permitted
  split <;> infer_instance

/-! ## The invariant -/

structure Consistent (selfID : NodeID) (m : Membership) : Prop where
  identity : m.selfID = selfID
  distinct : m.ringDesc.Distinct
  entries : ∀ nodeID ms, m.members[nodeID]? = some ms →
    ms.nodeID = nodeID ∧ ms.ring = m.ringDesc.stateOf nodeID
  dead : ∀ nodeID, m.Tracked nodeID
  self : ∃ ms, m.members[selfID]? = some ms ∧ ms.liveness = .alive

variable {selfID : NodeID}

theorem consistent_new (selfID addr : Bytes) : (Membership.new selfID addr).Consistent selfID where
  identity := rfl
  distinct := nodup_nil
  entries := forall_insert (by simp) ⟨rfl, rfl⟩
  dead := forall_insert (by simp) (by rintro ⟨⟩)
  self := ⟨_, ExtTreeMap.getElem?_insert_self, rfl⟩

variable {nodeID : NodeID} {ms : MemberState}

section

variable (consistent : m.Consistent selfID)

include consistent

/-- A new entry has the name and the ring state of its node, and that of the node itself
is alive. -/
theorem Consistent.edits (edits : Edits m next nodeID ms)
    (entry : ms.nodeID = nodeID ∧ ms.ring = m.ringDesc.stateOf nodeID)
    (alive : nodeID = selfID → ms.liveness = .alive) :
    next.Consistent selfID where
  identity := edits.selfID.trans consistent.identity
  distinct := edits.ringDesc ▸ consistent.distinct
  entries other found isFound := by
    rw [edits.ringDesc]
    by_cases same : other = nodeID
    · subst same
      rw [edits.entry] at isFound
      cases isFound
      exact entry
    · rw [edits.others other same] at isFound
      exact consistent.entries other found isFound
  dead other := edits.tracked (consistent.dead other)
  self := by
    by_cases same : selfID = nodeID
    · exact ⟨ms, same ▸ edits.entry, alive same.symm⟩
    · rw [edits.others selfID same]
      exact consistent.self

theorem Consistent.setLivenessLocked {liveness : LivenessState}
    (alive : nodeID = selfID → liveness = .alive) :
    (m.setLivenessLocked now nodeID liveness).1.Consistent selfID := by
  cases found : m.members[nodeID]? with
  | none =>
    simp only [Membership.setLivenessLocked, found]
    exact consistent
  | some ms =>
    apply consistent.edits (edits_setLivenessLocked found (consistent.dead nodeID) liveness)
    · exact consistent.entries nodeID ms found
    · exact alive

/-- The entry of the node itself is alive. -/
theorem Consistent.alive_of_self (found : m.members[nodeID]? = some ms) (self : nodeID = selfID) :
    ms.liveness = .alive := by
  rcases consistent.self with ⟨own, isOwn, alive⟩
  rw [self, isOwn] at found
  cases found
  exact alive

theorem Consistent.mergeLocked (remote : MemberState) :
    (m.mergeLocked now remote).1.Consistent selfID := by
  rcases @edits_mergeLocked m now remote (consistent.dead remote.nodeID) with ⟨ms, edits, merged⟩
  apply consistent.edits edits
  · cases merged with
    | learned unknown => exact ⟨rfl, rfl⟩
    | @refuted own found self => exact consistent.entries _ own found
    | outdated found self => exact consistent.entries _ _ found
    | @newer own found free above => exact ⟨rfl, (consistent.entries _ own found).2⟩
    | @worse own found free same above => exact consistent.entries _ own found
    | kept found _ _ => exact consistent.entries _ _ found
  intro self
  have isSelf := self.trans consistent.identity.symm
  cases merged with
  | learned unknown =>
    rcases consistent.self with ⟨own, isOwn, _⟩
    rw [self, isOwn] at unknown
    cases unknown
  | refuted found _ => rfl
  | outdated found _ => exact consistent.alive_of_self found self
  | newer found free above => exact free isSelf
  | worse found free same above => exact free isSelf
  | kept found _ _ => exact consistent.alive_of_self found self

theorem Consistent.mergeAll (updates : List MemberState) :
    (m.mergeAll now updates).1.Consistent selfID := by
  induction updates generalizing m with
  | nil => exact consistent
  | cons update rest ih => exact ih (consistent.mergeLocked update)

/-- A descriptor gives every member its state, known or not before. -/
theorem Consistent.applyRingDescriptor {rd : RingDescriptor} (distinct : rd.Distinct) :
    (m.applyRingDescriptor rd).1.Consistent selfID := by
  rw [Membership.applyRingDescriptor]
  split
  · exact consistent
  have entry : ∀ {nodeID : NodeID} {ms : MemberState},
      (m.applyRingDescLocked rd).members[nodeID]? = some ms →
        ∃ old, m.members[nodeID]? = some old ∧ { old with ring := rd.lastState nodeID } = ms := by
    intro nodeID ms found
    rw [applyRingDescLocked, ExtTreeMap.getElem?_map] at found
    exact Option.map_eq_some_iff.mp found
  constructor
  · exact consistent.identity
  · exact distinct
  · intro nodeID ms found
    rcases entry found with ⟨old, isOld, rfl⟩
    exact ⟨(consistent.entries nodeID old isOld).1,
      RingDescriptor.lastState_eq_stateOf distinct nodeID⟩
  · intro nodeID ms found dead
    rcases entry found with ⟨old, isOld, rfl⟩
    exact consistent.dead nodeID old isOld dead
  · rcases consistent.self with ⟨own, isOwn, alive⟩
    refine ⟨{ own with ring := rd.lastState selfID }, ?_, alive⟩
    rw [applyRingDescLocked, ExtTreeMap.getElem?_map, isOwn]
    rfl

theorem Consistent.receive {msg : PingMessage} (distinct : ∀ rd ∈ msg.ringDesc, rd.Distinct) :
    (m.receive now msg).1.Consistent selfID := by
  rw [Membership.receive]
  split
  · exact consistent.mergeAll msg.updates
  · rename_i rd carried
    exact (consistent.mergeAll msg.updates).applyRingDescriptor (distinct rd carried)

/-- Timers that are started or stopped do not matter for the table. -/
theorem Consistent.suspectTimers (timers : Std.ExtTreeSet NodeID) :
    Consistent selfID { m with suspectTimers := timers } :=
  ⟨consistent.identity, consistent.distinct, consistent.entries, consistent.dead,
    consistent.self⟩

end

/-! ## Reaping -/

/-- A member is forgotten when it has been dead for long enough and is not in the ring. -/
def Reaps (m : Membership) (now timeout : Nat) (nodeID : NodeID) (ms : MemberState) : Bool :=
  m.expired now timeout nodeID && ms.liveness = .dead && ms.ring = .none

theorem getElem?_reapDeadNodes {timeout : Nat} (on : timeout ≠ 0) (nodeID : NodeID) :
    (m.reapDeadNodes now timeout).members[nodeID]? =
      m.members[nodeID]?.filter fun ms => !m.Reaps now timeout nodeID ms := by
  rw [reapDeadNodes, if_neg on, ExtTreeMap.getElem?_filter']
  rfl

/-- What stays in the table stays known to be dead. -/
theorem mem_deadSince_reapDeadNodes {timeout : Nat} (found : m.members[nodeID]? = some ms)
    (kept : m.Reaps now timeout nodeID ms = false) (dead : nodeID ∈ m.deadSince) :
    nodeID ∈ (m.reapDeadNodes now timeout).deadSince := by
  rw [reapDeadNodes]
  split
  · exact dead
  rcases mem_iff_get?.mp dead with ⟨since, isSince⟩
  apply mem_iff_get?.mpr
  use since
  rw [ExtTreeMap.getElem?_filter', isSince, Option.filter_some, if_pos]
  simp only [found, ← Bool.and_assoc]
  rw [Reaps] at kept
  rw [kept]
  rfl

theorem Consistent.reapDeadNodes (consistent : m.Consistent selfID) (timeout : Nat) :
    (m.reapDeadNodes now timeout).Consistent selfID := by
  by_cases off : timeout = 0
  · rw [Membership.reapDeadNodes, if_pos off]
    exact consistent
  have same : (m.reapDeadNodes now timeout).selfID = m.selfID ∧
      (m.reapDeadNodes now timeout).ringDesc = m.ringDesc := by
    rw [Membership.reapDeadNodes, if_neg off]
    exact ⟨rfl, rfl⟩
  have entry : ∀ {nodeID : NodeID} {ms : MemberState},
      (m.reapDeadNodes now timeout).members[nodeID]? = some ms →
        m.members[nodeID]? = some ms ∧ m.Reaps now timeout nodeID ms = false := by
    intro nodeID ms found
    rw [getElem?_reapDeadNodes off, Option.filter_eq_some_iff] at found
    exact ⟨found.1, by simpa using found.2⟩
  constructor
  · exact same.1.trans consistent.identity
  · exact same.2 ▸ consistent.distinct
  · intro nodeID ms found
    rw [same.2]
    exact consistent.entries nodeID ms (entry found).1
  · intro nodeID ms found dead
    rcases entry found with ⟨before, kept⟩
    exact mem_deadSince_reapDeadNodes before kept (consistent.dead nodeID ms before dead)
  · rcases consistent.self with ⟨own, isOwn, alive⟩
    refine ⟨own, ?_, alive⟩
    rw [getElem?_reapDeadNodes off, isOwn, Option.filter_some, if_pos]
    simp [Reaps, alive]

/-- A member of the ring is not forgotten. -/
theorem Consistent.mem_reapDeadNodes (consistent : m.Consistent selfID)
    (placed : m.ringDesc.stateOf nodeID ≠ .none) (known : nodeID ∈ m.members) (timeout : Nat) :
    nodeID ∈ (m.reapDeadNodes now timeout).members := by
  by_cases off : timeout = 0
  · rw [Membership.reapDeadNodes, if_pos off]
    exact known
  rcases mem_iff_get?.mp known with ⟨ms, found⟩
  apply mem_iff_get?.mpr
  use ms
  rw [getElem?_reapDeadNodes off, found, Option.filter_some, if_pos]
  have ring := (consistent.entries nodeID ms found).2
  simp [Reaps, ring, placed]

/-! ## Every run -/

theorem Consistent.probing (consistent : m.Consistent selfID) {p : Probing}
    (permitted : m.Permitted (.probing now p)) : (m.probing now p).Consistent selfID := by
  cases p with
  | succeeded target =>
    rw [Membership.probing, probeSucceeded]
    split
    · split
      · exact consistent.setLivenessLocked fun _ => rfl
      · exact consistent
    · exact consistent
  | failed target =>
    rw [Membership.probing, probeFailed]
    split
    · split
      · apply Consistent.suspectTimers
        apply consistent.setLivenessLocked
        intro self
        exact absurd (self.trans consistent.identity.symm) permitted
      · exact consistent
    · exact consistent
  | timeout nodeID =>
    rw [Membership.probing, suspectTimeout]
    split
    · rename_i ms found
      split
      · rename_i suspect
        apply consistent.setLivenessLocked
        intro self
        rw [consistent.alive_of_self found self] at suspect
        cases suspect
      · exact consistent
    · exact consistent
  | reap timeout => exact consistent.reapDeadNodes timeout

theorem Consistent.step (consistent : m.Consistent selfID) {a : MembershipAction}
    (permitted : m.Permitted a) (stepped : m.step a = some next) : next.Consistent selfID := by
  cases a with
  | receive now msg =>
    cases stepped
    exact consistent.receive permitted
  | apply rd =>
    cases stepped
    exact consistent.applyRingDescriptor permitted
  | probing now p =>
    cases stepped
    exact consistent.probing permitted

theorem consistent_of_reached {addr : Bytes}
    (reached : Reached Membership.step Permitted (.new selfID addr) m) : m.Consistent selfID :=
  reached.invariant _ (consistent_new selfID addr)
    fun consistent permitted stepped => consistent.step permitted stepped

/-- No step takes the descriptor back. -/
theorem version_le_of_step {a : MembershipAction} (stepped : m.step a = some next) :
    m.ringDesc.version ≤ next.ringDesc.version := by
  cases a with
  | receive now msg =>
    cases stepped
    exact (installs_receive msg).version_le
  | apply rd =>
    cases stepped
    exact (installs_applyRingDescriptor rd).version_le
  | probing now p =>
    cases stepped
    rw [probing_ringDesc]
    exact UInt64.le_refl _

/-- In every run the members have the ring state of the present descriptor, whose
version only grows, the dead are known to be dead, the node itself is known and alive,
and the members of the ring are never forgotten. -/
theorem axes_consistent {addr : Bytes}
    (reached : Reached Membership.step Permitted (.new selfID addr) m) :
    (∀ nodeID ms, m.members[nodeID]? = some ms → ms.ring = m.ringDesc.stateOf nodeID) ∧
    (∀ a next, m.step a = some next → m.ringDesc.version ≤ next.ringDesc.version) ∧
    (∀ nodeID ms, m.members[nodeID]? = some ms → ms.liveness = .dead → nodeID ∈ m.deadSince) ∧
    (∃ ms, m.members[selfID]? = some ms ∧ ms.liveness = .alive) ∧
    (∀ now timeout nodeID,
      m.ringDesc.stateOf nodeID = .joining ∨ m.ringDesc.stateOf nodeID = .active →
        nodeID ∈ m.members → nodeID ∈ (m.reapDeadNodes now timeout).members) := by
  have consistent := consistent_of_reached reached
  refine ⟨fun nodeID ms found => (consistent.entries nodeID ms found).2,
    fun a next => version_le_of_step, consistent.dead, consistent.self, ?_⟩
  intro now timeout nodeID placed known
  apply consistent.mem_reapDeadNodes _ known
  rcases placed with joining | active
  · rw [joining]
    exact RingState.noConfusion
  · rw [active]
    exact RingState.noConfusion

end Membership

/-! ## The targets of the probes -/

/-- The table of the members with the rotation of the probes.  The number of changes,
`memberGen`, is given when a target is chosen. -/
structure Prober where
  membership : Membership
  probeOrder : List NodeID
  probeIdx : Nat
  probeOrderGen : UInt64
  /-- The targets of the probes so far. -/
  targets : List NodeID

inductive ProberAction where
  | choose (memberGen : UInt64) (shuffle : Arrangement NodeID)
  | act (a : MembershipAction)

namespace Prober

def new (selfID addr : Bytes) : Prober :=
  ⟨.new selfID addr, [], 0, 0, []⟩

def rebuildProbeOrderLocked (p : Prober) (memberGen : UInt64) (shuffle : Arrangement NodeID) :
    Prober :=
  { p with
    probeOrder := shuffle.arrange ((p.membership.members.toList.filter fun item =>
      item.1 ≠ p.membership.selfID ∧ item.2.liveness ≠ .dead).map Prod.fst)
    probeIdx := 0
    probeOrderGen := memberGen }

/-- The target among the rest of the order, and how many entries were looked at. -/
def nextProbeTargetLocked (m : Membership) : List NodeID → Option MemberState × Nat
  | [] => (none, 0)
  | nodeID :: rest =>
    match m.members[nodeID]?.filter fun ms => ms.liveness ≠ .dead with
    | some ms => (some ms, 1)
    | none => ((nextProbeTargetLocked m rest).1, (nextProbeTargetLocked m rest).2 + 1)

/-- The first entry is looked at like the others. -/
def nextProbeTarget (p : Prober) (memberGen : UInt64) (shuffle : Arrangement NodeID) :
    Option MemberState × Prober :=
  let p := if p.probeOrder.length ≤ p.probeIdx ∨ p.probeOrderGen ≠ memberGen then
    p.rebuildProbeOrderLocked memberGen shuffle else p
  let found := nextProbeTargetLocked p.membership (p.probeOrder.drop p.probeIdx)
  (found.1, { p with probeIdx := p.probeIdx + found.2 })

def step (p : Prober) : ProberAction → Option Prober
  | .choose memberGen shuffle =>
    let chosen := p.nextProbeTarget memberGen shuffle
    some { chosen.2 with targets := chosen.1.toList.map MemberState.nodeID ++ p.targets }
  | .act a => (p.membership.step a).map fun m => { p with membership := m }

/-- A probe that fails has a target that was chosen. -/
def Permitted (p : Prober) : ProberAction → Prop
  | .act (.probing _ (.failed target)) => target ∈ p.targets
  | .act a => p.membership.Permitted a
  | .choose _ _ => True

instance (p : Prober) (a : ProberAction) : Decidable (p.Permitted a) := by
  unfold Permitted
  split
  · exact decidable_of_iff (∃ t ∈ p.targets, t = _) exists_eq_right
  · infer_instance
  · infer_instance

variable {selfID addr : Bytes} {p next : Prober}

theorem nodeID_mem_of_nextProbeTargetLocked {m : Membership} (consistent : m.Consistent selfID)
    {order : List NodeID} {ms : MemberState} (found : (nextProbeTargetLocked m order).1 = some ms) :
    ms.nodeID ∈ order := by
  induction order with
  | nil => cases found
  | cons nodeID rest ih =>
    rw [nextProbeTargetLocked] at found
    split at found
    · rename_i alive
      cases found
      have known := (Option.filter_eq_some_iff.mp alive).1
      rw [(consistent.entries nodeID ms known).1]
      exact mem_cons_self
    · exact mem_cons_of_mem _ (ih found)

/-- The order and the targets leave the node itself out. -/
structure Outward (selfID addr : Bytes) (p : Prober) : Prop where
  reached : Reached Membership.step Membership.Permitted (.new selfID addr) p.membership
  order : selfID ∉ p.probeOrder
  targets : selfID ∉ p.targets

theorem Outward.rebuildProbeOrderLocked (outward : p.Outward selfID addr) (memberGen : UInt64)
    (shuffle : Arrangement NodeID) :
    (p.rebuildProbeOrderLocked memberGen shuffle).Outward selfID addr := by
  refine ⟨outward.reached, ?_, outward.targets⟩
  intro listed
  rcases mem_map.mp (shuffle.mem_arrange.mp listed) with ⟨item, mem, self⟩
  have other := (of_decide_eq_true (mem_filter.mp mem).2).1
  exact other (self.trans (Membership.consistent_of_reached outward.reached).identity.symm)

theorem Outward.step (outward : p.Outward selfID addr) {a : ProberAction}
    (permitted : p.Permitted a)
    (stepped : p.step a = some next) : next.Outward selfID addr := by
  cases a with
  | choose memberGen shuffle =>
    cases stepped
    have built : (if p.probeOrder.length ≤ p.probeIdx ∨ p.probeOrderGen ≠ memberGen then
        p.rebuildProbeOrderLocked memberGen shuffle else p).Outward selfID addr := by
      split
      · exact outward.rebuildProbeOrderLocked memberGen shuffle
      · exact outward
    refine ⟨built.reached, built.order, ?_⟩
    intro mem
    rcases mem_append.mp mem with isNew | old
    · rcases mem_map.mp isNew with ⟨ms, found, self⟩
      have listed := nodeID_mem_of_nextProbeTargetLocked
        (Membership.consistent_of_reached built.reached) (Option.mem_toList.mp found)
      exact built.order (mem_of_mem_drop (self ▸ listed))
    · exact outward.targets old
  | act a =>
    rcases Option.map_eq_some_iff.mp stepped with ⟨m, moved, rfl⟩
    refine ⟨outward.reached.step ?_ moved, outward.order, outward.targets⟩
    rw [Permitted.eq_def] at permitted
    split at permitted
    · rename_i target same
      cases same
      rintro rfl
      rw [(Membership.consistent_of_reached outward.reached).identity] at permitted
      exact outward.targets permitted
    · rename_i other same
      cases same
      exact permitted
    · trivial

/-- A run in which the probes choose their targets is one of the table of the members. -/
theorem reached_membership (reached : Reached Prober.step Permitted (.new selfID addr) p) :
    Reached Membership.step Membership.Permitted (.new selfID addr) p.membership := by
  have outward : p.Outward selfID addr := reached.invariant _ ⟨.start, not_mem_nil, not_mem_nil⟩
    fun outward permitted stepped => outward.step permitted stepped
  exact outward.reached

end Prober

/-- Node `b` joins the ring, becomes known afterwards, and dies. -/
def deathInRing : List ProberAction :=
  [.act (.apply ⟨1, [⟨[98], [2], .active⟩]⟩),
    .act (.receive 0 ⟨[⟨[98], [2], .alive, .none, 1⟩], none⟩), .choose 1 (.identity _),
    .act (.probing 1 (.failed [98])), .act (.probing 2 (.timeout [98])),
    .act (.probing 90 (.reap 10))]

namespace Membership

theorem death_in_ring_remembered :
    ∃ p, Reached Prober.step Prober.Permitted (.new [97] [1]) p ∧
      ∀ now timeout, [98] ∈ (p.membership.reapDeadNodes now timeout).members := by
  have evaluated : ∃ p ∈ runAllowed Prober.step Prober.Permitted (.new [97] [1]) deathInRing,
      [98] ∈ p.membership.members ∧ p.membership.ringDesc.stateOf [98] = .active := by
    decide +kernel
  rcases Reached.of_evaluated evaluated with ⟨p, reached, known, active⟩
  rcases axes_consistent (Prober.reached_membership reached) with ⟨_, _, _, _, remembered⟩
  exact ⟨p, reached, fun now timeout => remembered now timeout [98] (.inr active) known⟩

end Membership

end Theseon.Cluster
