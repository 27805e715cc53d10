import Theseon.Cluster.Admin

/-!
# Agreement on the ring

Every node numbers the changes of the ring on its own, from the version that it
happens to have, and takes over any descriptor with a greater version.  Two nodes
that accept a call at the same version give the same number to different rings, and
gossip never repairs it, because neither descriptor is newer.

When every version that is allocated is greater than all versions in the cluster,
a version stands for one ring, and nodes that have run their callbacks in order
route alike.

Messages are never removed: each of them may be delivered any number of times, in
any order, or not at all.
-/

namespace Theseon.Cluster

open Lib List

/-- The nodes and the messages between them. -/
structure World where
  nodes : List Node
  sent : List PingMessage

/-- A step of some node `i`. -/
inductive WorldAction where
  | call (i : Nat) (req : AdminRequest)
  | advance (i k : Nat)
  | probing (i now : Nat) (p : Membership.Probing)
  | callback (i k : Nat)
  /-- A probe or an exchange starts: the message carries the own descriptor. -/
  | send (i : Nat) (updates : List MemberState)
  /-- A ping on behalf of another node carries nothing. -/
  | sendIndirect
  /-- A message is received.  The handlers of pings and exchanges answer under the
  same lock. -/
  | deliver (i now k : Nat) (answer : Option (List MemberState))
  /-- The answer to an indirect ping: its descriptor is not looked at. -/
  | deliverIndirect (i now k : Nat)

namespace World

section

variable (sorter : Sorter Hashring.Vnode.position) (sum64 : Bytes → UInt64)

/-- A node takes a step of its own. -/
def nodeStep (w : World) (i : Nat) (a : NodeAction) : Option World :=
  (w.nodes[i]?).bind fun n =>
    (n.step sorter sum64 a).map fun next => { w with nodes := w.nodes.set i next }

/-- A node sends its descriptor. -/
def emit (w : World) (i : Nat) (updates : List MemberState) : Option World :=
  (w.nodes[i]?).map fun n => { w with sent := w.sent ++ [n.membership.reply updates] }

def step (w : World) : WorldAction → Option World
  | .call i req => w.nodeStep sorter sum64 i (.call req)
  | .advance i k => w.nodeStep sorter sum64 i (.advance k)
  | .probing i now p => w.nodeStep sorter sum64 i (.probing now p)
  | .callback i k => w.nodeStep sorter sum64 i (.callback k)
  | .send i updates => w.emit i updates
  | .sendIndirect => some { w with sent := w.sent ++ [⟨[], none⟩] }
  | .deliver i now k none =>
    (w.sent[k]?).bind fun msg => w.nodeStep sorter sum64 i (.receive now msg)
  | .deliver i now k (some updates) =>
    (w.sent[k]?).bind fun msg =>
      (w.nodeStep sorter sum64 i (.receive now msg)).bind fun received =>
        received.emit i updates
  | .deliverIndirect i now k =>
    (w.sent[k]?).bind fun msg => w.nodeStep sorter sum64 i (.receive now ⟨msg.updates, none⟩)

end

/-- All descriptors in the cluster. -/
def known (w : World) : List RingDescriptor :=
  w.nodes.map (fun n => n.membership.ringDesc) ++ w.sent.filterMap PingMessage.ringDesc

/-- A call that is about to install its descriptor gives it a version that is
greater than every version in the cluster. -/
def CallFresh (w : World) (n : Node) : AdminCall → Prop
  | ⟨_, .checked newRD⟩ =>
    n.membership.ringDesc.version < newRD.version →
      ∀ rd ∈ w.known, rd.version < newRD.version
  | _ => True

instance (w : World) (n : Node) (c : AdminCall) : Decidable (w.CallFresh n c) := by
  rcases c with ⟨_, phase⟩
  cases phase <;> dsimp only [CallFresh] <;> infer_instance

/-- Versions are allocated once in the cluster, and every node runs its callbacks in
the order in which they were started. -/
def Coordinated (w : World) : WorldAction → Prop
  | .advance i k => ∀ n ∈ w.nodes[i]?, ∀ c ∈ n.calls[k]?, w.CallFresh n c
  | .callback _ k => k = 0
  | _ => True

instance (w : World) (a : WorldAction) : Decidable (w.Coordinated a) := by
  cases a <;> unfold Coordinated <;> infer_instance

end World

/-! ## Nodes follow their descriptor -/

section

variable {sorter : Sorter Hashring.Vnode.position} {sum64 : Bytes → UInt64}

/-- The hash ring that the callback builds for a descriptor. -/
def RingDescriptor.ring (sorter : Sorter Hashring.Vnode.position) (sum64 : Bytes → UInt64)
    (rd : RingDescriptor) : Hashring.Ring :=
  (Hashring.Ring.new 150).replaceMembers sorter sum64 rd.ringNodes

theorem replaceMembers_eq_ring {r : Hashring.Ring} (count : r.vnodesPerNode = 150)
    (rd : RingDescriptor) : r.replaceMembers sorter sum64 rd.ringNodes = rd.ring sorter sum64 := by
  simp only [RingDescriptor.ring, Hashring.Ring.replaceMembers, Hashring.Ring.new, count]
  rfl

namespace Node

/-- The last callback that has been started is the one for the present descriptor;
once it has run, the hash ring is the one of the descriptor. -/
structure Follows (sorter : Sorter Hashring.Vnode.position) (sum64 : Bytes → UInt64) (n : Node) :
    Prop where
  count : n.ring.vnodesPerNode = 150
  last : ∀ rd ∈ n.callbacks.getLast?, rd = n.membership.ringDesc
  settled : n.callbacks = [] → n.ring = n.membership.ringDesc.ring sorter sum64

variable {n next : Node}

theorem Follows.installed (follows : n.Follows sorter sum64)
    {result : Membership × Option RingDescriptor}
    (installs : Membership.Installs n.membership.ringDesc result.1.ringDesc result.2) :
    (n.installed result).Follows sorter sum64 := by
  rcases result with ⟨membership, change⟩
  change Membership.Installs n.membership.ringDesc membership.ringDesc change at installs
  rw [Node.installed]
  generalize after : membership.ringDesc = rd at installs
  cases installs with
  | kept same =>
    constructor
    · exact follows.count
    · intro last isLast
      rw [Option.toList_none, append_nil] at isLast
      rw [after, same]
      exact follows.last last isLast
    · intro none
      rw [Option.toList_none, append_nil] at none
      rw [after, same]
      exact follows.settled none
  | replaced newer =>
    constructor
    · exact follows.count
    · intro last isLast
      rw [Option.toList_some, getLast?_concat] at isLast
      rw [after]
      exact (Option.some.inj isLast).symm
    · intro none
      exact absurd none (append_ne_nil_of_right_ne_nil _ (cons_ne_nil _ _))

theorem Follows.step (follows : n.Follows sorter sum64) {a : NodeAction}
    (inOrder : ∀ k, a = .callback k → k = 0) (stepped : n.step sorter sum64 a = some next) :
    next.Follows sorter sum64 := by
  cases stepped_of_step stepped with
  | call req => exact ⟨follows.count, follows.last, follows.settled⟩
  | reads found reads => exact ⟨follows.count, follows.last, follows.settled⟩
  | applies found checked =>
    apply Follows.installed _ (Membership.installs_applyRingDescriptor _)
    exact ⟨follows.count, follows.last, follows.settled⟩
  | receive now msg => exact follows.installed (Membership.installs_receive msg)
  | probing now p =>
    have same := @Membership.probing_ringDesc n.membership now p
    exact ⟨follows.count, same.symm ▸ follows.last, same.symm ▸ follows.settled⟩
  | @callback k rd started =>
    rw [inOrder k rfl] at started ⊢
    cases callbacks : n.callbacks with
    | nil =>
      rw [callbacks] at started
      cases started
    | cons first rest =>
      rw [callbacks] at started
      cases started
      have last := follows.last
      rw [callbacks] at last
      constructor
      · exact follows.count
      · cases rest with
        | nil => exact fun _ absent => absurd absent (Option.not_mem_none _)
        | cons second later => exact last
      · intro none
        change rest = [] at none
        rw [none] at last
        have current : rd = n.membership.ringDesc := last rd rfl
        change n.ring.replaceMembers sorter sum64 rd.ringNodes =
          n.membership.ringDesc.ring sorter sum64
        rw [current]
        exact replaceMembers_eq_ring follows.count _

/-- Where the descriptor of a node comes from after a step. -/
inductive Origin (n next : Node) : NodeAction → Prop where
  | kept {a : NodeAction} (same : next.membership.ringDesc = n.membership.ringDesc) :
      Origin n next a
  | applied {k : Nat} {c : AdminCall} {newRD : RingDescriptor} (found : n.calls[k]? = some c)
      (checked : c.phase = .checked newRD) (newer : n.membership.ringDesc.version < newRD.version)
      (now : next.membership.ringDesc = newRD) : Origin n next (.advance k)
  | received {now : Nat} {msg : PingMessage}
      (carried : msg.ringDesc = some next.membership.ringDesc) :
      Origin n next (.receive now msg)

theorem origin_of_step {a : NodeAction} (stepped : n.step sorter sum64 a = some next) :
    Origin n next a := by
  cases stepped_of_step stepped with
  | call req => exact .kept rfl
  | reads found reads => exact .kept rfl
  | @applies i c newRD found checked =>
    by_cases newer : n.membership.ringDesc.version < newRD.version
    · apply Origin.applied found checked newer
      change (n.membership.applyRingDescriptor newRD).1.ringDesc = newRD
      rw [Membership.applyRingDescriptor_of_newer newer]
      rfl
    apply Origin.kept
    change (n.membership.applyRingDescriptor newRD).1.ringDesc = n.membership.ringDesc
    rw [Membership.applyRingDescriptor, if_pos (UInt64.not_lt.mp newer)]
  | receive now msg =>
    have installs := @Membership.installs_receive n.membership now msg
    generalize change : (n.membership.receive now msg).2 = installed at installs
    generalize after : (n.membership.receive now msg).1.ringDesc = rd at installs
    cases installs with
    | kept same => exact .kept (after.trans same)
    | replaced newer =>
      apply Origin.received
      rw [Membership.carried_of_receive change]
      exact congrArg some after.symm
  | probing now p => exact .kept (Membership.probing_ringDesc p)
  | callback started => exact .kept rfl

end Node

end

/-! ## Every run -/

namespace World

variable {sorter : Sorter Hashring.Vnode.position} {sum64 : Bytes → UInt64} {w next : World}

/-- A version stands for one descriptor. -/
structure Agreed (sorter : Sorter Hashring.Vnode.position) (sum64 : Bytes → UInt64) (w : World) :
    Prop where
  unique : ∀ rd ∈ w.known, ∀ rd' ∈ w.known, rd.version = rd'.version → rd = rd'
  follows : ∀ n ∈ w.nodes, n.Follows sorter sum64

theorem ringDesc_mem_known {n : Node} (mem : n ∈ w.nodes) : n.membership.ringDesc ∈ w.known :=
  mem_append_left _ (mem_map_of_mem mem)

variable {rd : RingDescriptor} {i : Nat}

theorem carried_mem_known {msg : PingMessage} (mem : msg ∈ w.sent)
    (carried : msg.ringDesc = some rd) : rd ∈ w.known :=
  mem_append_right _ (mem_filterMap.mpr ⟨msg, mem, carried⟩)

theorem mem_known_set {n : Node} (mem : rd ∈ ({ w with nodes := w.nodes.set i n } : World).known) :
    rd = n.membership.ringDesc ∨ rd ∈ w.known := by
  rcases mem_append.mp mem with ofNode | carried
  · rcases mem_map.mp ofNode with ⟨other, otherMem, rfl⟩
    rcases mem_or_eq_of_mem_set otherMem with old | rfl
    · exact .inr (ringDesc_mem_known old)
    · exact .inl rfl
  · exact .inr (mem_append_right _ carried)

section

variable (agreed : w.Agreed sorter sum64)

include agreed

/-- A node moves: its descriptor is one that was known before, or a fresh one. -/
theorem Agreed.set {n : Node} (follows : n.Follows sorter sum64)
    (origin : n.membership.ringDesc ∈ w.known ∨
      ∀ rd ∈ w.known, rd.version < n.membership.ringDesc.version) :
    Agreed sorter sum64 { w with nodes := w.nodes.set i n } := by
  constructor
  · intro rd mem rd' mem' same
    rcases origin with old | fresh
    · have before : ∀ {rd : RingDescriptor},
          rd ∈ ({ w with nodes := w.nodes.set i n } : World).known → rd ∈ w.known := by
        intro rd mem
        rcases mem_known_set mem with rfl | known
        · exact old
        · exact known
      exact agreed.unique rd (before mem) rd' (before mem') same
    rcases mem_known_set mem with rfl | known
    · rcases mem_known_set mem' with rfl | known'
      · rfl
      · exact absurd same.symm (UInt64.ne_of_lt (fresh rd' known'))
    rcases mem_known_set mem' with rfl | known'
    · exact absurd same (UInt64.ne_of_lt (fresh rd known))
    · exact agreed.unique rd known rd' known' same
  · intro other mem
    rcases mem_or_eq_of_mem_set mem with old | rfl
    · exact agreed.follows other old
    · exact follows

/-- A message with a known descriptor, or none, is sent. -/
theorem Agreed.sent {msg : PingMessage} (carries : ∀ rd, msg.ringDesc = some rd → rd ∈ w.known) :
    Agreed sorter sum64 { w with sent := w.sent ++ [msg] } := by
  have before : ∀ {rd : RingDescriptor},
      rd ∈ ({ w with sent := w.sent ++ [msg] } : World).known → rd ∈ w.known := by
    intro rd mem
    rcases mem_append.mp mem with ofNode | carried
    · exact mem_append_left _ ofNode
    rcases mem_filterMap.mp carried with ⟨other, otherMem, isCarried⟩
    rcases mem_append.mp otherMem with old | isNew
    · exact carried_mem_known old isCarried
    · rw [mem_singleton.mp isNew] at isCarried
      exact carries rd isCarried
  constructor
  · exact fun rd mem rd' mem' => agreed.unique rd (before mem) rd' (before mem')
  · exact agreed.follows

theorem Agreed.emit {updates : List MemberState} (emitted : w.emit i updates = some next) :
    next.Agreed sorter sum64 := by
  rcases Option.map_eq_some_iff.mp emitted with ⟨n, found, rfl⟩
  apply agreed.sent
  rintro rd ⟨⟩
  exact ringDesc_mem_known (mem_of_getElem? found)

/-- A node takes a step of its own, and what it installs is known or fresh. -/
theorem Agreed.nodeStep {a : NodeAction} (inOrder : ∀ k, a = .callback k → k = 0)
    (fresh : ∀ k, a = .advance k → ∀ n ∈ w.nodes[i]?, ∀ c ∈ n.calls[k]?, w.CallFresh n c)
    (known : ∀ now msg, a = .receive now msg → ∀ rd, msg.ringDesc = some rd → rd ∈ w.known)
    (stepped : w.nodeStep sorter sum64 i a = some next) : next.Agreed sorter sum64 := by
  rcases Option.bind_eq_some_iff.mp stepped with ⟨n, found, moved⟩
  rcases Option.map_eq_some_iff.mp moved with ⟨n', nodeStepped, rfl⟩
  have mem := mem_of_getElem? found
  apply agreed.set ((agreed.follows n mem).step inOrder nodeStepped)
  cases Node.origin_of_step nodeStepped with
  | kept same =>
    rw [same]
    exact .inl (ringDesc_mem_known mem)
  | @applied k c newRD isCall checked newer now =>
    right
    have isFresh := fresh k rfl n found c isCall
    rcases c with ⟨req, phase⟩
    cases checked
    rw [now]
    exact isFresh newer
  | received carried => exact .inl (known _ _ rfl _ carried)

theorem Agreed.step {a : WorldAction} (coordinated : w.Coordinated a)
    (stepped : w.step sorter sum64 a = some next) : next.Agreed sorter sum64 := by
  have delivered : ∀ {received : World} {i now k : Nat} {msg : PingMessage},
      w.sent[k]? = some msg → w.nodeStep sorter sum64 i (.receive now msg) = some received →
        received.Agreed sorter sum64 := by
    intro received i now k msg isSent
    apply agreed.nodeStep
    · rintro k ⟨⟩
    · rintro k ⟨⟩
    · rintro _ _ ⟨⟩ rd carried
      exact carried_mem_known (mem_of_getElem? isSent) carried
  cases a with
  | call i req => exact agreed.nodeStep (by rintro k ⟨⟩) (by rintro k ⟨⟩) (by rintro _ _ ⟨⟩) stepped
  | advance i k =>
    refine agreed.nodeStep (by rintro k ⟨⟩) ?_ (by rintro _ _ ⟨⟩) stepped
    rintro _ ⟨⟩
    exact coordinated
  | probing i now p =>
    exact agreed.nodeStep (by rintro k ⟨⟩) (by rintro k ⟨⟩) (by rintro _ _ ⟨⟩) stepped
  | callback i k =>
    refine agreed.nodeStep ?_ (by rintro k ⟨⟩) (by rintro _ _ ⟨⟩) stepped
    rintro _ ⟨⟩
    exact coordinated
  | send i updates => exact agreed.emit stepped
  | sendIndirect =>
    cases stepped
    apply agreed.sent
    rintro rd ⟨⟩
  | deliver i now k answer =>
    cases answer with
    | none =>
      rcases Option.bind_eq_some_iff.mp stepped with ⟨msg, isSent, received⟩
      exact delivered isSent received
    | some updates =>
      rcases Option.bind_eq_some_iff.mp stepped with ⟨msg, isSent, answered⟩
      rcases Option.bind_eq_some_iff.mp answered with ⟨middle, received, emitted⟩
      exact (delivered isSent received).emit emitted
  | deliverIndirect i now k =>
    rcases Option.bind_eq_some_iff.mp stepped with ⟨msg, isSent, received⟩
    refine agreed.nodeStep (by rintro k ⟨⟩) (by rintro k ⟨⟩) ?_ received
    rintro _ _ ⟨⟩ rd ⟨⟩

end

/-- All nodes start with the same descriptor. -/
structure Begun (sorter : Sorter Hashring.Vnode.position) (sum64 : Bytes → UInt64)
    (rd : RingDescriptor) (w : World) : Prop where
  same : ∀ n ∈ w.nodes, n.membership.ringDesc = rd
  built : ∀ n ∈ w.nodes, n.ring = rd.ring sorter sum64
  idle : ∀ n ∈ w.nodes, n.callbacks = []
  silent : w.sent = []

theorem Begun.agreed (begun : w.Begun sorter sum64 rd) : w.Agreed sorter sum64 := by
  have only : ∀ {rd' : RingDescriptor}, rd' ∈ w.known → rd' = rd := by
    intro rd' mem
    rw [known, begun.silent, filterMap_nil, append_nil] at mem
    rcases mem_map.mp mem with ⟨n, nMem, rfl⟩
    exact begun.same n nMem
  constructor
  · intro first memFirst second memSecond _
    rw [only memFirst, only memSecond]
  · intro n mem
    constructor
    · rw [begun.built n mem]
      rfl
    · rw [begun.idle n mem]
      exact fun _ absent => absurd absent (Option.not_mem_none _)
    · rw [begun.built n mem, begun.same n mem]
      exact fun _ => rfl

/-- In every run in which versions are allocated once, nodes with the same version
have the same members, and once their callbacks have run they route every key to
the same replicas. -/
theorem ring_agreement {start : World} {rd : RingDescriptor} (begun : start.Begun sorter sum64 rd)
    (reached : Reached (step sorter sum64) Coordinated start w) {n n' : Node} (mem : n ∈ w.nodes)
    (mem' : n' ∈ w.nodes)
    (same : n.membership.ringDesc.version = n'.membership.ringDesc.version) :
    n.membership.ringDesc.members = n'.membership.ringDesc.members ∧
      (n.callbacks = [] → n'.callbacks = [] → ∀ key count,
        n.ring.getNodes sum64 key count = n'.ring.getNodes sum64 key count) := by
  have agreed : w.Agreed sorter sum64 := reached.invariant _ begun.agreed
    fun agreed coordinated stepped => agreed.step coordinated stepped
  have descriptor := agreed.unique _ (ringDesc_mem_known mem) _ (ringDesc_mem_known mem') same
  constructor
  · rw [descriptor]
  · intro settled settled' key count
    rw [(agreed.follows n mem).settled settled, (agreed.follows n' mem').settled settled',
      descriptor]

/-! ## Two nodes accept a call at the same version -/

/-- Nodes `a` and `b`, which have just been started. -/
def twoNodes : World :=
  ⟨[.idle (.new [97] [1]) ((⟨0, []⟩ : RingDescriptor).ring (.insertion _) fun _ => 0),
    .idle (.new [98] [2]) ((⟨0, []⟩ : RingDescriptor).ring (.insertion _) fun _ => 0)], []⟩

/-- A node is asked to join the ring, and the call runs to its end. -/
def joinActions (i : Nat) (nodeID addr : UInt8) (version : UInt64) : List WorldAction :=
  [.call i (Node.joinRequest nodeID addr version), .advance i 0, .advance i 0, .advance i 0]

/-- Each node accepts its own join, and they exchange their descriptors. -/
def separateJoins : List WorldAction :=
  joinActions 0 97 1 0 ++ joinActions 1 98 2 0 ++
    [.send 0 [], .deliver 1 0 0 (some []), .deliver 0 0 1 none]

/-- Both nodes have version 1, with different members, and the exchange changes
nothing. -/
theorem separate_joins_disagree :
    (run (step (.insertion _) fun _ => 0) twoNodes separateJoins).map
        (fun w => w.nodes.map fun n => n.membership.ringDesc) =
      some [Node.joinedFirst 97 1, Node.joinedFirst 98 2] := by
  decide +kernel

/-- The second node hears of the first change before it accepts its own call, and
sends the result back. -/
def joinsWithGossip : List WorldAction :=
  joinActions 0 97 1 0 ++ [.callback 0 0, .send 0 [], .deliver 1 0 0 none, .callback 1 0] ++
    joinActions 1 98 2 1 ++ [.callback 1 0, .send 1 [], .deliver 0 0 1 none, .callback 0 0]

theorem joins_with_gossip_agree :
    ∃ w n n', Reached (step (.insertion _) fun _ => 0) Coordinated twoNodes w ∧ w.nodes = [n, n'] ∧
      n.membership.ringDesc.version = 2 ∧ n'.membership.ringDesc.version = 2 ∧
        n.membership.ringDesc.members = n'.membership.ringDesc.members := by
  have evaluated : ∃ w ∈ runAllowed (step (.insertion _) fun _ => 0) Coordinated twoNodes
      joinsWithGossip, (w.nodes.map fun n => n.membership.ringDesc.version) = [2, 2] := by
    decide +kernel
  rcases Reached.of_evaluated evaluated with ⟨w, reached, versions⟩
  rcases w with ⟨nodes, sent⟩
  rcases map_eq_cons_iff.mp versions with ⟨n, rest, rfl, version, others⟩
  rcases map_eq_cons_iff.mp others with ⟨n', none, rfl, version', nothing⟩
  cases map_eq_nil_iff.mp nothing
  have begun : twoNodes.Begun (.insertion _) (fun _ => 0) ⟨0, []⟩ := by
    constructor
    · simp [twoNodes, Node.idle, Membership.new]
    · simp [twoNodes, Node.idle]
    · simp [twoNodes, Node.idle]
    · rfl
  have mem : n ∈ [n, n'] := mem_cons_self
  have mem' : n' ∈ [n, n'] := mem_cons_of_mem _ mem_cons_self
  have agree := ring_agreement begun reached mem mem' (version.trans version'.symm)
  exact ⟨_, n, n', reached, rfl, version, version', agree.1⟩

end World

end Theseon.Cluster
