import Theseon.Cluster.Admin

/-!
# The hash ring follows the descriptor

A descriptor is installed under the lock of the membership, and the callback that
rebuilds the hash ring runs after the lock has been released.  The callbacks of two
descriptors may therefore run in either order, and the hash ring is left as the last
one built it.  It is that of the present descriptor in every run in which an outdated
callback only runs while the callback of the present descriptor is still to come.
-/

namespace Theseon.Cluster

open Lib List

namespace RingDescriptor

/-- The descriptor has the node as a member of the ring. -/
def Places (rd : RingDescriptor) (nodeID : NodeID) : Prop :=
  ∃ rm ∈ rd.members, rm.nodeID = nodeID ∧ (rm.state = .joining ∨ rm.state = .active)

theorem places_iff_ringNodes {rd : RingDescriptor} {nodeID : NodeID} :
    rd.Places nodeID ↔ ∃ node ∈ rd.ringNodes, node.id = nodeID := by
  constructor
  · rintro ⟨rm, mem, rfl, placed⟩
    exact ⟨_, mem_map_of_mem (mem_filter.mpr ⟨mem, decide_eq_true placed⟩), rfl⟩
  · rintro ⟨node, mem, rfl⟩
    rcases mem_map.mp mem with ⟨rm, filtered, rfl⟩
    rcases mem_filter.mp filtered with ⟨listed, placed⟩
    exact ⟨rm, listed, rfl, of_decide_eq_true placed⟩

end RingDescriptor

namespace Node

variable {sorter : Sorter Hashring.Vnode.position} {sum64 : Bytes → UInt64} {n next : Node}

/-- The hash ring has the members of the descriptor. -/
def RingOf (n : Node) (rd : RingDescriptor) : Prop :=
  ∀ nodeID, nodeID ∈ n.ring.nodes ↔ rd.Places nodeID

/-- A callback that runs is the one of the present descriptor, or that one is still
to come. -/
def CallbackTimely (n : Node) : NodeAction → Prop
  | .callback k =>
    ∀ rd ∈ n.callbacks[k]?,
      rd = n.membership.ringDesc ∨ n.membership.ringDesc ∈ n.callbacks
  | _ => True

instance callbackTimelyDecidable (n : Node) : (a : NodeAction) → Decidable (n.CallbackTimely a)
  | .callback k => inferInstanceAs (Decidable (∀ rd ∈ n.callbacks[k]?, _))
  | .call _ | .advance _ | .receive _ _ | .probing _ _ => .isTrue trivial

/-- The present descriptor is the newest, and the hash ring has its members unless
its callback is still to come. -/
structure Tracks (n : Node) : Prop where
  newest : ∀ rd ∈ n.held, rd.version ≤ n.membership.ringDesc.version
  ring : n.membership.ringDesc ∈ n.callbacks ∨ n.RingOf n.membership.ringDesc

/-- A node that has just been started: no descriptor and an empty hash ring. -/
def fresh (selfID addr : Bytes) (vnodesPerNode : Nat) : Node :=
  .idle (.new selfID addr) (.new vnodesPerNode)

theorem tracks_fresh (selfID addr : Bytes) (vnodesPerNode : Nat) :
    (fresh selfID addr vnodesPerNode).Tracks where
  newest rd mem := by cases mem
  ring := by
    right
    intro nodeID
    constructor
    · intro mem
      exact absurd mem Std.ExtTreeMap.not_mem_empty
    · rintro ⟨rm, mem, _⟩
      cases mem

theorem Tracks.installed (tracks : n.Tracks) {result : Membership × Option RingDescriptor}
    (installs : Membership.Installs n.membership.ringDesc result.1.ringDesc result.2) :
    (n.installed result).Tracks := by
  rcases result with ⟨membership, change⟩
  change Membership.Installs n.membership.ringDesc membership.ringDesc change at installs
  rw [Node.installed]
  generalize after : membership.ringDesc = rd at installs
  cases installs with
  | kept same =>
    rw [Option.toList_none, append_nil, nil_append]
    constructor
    · rw [after, same]
      exact tracks.newest
    · rw [after, same]
      exact tracks.ring
  | replaced newer =>
    constructor
    · intro other mem
      rw [after]
      rcases mem_cons.mp mem with rfl | old
      · exact UInt64.le_refl _
      · exact UInt64.le_trans (tracks.newest other old) (UInt64.le_of_lt newer)
    · left
      rw [after]
      exact mem_append_right _ mem_cons_self

/-- The callback of the present descriptor builds its ring; another one leaves the
callback of the present descriptor where it is. -/
theorem Tracks.callback (tracks : n.Tracks) {k : Nat} {rd : RingDescriptor}
    (started : n.callbacks[k]? = some rd) (timely : n.CallbackTimely (.callback k)) :
    Tracks
      { n with
        callbacks := n.callbacks.eraseIdx k
        ring := n.ring.replaceMembers sorter sum64 rd.ringNodes } := by
  constructor
  · exact tracks.newest
  · by_cases present : rd = n.membership.ringDesc
    · right
      intro nodeID
      rw [← present, RingDescriptor.places_iff_ringNodes]
      apply mem_insertAll.trans
      constructor
      · exact fun member => member.resolve_left Std.ExtTreeMap.not_mem_empty
      · exact Or.inr
    · left
      have pending := (timely rd started).resolve_left present
      rcases mem_iff_getElem?.mp pending with ⟨i, found⟩
      apply mem_eraseIdx_iff_getElem?.mpr
      use i
      constructor
      · rintro rfl
        rw [started] at found
        exact present (Option.some.inj found)
      · exact found

theorem Tracks.step (tracks : n.Tracks) {a : NodeAction} (timely : n.CallbackTimely a)
    (stepped : n.step sorter sum64 a = some next) : next.Tracks := by
  cases stepped_of_step stepped with
  | call req => exact ⟨tracks.newest, tracks.ring⟩
  | reads found reads => exact ⟨tracks.newest, tracks.ring⟩
  | applies found checked =>
    apply Tracks.installed _ (Membership.installs_applyRingDescriptor _)
    exact ⟨tracks.newest, tracks.ring⟩
  | receive now msg => exact tracks.installed (Membership.installs_receive msg)
  | probing now p =>
    have same := @Membership.probing_ringDesc n.membership now p
    exact ⟨same.symm ▸ tracks.newest, same.symm ▸ tracks.ring⟩
  | callback started => exact tracks.callback started timely

/-- In every run whose callbacks are timely, once all callbacks that have been started
have returned, the hash ring has the members of the present descriptor, and no newer
descriptor has been installed. -/
theorem ring_follows_descriptor {selfID addr : Bytes} {vnodesPerNode : Nat}
    (reached : Reached (step sorter sum64) CallbackTimely (fresh selfID addr vnodesPerNode) n)
    (returned : n.callbacks = []) :
    n.RingOf n.membership.ringDesc ∧
      ∀ rd ∈ n.held, rd.version ≤ n.membership.ringDesc.version := by
  have tracks : n.Tracks := reached.invariant _ (tracks_fresh selfID addr vnodesPerNode)
    fun tracks timely stepped => tracks.step timely stepped
  constructor
  · apply tracks.ring.resolve_left
    rw [returned]
    exact not_mem_nil
  · exact tracks.newest

/-! ## Two descriptors and their callbacks -/

/-- The ring of node `a`, then the ring of nodes `a` and `b`. -/
def ringOfA : RingDescriptor :=
  ⟨1, [⟨[97], [1], .active⟩]⟩

def ringOfAB : RingDescriptor :=
  ⟨2, [⟨[97], [1], .active⟩, ⟨[98], [2], .joining⟩]⟩

/-- Both descriptors arrive before the first callback runs. -/
def twoPings : List NodeAction :=
  [.receive 0 ⟨[], some ringOfA⟩, .receive 0 ⟨[], some ringOfAB⟩]

/-- The callback of the older descriptor runs last, and node `b` is missing from the
hash ring. -/
theorem late_callback_restores_old_ring :
    ∃ n, run (step (.insertion _) fun _ => 0) (fresh [97] [1] 150)
        (twoPings ++ [.callback 1, .callback 0]) = some n ∧
      n.callbacks = [] ∧ n.membership.ringDesc = ringOfAB ∧ ¬n.RingOf ringOfAB := by
  have evaluated : ∃ n ∈ run (step (.insertion _) fun _ => 0) (fresh [97] [1] 150)
      (twoPings ++ [.callback 1, .callback 0]),
        n.callbacks = [] ∧ n.membership.ringDesc = ringOfAB ∧ [98] ∉ n.ring.nodes := by
    decide +kernel
  rcases evaluated with ⟨n, ran, returned, descriptor, missing⟩
  refine ⟨n, ran, returned, descriptor, fun follows => missing ?_⟩
  exact (follows [98]).mpr ⟨⟨[98], [2], .joining⟩, by decide, rfl, .inl rfl⟩

/-- The callbacks run in the order of the descriptors. -/
theorem callbacks_in_order_follow :
    ∃ n, Reached (step (.insertion _) fun _ => 0) CallbackTimely (fresh [97] [1] 150) n ∧
      n.callbacks = [] ∧ n.membership.ringDesc = ringOfAB ∧ n.RingOf ringOfAB := by
  have evaluated : ∃ n ∈ runAllowed (step (.insertion _) fun _ => 0) CallbackTimely
      (fresh [97] [1] 150) (twoPings ++ [.callback 0, .callback 0]),
        n.callbacks = [] ∧ n.membership.ringDesc = ringOfAB := by
    decide +kernel
  rcases Reached.of_evaluated evaluated with ⟨n, reached, returned, descriptor⟩
  have follows := (ring_follows_descriptor reached returned).1
  rw [descriptor] at follows
  exact ⟨n, reached, returned, descriptor, follows⟩

end Node

end Theseon.Cluster
