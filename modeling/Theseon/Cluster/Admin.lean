import Theseon.Cluster.Membership
import Theseon.Hashring.Ring
import Theseon.Lib.Machine

/-!
# Administrative calls

`JoinRing`, `ActivateNode` and `RemoveNode` read the descriptor of the ring, compare
its version with the one the caller expects, and hand a changed descriptor with the
next version to `ApplyRingDescriptor`.  Reading and applying take the lock of the
membership separately, and a descriptor that is no longer newer is ignored without
an error: the call succeeds and its change is lost.

The steps of a node are those between two lock operations.
-/

namespace Theseon.Cluster

open Lib List

/-- Why a call is refused. -/
inductive AdminError where
  | nodeIDRequired
  | addrRequired
  | notDiscovered (nodeID : NodeID)
  | versionMismatch (expected current : UInt64)
  | alreadyInRing (nodeID : NodeID) (state : RingState)
  | notInRing (nodeID : NodeID)
  | notJoining (nodeID : NodeID) (state : RingState)
  deriving DecidableEq, Repr

/-- The change that a call asks for. -/
inductive RingChange where
  | join (nodeID : NodeID) (addr : Bytes)
  | activate (nodeID : NodeID)
  | remove (nodeID : NodeID)
  deriving DecidableEq, Repr

structure AdminRequest where
  change : RingChange
  expectedVersion : UInt64
  deriving DecidableEq, Repr

/-- The descriptor of `JoinRing`. -/
def joinRing (rd : RingDescriptor) (nodeID : NodeID) (addr : Bytes) (expectedVersion : UInt64) :
    Except AdminError RingDescriptor :=
  if expectedVersion ≠ rd.version then .error (.versionMismatch expectedVersion rd.version)
  else
    match rd.find? nodeID with
    | some rm => .error (.alreadyInRing nodeID rm.state)
    | none => .ok ⟨rd.version + 1, rd.members ++ [⟨nodeID, addr, .joining⟩]⟩

/-- The descriptor of `ActivateNode`. -/
def activateNode (rd : RingDescriptor) (nodeID : NodeID) (expectedVersion : UInt64) :
    Except AdminError RingDescriptor :=
  if expectedVersion ≠ rd.version then .error (.versionMismatch expectedVersion rd.version)
  else
    match rd.find? nodeID with
    | none => .error (.notInRing nodeID)
    | some rm =>
      if rm.state ≠ .joining then .error (.notJoining nodeID rm.state)
      else
        let idx := rd.members.findIdx fun rm => rm.nodeID = nodeID
        .ok ⟨rd.version + 1, rd.members.set idx { rm with state := .active }⟩

/-- The descriptor of `RemoveNode`. -/
def removeNode (rd : RingDescriptor) (nodeID : NodeID) (expectedVersion : UInt64) :
    Except AdminError RingDescriptor :=
  if expectedVersion ≠ rd.version then .error (.versionMismatch expectedVersion rd.version)
  else if rd.members.any fun rm => rm.nodeID = nodeID then
    .ok ⟨rd.version + 1, rd.members.filter fun rm => rm.nodeID ≠ nodeID⟩
  else .error (.notInRing nodeID)

namespace AdminRequest

/-- The arguments that are checked before the membership is asked. -/
def validate (req : AdminRequest) : Option AdminError :=
  match req.change with
  | .join nodeID addr =>
    if nodeID = [] then some .nodeIDRequired
    else if addr = [] then some .addrRequired
    else none
  | .activate nodeID => if nodeID = [] then some .nodeIDRequired else none
  | .remove nodeID => if nodeID = [] then some .nodeIDRequired else none

/-- The descriptor that the call is going to apply. -/
def newDescriptor (req : AdminRequest) (rd : RingDescriptor) : Except AdminError RingDescriptor :=
  match req.change with
  | .join nodeID addr => joinRing rd nodeID addr req.expectedVersion
  | .activate nodeID => activateNode rd nodeID req.expectedVersion
  | .remove nodeID => removeNode rd nodeID req.expectedVersion

end AdminRequest

/-- How far a call has come. -/
inductive Phase where
  /-- The arguments are in order. -/
  | arrived
  /-- `JoinRing` has found the address of the node. -/
  | discovered
  /-- The descriptor has been read and the new one is about to be applied. -/
  | checked (newRD : RingDescriptor)
  | succeeded (newRD : RingDescriptor)
  | failed (err : AdminError)
  deriving DecidableEq, Repr

structure AdminCall where
  request : AdminRequest
  phase : Phase
  deriving DecidableEq, Repr

/-- A node of the cluster with the calls and callbacks that are under way. -/
structure Node where
  membership : Membership
  calls : List AdminCall
  /-- The ring callbacks that have been started, oldest first. -/
  callbacks : List RingDescriptor
  ring : Hashring.Ring
  /-- The descriptors that have been installed, newest first. -/
  held : List RingDescriptor

/-- A step under one lock. -/
inductive NodeAction where
  | call (req : AdminRequest)
  | advance (i : Nat)
  | receive (now : Nat) (msg : PingMessage)
  | probing (now : Nat) (p : Membership.Probing)
  | callback (k : Nat)

/-- The nodes of the hash ring that the callback builds. -/
def RingDescriptor.ringNodes (rd : RingDescriptor) : List Hashring.Node :=
  (rd.members.filter fun rm => rm.state = .joining ∨ rm.state = .active).map fun rm =>
    ⟨rm.nodeID, rm.addr⟩

/-- The first state of a call. -/
def AdminRequest.arrive (req : AdminRequest) : AdminCall :=
  match req.validate with
  | some err => ⟨req, .failed err⟩
  | none => ⟨req, .arrived⟩

/-- The descriptor is read and checked. -/
def AdminRequest.check (req : AdminRequest) (rd : RingDescriptor) : Phase :=
  match req.newDescriptor rd with
  | .error err => .failed err
  | .ok newRD => .checked newRD

namespace Node

/-- A node with nothing under way. -/
def idle (membership : Membership) (ring : Hashring.Ring) : Node :=
  ⟨membership, [], [], ring, []⟩

def setPhase (n : Node) (i : Nat) (c : AdminCall) (phase : Phase) : Node :=
  { n with calls := n.calls.set i { c with phase := phase } }

/-- The membership after an operation, with the callback that it starts. -/
def installed (n : Node) (result : Membership × Option RingDescriptor) : Node :=
  { n with
    membership := result.1
    callbacks := n.callbacks ++ result.2.toList
    held := result.2.toList ++ n.held }

/-- The next step of a call. -/
def advance (n : Node) (i : Nat) (c : AdminCall) : Option Node :=
  match c.phase with
  | .arrived =>
    match c.request.change with
    | .join nodeID _ =>
      if n.membership.addrOf nodeID = [] then
        some (n.setPhase i c (.failed (.notDiscovered nodeID)))
      else some (n.setPhase i c .discovered)
    | .activate _ => some (n.setPhase i c (c.request.check n.membership.ringDesc))
    | .remove _ => some (n.setPhase i c (c.request.check n.membership.ringDesc))
  | .discovered => some (n.setPhase i c (c.request.check n.membership.ringDesc))
  | .checked newRD =>
    some ((n.setPhase i c (.succeeded newRD)).installed (n.membership.applyRingDescriptor newRD))
  | .succeeded _ => none
  | .failed _ => none

section

variable (sorter : Sorter Hashring.Vnode.position) (sum64 : Bytes → UInt64)

def step (n : Node) : NodeAction → Option Node
  | .call req => some { n with calls := n.calls ++ [req.arrive] }
  | .advance i => (n.calls[i]?).bind (n.advance i)
  | .receive now msg => some (n.installed (n.membership.receive now msg))
  | .probing now p => some { n with membership := n.membership.probing now p }
  | .callback k => (n.callbacks[k]?).map fun rd =>
    { n with
      callbacks := n.callbacks.eraseIdx k
      ring := n.ring.replaceMembers sorter sum64 rd.ringNodes }

end

end Node

/-! ## What a step can be -/

/-- The phases that a call can enter before it applies its descriptor. -/
inductive Phase.Reads (req : AdminRequest) (rd : RingDescriptor) : Phase → Prop where
  | discovered : Reads req rd .discovered
  | failed (err : AdminError) : Reads req rd (.failed err)
  | checked {newRD : RingDescriptor} (computed : req.newDescriptor rd = .ok newRD) :
      Reads req rd (.checked newRD)

variable {req : AdminRequest}

theorem Phase.Reads.ne_succeeded {rd : RingDescriptor} {phase : Phase} (reads : phase.Reads req rd)
    (newRD : RingDescriptor) : phase ≠ .succeeded newRD := by
  rintro rfl
  cases reads

theorem AdminRequest.reads_check (req : AdminRequest) (rd : RingDescriptor) :
    Phase.Reads req rd (req.check rd) := by
  rw [check]
  split
  · exact .failed _
  · rename_i newRD computed
    exact .checked computed

namespace Node

variable {sorter : Sorter Hashring.Vnode.position} {sum64 : Bytes → UInt64}

/-- The steps of a node. -/
inductive Stepped (sorter : Sorter Hashring.Vnode.position) (sum64 : Bytes → UInt64) (n : Node) :
    NodeAction → Node → Prop where
  | call (req : AdminRequest) :
      Stepped sorter sum64 n (.call req) { n with calls := n.calls ++ [req.arrive] }
  | reads {i : Nat} {c : AdminCall} {phase : Phase} (found : n.calls[i]? = some c)
      (reads : phase.Reads c.request n.membership.ringDesc) :
      Stepped sorter sum64 n (.advance i) (n.setPhase i c phase)
  | applies {i : Nat} {c : AdminCall} {newRD : RingDescriptor} (found : n.calls[i]? = some c)
      (checked : c.phase = .checked newRD) :
      Stepped sorter sum64 n (.advance i) ((n.setPhase i c (.succeeded newRD)).installed
        (n.membership.applyRingDescriptor newRD))
  | receive (now : Nat) (msg : PingMessage) :
      Stepped sorter sum64 n (.receive now msg) (n.installed (n.membership.receive now msg))
  | probing (now : Nat) (p : Membership.Probing) :
      Stepped sorter sum64 n (.probing now p) { n with membership := n.membership.probing now p }
  | callback {k : Nat} {rd : RingDescriptor} (started : n.callbacks[k]? = some rd) :
      Stepped sorter sum64 n (.callback k)
        { n with
          callbacks := n.callbacks.eraseIdx k
          ring := n.ring.replaceMembers sorter sum64 rd.ringNodes }

theorem stepped_of_step {n next : Node} {a : NodeAction}
    (stepped : n.step sorter sum64 a = some next) : Stepped sorter sum64 n a next := by
  cases a with
  | call req =>
    cases stepped
    exact .call req
  | advance i =>
    rcases Option.bind_eq_some_iff.mp stepped with ⟨c, found, advanced⟩
    rw [advance] at advanced
    split at advanced
    · split at advanced
      · split at advanced
        · cases advanced
          exact .reads found (.failed _)
        · cases advanced
          exact .reads found .discovered
      · cases advanced
        exact .reads found (c.request.reads_check _)
      · cases advanced
        exact .reads found (c.request.reads_check _)
    · cases advanced
      exact .reads found (c.request.reads_check _)
    · rename_i newRD checked
      cases advanced
      exact .applies found checked
    · cases advanced
    · cases advanced
  | receive now msg =>
    cases stepped
    exact .receive now msg
  | probing now p =>
    cases stepped
    exact .probing now p
  | callback k =>
    rcases Option.map_eq_some_iff.mp stepped with ⟨rd, started, rfl⟩
    exact .callback started

end Node

/-! ## The change that a call asks for -/

/-- The descriptor has the change. -/
def RingChange.Made (rd : RingDescriptor) : RingChange → Prop
  | .join nodeID addr => rd.find? nodeID = some ⟨nodeID, addr, .joining⟩
  | .activate nodeID => (rd.find? nodeID).map RingMember.state = some .active
  | .remove nodeID => rd.find? nodeID = none

/-- The descriptor is the one that the call asks for: the change is made, under the
version that follows the expected one. -/
structure AdminRequest.Asks (req : AdminRequest) (newRD : RingDescriptor) : Prop where
  version : newRD.version = req.expectedVersion + 1
  made : req.change.Made newRD

theorem find?_set_findIdx {α : Type} {p : α → Bool} {items : List α} {old new : α}
    (found : items.find? p = some old) (holds : p new = true) :
    (items.set (items.findIdx p) new).find? p = some new := by
  induction items with
  | nil => cases found
  | cons item rest ih =>
    rw [find?_cons] at found
    rw [findIdx_cons]
    split at found
    · rename_i first
      rw [first, cond_true, set_cons_zero, find?_cons_of_pos holds]
    rename_i later
    rw [later, cond_false, set_cons_succ, find?_cons_of_neg (by rw [later]; simp)]
    exact ih found

section

variable {rd newRD : RingDescriptor} {nodeID : NodeID} {addr : Bytes} {expected : UInt64}

theorem joinRing_asks (computed : joinRing rd nodeID addr expected = .ok newRD) :
    AdminRequest.Asks ⟨.join nodeID addr, expected⟩ newRD := by
  rw [joinRing] at computed
  split at computed
  · cases computed
  rename_i current
  split at computed
  · cases computed
  rename_i absent
  cases computed
  constructor
  · rw [not_ne_iff.mp current]
  · rw [RingDescriptor.find?] at absent
    rw [RingChange.Made, RingDescriptor.find?, find?_append, absent, Option.none_or]
    exact find?_cons_of_pos (decide_eq_true rfl)

theorem activateNode_asks (computed : activateNode rd nodeID expected = .ok newRD) :
    AdminRequest.Asks ⟨.activate nodeID, expected⟩ newRD := by
  rw [activateNode] at computed
  split at computed
  · cases computed
  rename_i current
  split at computed
  · cases computed
  rename_i rm found
  split at computed
  · cases computed
  cases computed
  constructor
  · rw [not_ne_iff.mp current]
  · have named := find?_some found
    rw [RingChange.Made, RingDescriptor.find?, find?_set_findIdx found (by exact named)]
    rfl

theorem removeNode_asks (computed : removeNode rd nodeID expected = .ok newRD) :
    AdminRequest.Asks ⟨.remove nodeID, expected⟩ newRD := by
  rw [removeNode] at computed
  split at computed
  · cases computed
  rename_i current
  split at computed
  · cases computed
    constructor
    · rw [not_ne_iff.mp current]
    · rw [RingChange.Made, RingDescriptor.find?, find?_eq_none]
      intro rm mem
      rw [decide_eq_true_eq]
      exact of_decide_eq_true (mem_filter.mp mem).2
  · cases computed

end

/-- A descriptor that passes the checks is the one that is asked for. -/
theorem AdminRequest.asks_of_newDescriptor {rd newRD : RingDescriptor}
    (computed : req.newDescriptor rd = .ok newRD) : req.Asks newRD := by
  rcases req with ⟨change, expected⟩
  cases change with
  | join nodeID addr => exact joinRing_asks computed
  | activate nodeID => exact activateNode_asks computed
  | remove nodeID => exact removeNode_asks computed

/-- The expected version is the one that has been read. -/
theorem AdminRequest.expected_of_newDescriptor {rd newRD : RingDescriptor}
    (computed : req.newDescriptor rd = .ok newRD) : req.expectedVersion = rd.version := by
  rcases req with ⟨change, expected⟩
  by_contra other
  have refused : newDescriptor ⟨change, expected⟩ rd =
      .error (.versionMismatch expected rd.version) := by
    cases change <;> exact if_pos other
  rw [refused] at computed
  cases computed

/-! ## Calls whose version is still current when they apply -/

namespace Node

/-- A call that is about to apply its descriptor is still current: the membership
has the version that the call is based on, and that version has a successor. -/
def CallCurrent (current : RingDescriptor) : AdminCall → Prop
  | ⟨req, .checked _⟩ => current.version = req.expectedVersion ∧ req.expectedVersion ≠ -1
  | _ => True

instance (current : RingDescriptor) (c : AdminCall) : Decidable (CallCurrent current c) := by
  unfold CallCurrent
  split <;> infer_instance

/-- A call applies its descriptor only while it is still current. -/
def StillCurrent (n : Node) : NodeAction → Prop
  | .advance i => ∀ c ∈ n.calls[i]?, CallCurrent n.membership.ringDesc c
  | _ => True

instance (n : Node) (a : NodeAction) : Decidable (n.StillCurrent a) := by
  cases a <;> unfold StillCurrent <;> infer_instance

/-- What holds of a call in every run: the descriptor that it is about to apply is
based on the present version or an earlier one. -/
def CallBased (current : RingDescriptor) (c : AdminCall) : Prop :=
  ∀ newRD, c.phase = .checked newRD →
    c.request.Asks newRD ∧ c.request.expectedVersion ≤ current.version

/-- The call has not succeeded unless its descriptor has been installed. -/
def CallRecorded (current : RingDescriptor) (held : List RingDescriptor) (c : AdminCall) : Prop :=
  ∀ newRD, c.phase = .succeeded newRD →
    c.request.Asks newRD ∧ newRD ∈ held ∧ newRD.version ≤ current.version

variable {c : AdminCall} {i : Nat} {phase : Phase}

theorem CallBased.mono {current current' : RingDescriptor} (based : CallBased current c)
    (newer : current.version ≤ current'.version) : CallBased current' c := by
  intro newRD checked
  rcases based newRD checked with ⟨asks, expected⟩
  exact ⟨asks, UInt64.le_trans expected newer⟩

theorem CallRecorded.mono {current current' : RingDescriptor} {held held' : List RingDescriptor}
    (recorded : CallRecorded current held c) (newer : current.version ≤ current'.version)
    (kept : held ⊆ held') : CallRecorded current' held' c := by
  intro newRD succeeded
  rcases recorded newRD succeeded with ⟨asks, isHeld, version⟩
  exact ⟨asks, kept isHeld, UInt64.le_trans version newer⟩

theorem arrive_phase (req : AdminRequest) (newRD : RingDescriptor) :
    req.arrive.phase ≠ .checked newRD ∧ req.arrive.phase ≠ .succeeded newRD := by
  rw [AdminRequest.arrive]
  split <;> exact ⟨Phase.noConfusion, Phase.noConfusion⟩

variable {sorter : Sorter Hashring.Vnode.position} {sum64 : Bytes → UInt64} {n next : Node}

/-- The calls after one of them has changed its phase. -/
theorem getElem?_setPhase {j : Nat} {d : AdminCall}
    (found : (n.setPhase i c phase).calls[j]? = some d) :
    j = i ∧ d = { c with phase := phase } ∨ j ≠ i ∧ n.calls[j]? = some d := by
  change (n.calls.set i { c with phase := phase })[j]? = some d at found
  by_cases same : i = j
  · rw [same, getElem?_set_self'] at found
    rcases Option.map_eq_some_iff.mp found with ⟨_, _, rfl⟩
    exact .inl ⟨same.symm, rfl⟩
  · rw [getElem?_set_ne same] at found
    exact .inr ⟨Ne.symm same, found⟩

theorem mem_setPhase {d : AdminCall} (mem : d ∈ (n.setPhase i c phase).calls) :
    d = { c with phase := phase } ∨ d ∈ n.calls := by
  rcases mem_iff_getElem?.mp mem with ⟨j, found⟩
  rcases getElem?_setPhase found with ⟨_, isNew⟩ | ⟨_, old⟩
  · exact .inl isNew
  · exact .inr (mem_of_getElem? old)

/-! ### Every run -/

/-- All calls are based on a version that the membership has had. -/
def Based (n : Node) : Prop :=
  ∀ c ∈ n.calls, CallBased n.membership.ringDesc c

theorem Based.installed (based : n.Based) {result : Membership × Option RingDescriptor}
    (installs : Membership.Installs n.membership.ringDesc result.1.ringDesc result.2) :
    (n.installed result).Based :=
  fun c mem => (based c mem).mono installs.version_le

theorem Based.setPhase (based : n.Based)
    (new : CallBased n.membership.ringDesc { c with phase := phase }) :
    (n.setPhase i c phase).Based := by
  intro d mem
  rcases mem_setPhase mem with rfl | old
  · exact new
  · exact based d old

theorem Based.step (based : n.Based) {a : NodeAction}
    (stepped : n.step sorter sum64 a = some next) : next.Based := by
  cases stepped_of_step stepped with
  | call req =>
    intro c mem
    rcases mem_append.mp mem with old | isNew
    · exact based c old
    intro newRD checked
    rw [mem_singleton.mp isNew] at checked
    exact absurd checked (arrive_phase req newRD).1
  | reads found reads =>
    apply based.setPhase
    intro newRD checked
    cases reads with
    | discovered => cases checked
    | failed err => cases checked
    | checked computed =>
      cases checked
      exact ⟨AdminRequest.asks_of_newDescriptor computed,
        AdminRequest.expected_of_newDescriptor computed ▸ UInt64.le_refl _⟩
  | applies found checked =>
    apply Based.installed (based.setPhase _) (Membership.installs_applyRingDescriptor _)
    rintro newRD ⟨⟩
  | receive now msg => exact based.installed (Membership.installs_receive msg)
  | probing now p =>
    have same := @Membership.probing_ringDesc n.membership now p
    exact fun c mem => (based c mem).mono (same ▸ UInt64.le_refl _)
  | callback started => exact based

theorem based_of_fresh (fresh : n.calls = []) : n.Based := by
  rw [Based, fresh]
  exact forall_mem_nil _

/-- A call that applies its descriptor installs it exactly when it is still
current. -/
theorem applied_iff_callCurrent (based : n.Based) (mem : c ∈ n.calls) {newRD : RingDescriptor}
    (checked : c.phase = .checked newRD) :
    (n.membership.applyRingDescriptor newRD).2 = some newRD ↔
      CallCurrent n.membership.ringDesc c := by
  rcases c with ⟨req, phase⟩
  cases checked
  rcases based _ mem newRD rfl with ⟨asks, expected⟩
  change req.expectedVersion ≤ n.membership.ringDesc.version at expected
  have version : newRD.version = req.expectedVersion + 1 := asks.version
  rw [CallCurrent, Membership.applyRingDescriptor]
  constructor
  · intro installed
    split at installed
    · cases installed
    rename_i newer
    rw [UInt64.not_le, version] at newer
    have reached : n.membership.ringDesc.version ≤ req.expectedVersion := by grind
    constructor
    · exact UInt64.le_antisymm reached expected
    · intro last
      rw [last] at newer
      exact UInt64.not_lt_zero newer
  · rintro ⟨same, room⟩
    rw [if_neg]
    rw [UInt64.not_le, version, same]
    exact UInt64.lt_add_one room

/-! ### Runs without lost updates -/

/-- The successful calls have been recorded, each under a version of its own. -/
structure Recorded (n : Node) : Prop where
  based : n.Based
  recorded : ∀ c ∈ n.calls, CallRecorded n.membership.ringDesc n.held c
  once : ∀ (i j : Nat) (c d : AdminCall) (rd rd' : RingDescriptor), i ≠ j →
    n.calls[i]? = some c → n.calls[j]? = some d → c.phase = .succeeded rd →
      d.phase = .succeeded rd' → rd.version ≠ rd'.version

/-- The calls stay recorded when the descriptor is replaced by a newer one. -/
theorem Recorded.installed (inv : n.Recorded) {result : Membership × Option RingDescriptor}
    (installs : Membership.Installs n.membership.ringDesc result.1.ringDesc result.2) :
    (n.installed result).Recorded := by
  constructor
  · exact inv.based.installed installs
  · intro c mem
    exact (inv.recorded c mem).mono installs.version_le (subset_append_right _ _)
  · exact inv.once

/-- One call moves to a phase in which it is recorded and, if it has succeeded, has
a version that no other call has. -/
theorem Recorded.setPhase (inv : n.Recorded) (based : (n.setPhase i c phase).Based)
    (recorded : CallRecorded n.membership.ringDesc n.held { c with phase := phase })
    (fresh : ∀ newRD, phase = .succeeded newRD → ∀ (j : Nat) (d : AdminCall) (rd : RingDescriptor),
      j ≠ i → n.calls[j]? = some d → d.phase = .succeeded rd → rd.version ≠ newRD.version) :
    (n.setPhase i c phase).Recorded := by
  constructor
  · exact based
  · intro d mem
    rcases mem_setPhase mem with rfl | old
    · exact recorded
    · exact inv.recorded d old
  · intro j k d e rd rd' different foundJ foundK succeededJ succeededK
    rcases getElem?_setPhase foundJ with ⟨rfl, rfl⟩ | ⟨otherJ, oldJ⟩
    · rcases getElem?_setPhase foundK with ⟨rfl, _⟩ | ⟨otherK, oldK⟩
      · exact absurd rfl different
      · exact (fresh rd succeededJ k e rd' otherK oldK succeededK).symm
    rcases getElem?_setPhase foundK with ⟨rfl, rfl⟩ | ⟨otherK, oldK⟩
    · exact fresh rd' succeededK j d rd otherJ oldJ succeededJ
    · exact inv.once j k d e rd rd' different oldJ oldK succeededJ succeededK

/-- A call that is still current when it applies its descriptor installs it. -/
theorem Recorded.applies (inv : n.Recorded) {newRD : RingDescriptor} (found : n.calls[i]? = some c)
    (checked : c.phase = .checked newRD) (current : CallCurrent n.membership.ringDesc c) :
    ((n.setPhase i c (.succeeded newRD)).installed
      (n.membership.applyRingDescriptor newRD)).Recorded := by
  have mem := mem_of_getElem? found
  rcases inv.based c mem newRD checked with ⟨asks, _⟩
  rcases Membership.newer_of_applied ((applied_iff_callCurrent inv.based mem checked).mpr current)
    with ⟨_, newer⟩
  rw [Membership.applyRingDescriptor_of_newer newer]
  -- the descriptor first, then the phase of the call
  have kept : (n.installed (n.membership.applyRingDescLocked newRD, some newRD)).Recorded :=
    inv.installed (.replaced newer)
  apply kept.setPhase
  · apply kept.based.setPhase
    rintro _ ⟨⟩
  · rintro _ ⟨⟩
    exact ⟨asks, mem_cons_self, UInt64.le_refl _⟩
  · rintro _ ⟨⟩ j d rd _ foundJ succeeded
    rcases inv.recorded d (mem_of_getElem? foundJ) rd succeeded with ⟨_, _, older⟩
    exact UInt64.ne_of_lt (UInt64.lt_of_le_of_lt older newer)

theorem Recorded.step (inv : n.Recorded) {a : NodeAction} (current : n.StillCurrent a)
    (stepped : n.step sorter sum64 a = some next) : next.Recorded := by
  have based := inv.based.step stepped
  cases stepped_of_step stepped with
  | call req =>
    have old : ∀ {i : Nat} {c : AdminCall} {rd : RingDescriptor},
        (n.calls ++ [req.arrive])[i]? = some c → c.phase = .succeeded rd →
          n.calls[i]? = some c := by
      intro i c rd found succeeded
      rw [getElem?_append] at found
      split at found
      · exact found
      · rw [mem_singleton.mp (mem_of_getElem? found)] at succeeded
        exact absurd succeeded (arrive_phase req rd).2
    constructor
    · exact based
    · intro c mem newRD succeeded
      rcases mem_iff_getElem?.mp mem with ⟨i, found⟩
      exact inv.recorded c (mem_of_getElem? (old found succeeded)) newRD succeeded
    · intro i j c d rd rd' different foundI foundJ succeededI succeededJ
      exact inv.once i j c d rd rd' different (old foundI succeededI) (old foundJ succeededJ)
        succeededI succeededJ
  | reads found reads =>
    apply inv.setPhase
    · exact based
    · exact fun rd succeeded => absurd succeeded (reads.ne_succeeded rd)
    · exact fun rd succeeded => absurd succeeded (reads.ne_succeeded rd)
  | applies found checked => exact inv.applies found checked (current _ found)
  | receive now msg => exact inv.installed (Membership.installs_receive msg)
  | probing now p =>
    constructor
    · exact based
    · intro c mem
      have same := @Membership.probing_ringDesc n.membership now p
      exact (inv.recorded c mem).mono (same ▸ UInt64.le_refl _) (List.Subset.refl _)
    · exact inv.once
  | callback started => exact ⟨based, inv.recorded, inv.once⟩

/-- In every run in which the calls apply their descriptors while they are still
current, every call that succeeds has installed its change under the version after
the expected one, and no two calls succeed on the same version. -/
theorem no_lost_updates {start : Node} (fresh : start.calls = [])
    (reached : Reached (step sorter sum64) StillCurrent start n) :
    (∀ c ∈ n.calls, ∀ newRD, c.phase = .succeeded newRD →
      newRD ∈ n.held ∧ newRD.version = c.request.expectedVersion + 1 ∧
        c.request.change.Made newRD) ∧
      ∀ (i j : Nat) (c d : AdminCall) (rd rd' : RingDescriptor), i ≠ j →
        n.calls[i]? = some c → n.calls[j]? = some d → c.phase = .succeeded rd →
          d.phase = .succeeded rd' → c.request.expectedVersion ≠ d.request.expectedVersion := by
  have initially : start.Recorded := by
    constructor
    · exact based_of_fresh fresh
    · rw [fresh]
      exact forall_mem_nil _
    · intro i j c d rd rd' _ found
      rw [fresh] at found
      cases found
  have inv : n.Recorded := reached.invariant Recorded initially fun inv current stepped =>
    inv.step current stepped
  constructor
  · intro c mem newRD succeeded
    rcases inv.recorded c mem newRD succeeded with ⟨asks, isHeld, _⟩
    exact ⟨isHeld, asks.version, asks.made⟩
  · intro i j c d rd rd' different foundI foundJ succeededI succeededJ same
    apply inv.once i j c d rd rd' different foundI foundJ succeededI succeededJ
    rw [(inv.recorded c (mem_of_getElem? foundI) rd succeededI).1.version,
      (inv.recorded d (mem_of_getElem? foundJ) rd' succeededJ).1.version, same]

/-! ## Two calls on the same version -/

/-- Node `n` has heard of the nodes `a` and `b`. -/
def discovery : NodeAction :=
  .receive 0 ⟨[⟨[97], [1], .alive, .none, 1⟩, ⟨[98], [2], .alive, .none, 1⟩], none⟩

/-- A request to add a node to the ring of version `version`. -/
def joinRequest (nodeID addr : UInt8) (version : UInt64) : AdminRequest :=
  ⟨.join [nodeID] [addr], version⟩

/-- A node that has just been started. -/
def started : Node :=
  idle (.new [110] [0]) (.new 150)

/-- The descriptor in which a node has joined the empty ring. -/
def joinedFirst (nodeID addr : UInt8) : RingDescriptor :=
  ⟨1, [⟨[nodeID], [addr], .joining⟩]⟩

/-- Both calls read the empty ring before the first one applies its change. -/
def overlappingJoins : List NodeAction :=
  [discovery, .call (joinRequest 97 1 0), .call (joinRequest 98 2 0), .advance 0, .advance 0,
    .advance 1, .advance 1, .advance 0, .advance 1]

/-- Both calls succeed on version 0, and node `b` is never part of the ring. -/
theorem overlapping_joins_lose_one :
    (run (step (.insertion _) fun _ => 0) started overlappingJoins).map
        (fun n => (n.calls.map AdminCall.phase, n.held)) =
      some ([.succeeded (joinedFirst 97 1), .succeeded (joinedFirst 98 2)],
        [joinedFirst 97 1]) := by
  decide +kernel

/-- The same calls one after the other, the second one on version 1. -/
def joinsInTurn : List NodeAction :=
  [discovery, .call (joinRequest 97 1 0), .call (joinRequest 98 2 1), .advance 0, .advance 0,
    .advance 0, .advance 1, .advance 1, .advance 1]

theorem joins_in_turn_recorded :
    ∃ n rd, Reached (step (.insertion _) fun _ => 0) StillCurrent started n ∧
      n.calls[1]? = some ⟨joinRequest 98 2 1, .succeeded rd⟩ ∧ rd ∈ n.held ∧ rd.version = 2 ∧
        (joinRequest 98 2 1).change.Made rd := by
  have evaluated : ∃ n ∈ runAllowed (step (.insertion _) fun _ => 0) StillCurrent started
      joinsInTurn, n.calls[1]? = some ⟨joinRequest 98 2 1, .succeeded
        ⟨2, [⟨[97], [1], .joining⟩, ⟨[98], [2], .joining⟩]⟩⟩ := by
    decide +kernel
  rcases Reached.of_evaluated evaluated with ⟨n, reached, found⟩
  rcases (no_lost_updates rfl reached).1 _ (mem_of_getElem? found) _ rfl with
    ⟨isHeld, version, made⟩
  exact ⟨n, _, reached, found, isHeld, version, made⟩

end Node

end Theseon.Cluster
