import Mathlib.Data.Multiset.Basic
import Mathlib.Data.Prod.Lex
import Theseon.Cluster.Membership

/-!
# Gossip in any order

What a merge leaves as the entry of a member depends on four cases: the member is
unknown, the update has a higher incarnation, the same one, or a lower one.  For a
member other than the node itself each of them leaves the greater of the two standings,
an incarnation with a liveness, so the order of the updates does not matter, and
neither does how often each of them arrives.
-/

namespace Theseon.Cluster

open Lib
open Std (ExtTreeMap)

/-! ## What a merge does -/

namespace Membership

variable {m next : Membership} {now : Nat} {nodeID : NodeID}

/-- The operation gives one member a new entry.  Other members keep theirs, nobody
else is forgotten to be dead, and the member is known to be dead if it is. -/
structure Edits (m next : Membership) (nodeID : NodeID) (ms : MemberState) : Prop where
  selfID : next.selfID = m.selfID
  ringDesc : next.ringDesc = m.ringDesc
  entry : next.members[nodeID]? = some ms
  others : ∀ other, other ≠ nodeID → next.members[other]? = m.members[other]?
  dead : ms.liveness = .dead → nodeID ∈ next.deadSince
  othersDead : ∀ other, other ≠ nodeID → other ∈ m.deadSince → other ∈ next.deadSince

/-- A member that is dead is known to be dead. -/
def Tracked (m : Membership) (nodeID : NodeID) : Prop :=
  ∀ ms, m.members[nodeID]? = some ms → ms.liveness = .dead → nodeID ∈ m.deadSince

variable {ms : MemberState}

theorem getElem?_insert_other {map : ExtTreeMap NodeID MemberState} {other : NodeID}
    (different : other ≠ nodeID) : (map.insert nodeID ms)[other]? = map[other]? := by
  rw [getElem?_insert_if, if_neg (Ne.symm different)]

/-- A member keeps its entry. -/
theorem edits_same (found : m.members[nodeID]? = some ms) (tracked : m.Tracked nodeID) :
    Edits m m nodeID ms :=
  ⟨rfl, rfl, found, fun _ _ => rfl, tracked ms found, fun _ _ mem => mem⟩

/-- A member gets an entry, and is listed as dead if it is. -/
theorem edits_insert {deadSince : ExtTreeMap NodeID Nat} {timers : Std.ExtTreeSet NodeID}
    (dead : ms.liveness = .dead → nodeID ∈ deadSince)
    (others : ∀ other, other ≠ nodeID → other ∈ m.deadSince → other ∈ deadSince) :
    Edits m ⟨m.selfID, m.members.insert nodeID ms, timers, deadSince, m.ringDesc⟩ nodeID ms :=
  ⟨rfl, rfl, ExtTreeMap.getElem?_insert_self, fun _ => getElem?_insert_other, dead, others⟩

theorem edits_setLivenessLocked (found : m.members[nodeID]? = some ms) (tracked : m.Tracked nodeID)
    (liveness : LivenessState) :
    Edits m (m.setLivenessLocked now nodeID liveness).1 nodeID
      { ms with liveness := liveness } := by
  simp only [setLivenessLocked, found]
  split
  · rename_i same
    subst same
    exact edits_same found tracked
  apply edits_insert
  · intro dead
    rw [if_pos dead]
    exact ExtTreeMap.mem_insert_self
  · intro other different mem
    split
    · exact ExtTreeMap.mem_insert.mpr (.inr mem)
    · exact mem_erase_key.mpr ⟨Ne.symm different, mem⟩

theorem Edits.trans {middle : Membership} {ms' : MemberState} (first : Edits m middle nodeID ms)
    (second : Edits middle next nodeID ms') :
    Edits m next nodeID ms' where
  selfID := second.selfID.trans first.selfID
  ringDesc := second.ringDesc.trans first.ringDesc
  entry := second.entry
  others other different := (second.others other different).trans (first.others other different)
  dead := second.dead
  othersDead other different mem :=
    second.othersDead other different (first.othersDead other different mem)

/-- The entry that a merge leaves. -/
inductive Merged (m : Membership) (remote : MemberState) : MemberState → Prop where
  | learned (unknown : m.members[remote.nodeID]? = none) :
      Merged m remote { remote with ring := m.ringStateFromDescriptor remote.nodeID }
  | refuted {own : MemberState} (known : m.members[remote.nodeID]? = some own)
      (self : remote.nodeID = m.selfID) :
      Merged m remote { own with incarnation := remote.incarnation + 1, liveness := .alive }
  | outdated {own : MemberState} (known : m.members[remote.nodeID]? = some own)
      (self : remote.nodeID = m.selfID) : Merged m remote own
  | newer {own : MemberState} (known : m.members[remote.nodeID]? = some own)
      (free : remote.nodeID = m.selfID → remote.liveness = .alive)
      (above : own.incarnation < remote.incarnation) :
      Merged m remote { remote with ring := own.ring }
  | worse {own : MemberState} (known : m.members[remote.nodeID]? = some own)
      (free : remote.nodeID = m.selfID → remote.liveness = .alive)
      (same : remote.incarnation = own.incarnation)
      (above : own.liveness.rank < remote.liveness.rank) :
      Merged m remote { own with liveness := remote.liveness }
  | kept {own : MemberState} (known : m.members[remote.nodeID]? = some own)
      (notNewer : ¬own.incarnation < remote.incarnation)
      (notWorse : ¬(remote.incarnation = own.incarnation ∧
        own.liveness.rank < remote.liveness.rank)) : Merged m remote own

/-- A merge edits the entry of the member that the update is about. -/
theorem edits_mergeLocked {remote : MemberState} (tracked : m.Tracked remote.nodeID) :
    ∃ ms, Edits m (m.mergeLocked now remote).1 remote.nodeID ms ∧ m.Merged remote ms := by
  rw [mergeLocked]
  split
  · rename_i unknown
    refine ⟨_, edits_insert ?_ ?_, .learned unknown⟩
    · intro dead
      rw [if_pos dead]
      exact ExtTreeMap.mem_insert_self
    · intro other different mem
      split
      · exact ExtTreeMap.mem_insert.mpr (.inr mem)
      · exact mem
  · rename_i own known
    split
    · rename_i accused
      split
      · exact ⟨_, edits_insert (by rintro ⟨⟩) fun _ _ mem => mem, .refuted known accused.1⟩
      · exact ⟨_, edits_same known tracked, .outdated known accused.1⟩
    rename_i notAccused
    have free : remote.nodeID = m.selfID → remote.liveness = .alive := by
      intro self
      by_contra notAlive
      exact notAccused ⟨self, notAlive⟩
    split
    · rename_i above
      -- the entry is replaced first, with the old liveness, and the liveness follows
      have replaced := @edits_insert m remote.nodeID
        { remote with ring := own.ring, liveness := own.liveness } m.deadSince m.suspectTimers
        (tracked own known) fun _ _ mem => mem
      have merged := Merged.newer known free above
      dsimp only
      split
      · refine ⟨_, replaced.trans (edits_setLivenessLocked replaced.entry ?_ _), merged⟩
        intro ms found dead
        rw [replaced.entry] at found
        cases found
        exact replaced.dead dead
      rename_i same
      refine ⟨_, replaced, ?_⟩
      rw [← not_ne_iff.mp same]
      exact merged
    · rename_i notAbove
      split
      · rename_i worse
        exact ⟨_, edits_setLivenessLocked known tracked _, .worse known free worse.1 worse.2⟩
      · rename_i notWorse
        exact ⟨_, edits_same known tracked, .kept known notAbove notWorse⟩

/-- A merge keeps dead members known to be dead. -/
theorem Edits.tracked (edits : Edits m next nodeID ms) {other : NodeID}
    (tracked : m.Tracked other) : next.Tracked other := by
  intro found isFound dead
  by_cases same : other = nodeID
  · subst same
    rw [edits.entry] at isFound
    cases isFound
    exact edits.dead dead
  · rw [edits.others other same] at isFound
    exact edits.othersDead other same (tracked found isFound dead)

end Membership

/-! ## Standings -/

/-- What gossip compares: the incarnation, then the liveness. -/
def MemberState.standing (ms : MemberState) : Lex (Nat × Nat) :=
  toLex (ms.incarnation.toNat, ms.liveness.rank)

theorem MemberState.standing_le_iff {first second : MemberState} :
    first.standing ≤ second.standing ↔
      first.incarnation.toNat < second.incarnation.toNat ∨
        first.incarnation.toNat = second.incarnation.toNat ∧
          first.liveness.rank ≤ second.liveness.rank :=
  Prod.Lex.toLex_le_toLex

theorem LivenessState.rank_injective : Function.Injective LivenessState.rank := by
  intro first second same
  cases first <;> cases second <;> first | rfl | cases same

theorem MemberState.standing_eq_iff {first second : MemberState} :
    first.standing = second.standing ↔
      first.incarnation = second.incarnation ∧ first.liveness = second.liveness := by
  constructor
  · intro same
    rcases Prod.mk.inj (toLex.injective same) with ⟨incarnation, rank⟩
    exact ⟨UInt64.toNat_inj.mp incarnation, LivenessState.rank_injective rank⟩
  · rintro ⟨incarnation, liveness⟩
    rw [standing, standing, incarnation, liveness]

namespace Membership

variable {m : Membership} {nodeID : NodeID}

/-- Of a known member other than the node itself, a merge leaves the greater standing. -/
theorem Merged.standing_eq_max {remote own ms : MemberState} (merged : m.Merged remote ms)
    (other : remote.nodeID ≠ m.selfID) (known : m.members[remote.nodeID]? = some own) :
    ms.standing = max own.standing remote.standing := by
  cases merged with
  | learned unknown =>
    rw [unknown] at known
    cases known
  | refuted _ self => exact absurd self other
  | outdated _ self => exact absurd self other
  | newer found _ above =>
    rw [known] at found
    cases found
    exact (max_eq_right (MemberState.standing_le_iff.mpr
      (.inl (UInt64.lt_iff_toNat_lt.mp above)))).symm
  | worse found _ same above =>
    rw [known] at found
    cases found
    rw [max_eq_right (MemberState.standing_le_iff.mpr
      (.inr ⟨congrArg UInt64.toNat same.symm, above.le⟩))]
    exact MemberState.standing_eq_iff.mpr ⟨same.symm, rfl⟩
  | kept found notNewer notWorse =>
    rw [known] at found
    cases found
    apply (max_eq_left _).symm
    rw [MemberState.standing_le_iff]
    rcases Nat.lt_or_eq_of_le (Nat.le_of_not_lt fun above =>
      notNewer (UInt64.lt_iff_toNat_lt.mpr above)) with below | same
    · exact .inl below
    · refine .inr ⟨same, Nat.le_of_not_lt fun above => notWorse ⟨?_, above⟩⟩
      exact UInt64.toNat_inj.mp same

/-- Merge the updates one after the other, each at its own time. -/
def mergeInTurn (m : Membership) : List (Nat × MemberState) → Membership
  | [] => m
  | (now, update) :: rest => (m.mergeLocked now update).1.mergeInTurn rest

theorem mergeInTurn_known {own : MemberState} (updates : List (Nat × MemberState))
    (other : nodeID ≠ m.selfID) (about : ∀ u ∈ updates.map Prod.snd, u.nodeID = nodeID)
    (known : m.members[nodeID]? = some own) (tracked : m.Tracked nodeID) :
    ∃ ms, (m.mergeInTurn updates).members[nodeID]? = some ms ∧
      IsGreatest
        (insert own.standing (MemberState.standing '' {u | u ∈ updates.map Prod.snd}))
        ms.standing := by
  induction updates generalizing m own with
  | nil => exact ⟨own, known, by simp⟩
  | cons head rest ih =>
    rcases head with ⟨now, update⟩
    have aboutRest : ∀ u ∈ rest.map Prod.snd, u.nodeID = nodeID :=
      fun u mem => about u (List.mem_cons_of_mem _ mem)
    obtain rfl : update.nodeID = nodeID := about update List.mem_cons_self
    rcases @edits_mergeLocked m now update tracked with ⟨merged, edits, isMerged⟩
    have greater := isMerged.standing_eq_max other known
    rcases ih (edits.selfID ▸ other) aboutRest edits.entry (edits.tracked tracked) with
      ⟨ms, entry, greatest⟩
    refine ⟨ms, entry, ?_, ?_⟩
    · rcases greatest.1 with isMerged | ⟨u, mem, same⟩
      · rw [isMerged, greater]
        rcases max_choice own.standing update.standing with isOwn | isUpdate
        · exact .inl isOwn
        · exact .inr ⟨update, List.mem_cons_self, isUpdate.symm⟩
      · exact .inr ⟨u, List.mem_cons_of_mem _ mem, same⟩
    have bound := greatest.2 (Set.mem_insert _ _)
    rw [greater] at bound
    rintro standing (rfl | ⟨u, mem, rfl⟩)
    · exact (le_max_left _ _).trans bound
    · rcases List.mem_cons.mp mem with rfl | later
      · exact (le_max_right _ _).trans bound
      · exact greatest.2 (.inr ⟨u, later, rfl⟩)

/-- A member that was unknown ends with the greatest standing of the updates. -/
theorem mergeInTurn_unknown {updates : List (Nat × MemberState)} (nonempty : updates ≠ [])
    (other : nodeID ≠ m.selfID) (about : ∀ u ∈ updates.map Prod.snd, u.nodeID = nodeID)
    (unknown : m.members[nodeID]? = none) :
    ∃ ms, (m.mergeInTurn updates).members[nodeID]? = some ms ∧
      IsGreatest (MemberState.standing '' {u | u ∈ updates.map Prod.snd}) ms.standing := by
  cases updates with
  | nil => exact absurd rfl nonempty
  | cons head rest =>
    rcases head with ⟨now, update⟩
    obtain rfl : update.nodeID = nodeID := about update List.mem_cons_self
    have tracked : m.Tracked update.nodeID := by
      intro ms found
      rw [unknown] at found
      cases found
    rcases @edits_mergeLocked m now update tracked with ⟨merged, edits, isMerged⟩
    have standing : merged.standing = update.standing := by
      cases isMerged with
      | learned _ => rfl
      | refuted known _ => cases unknown.symm.trans known
      | outdated known _ => cases unknown.symm.trans known
      | newer known _ _ => cases unknown.symm.trans known
      | worse known _ _ _ => cases unknown.symm.trans known
      | kept known _ _ => cases unknown.symm.trans known
    have final := mergeInTurn_known rest (edits.selfID ▸ other)
      (fun u mem => about u (List.mem_cons_of_mem _ mem)) edits.entry (edits.tracked tracked)
    rw [standing, ← Set.image_insert_eq] at final
    have same : insert update {u | u ∈ rest.map Prod.snd} =
        {u | u ∈ ((now, update) :: rest).map Prod.snd} := by
      ext u
      simp
    rwa [same] at final

/-- The updates about a node, merged in any order and with any repetition, leave the
greatest incarnation and liveness among them; nodes that have merged the same updates
agree. -/
theorem gossip_converges {sent : Multiset MemberState} (nonempty : sent ≠ 0)
    (about : ∀ u ∈ sent, u.nodeID = nodeID) :
    (∀ m : Membership, nodeID ≠ m.selfID → m.members[nodeID]? = none →
      ∀ merged : List (Nat × MemberState), (∀ u, u ∈ merged.map Prod.snd ↔ u ∈ sent) →
        ∃ ms, (m.mergeInTurn merged).members[nodeID]? = some ms ∧
          IsGreatest (MemberState.standing '' {u | u ∈ sent}) ms.standing) ∧
    (∀ m m' : Membership, nodeID ≠ m.selfID → nodeID ≠ m'.selfID → m.members[nodeID]? = none →
      m'.members[nodeID]? = none → ∀ merged merged' : List (Nat × MemberState),
        (∀ u, u ∈ merged.map Prod.snd ↔ u ∈ sent) → (∀ u, u ∈ merged'.map Prod.snd ↔ u ∈ sent) →
          ∃ ms ms', (m.mergeInTurn merged).members[nodeID]? = some ms ∧
            (m'.mergeInTurn merged').members[nodeID]? = some ms' ∧
              ms.incarnation = ms'.incarnation ∧ ms.liveness = ms'.liveness) := by
  apply (and_iff_left_of_imp ?_).mpr
  · intro m other unknown merged same
    have sameSet : {u | u ∈ merged.map Prod.snd} = {u | u ∈ sent} := Set.ext same
    rw [← sameSet]
    apply mergeInTurn_unknown _ other _ unknown
    · rintro rfl
      rcases Multiset.exists_mem_of_ne_zero nonempty with ⟨u, mem⟩
      cases (same u).mpr mem
    · exact fun u mem => about u ((same u).mp mem)
  · intro single m m' other other' unknown unknown' merged merged' same same'
    rcases single m other unknown merged same with ⟨ms, entry, greatest⟩
    rcases single m' other' unknown' merged' same' with ⟨ms', entry', greatest'⟩
    exact ⟨ms, ms', entry, entry', MemberState.standing_eq_iff.mp (greatest.unique greatest')⟩

/-- Node `b` is suspected, refutes the suspicion, and the suspicion arrives again. -/
theorem repeated_suspicion_refuted :
    ∃ ms, ((Membership.new [97] [1]).mergeInTurn
        [(0, ⟨[98], [2], .suspect, .none, 1⟩), (1, ⟨[98], [2], .alive, .none, 2⟩),
          (2, ⟨[98], [2], .suspect, .none, 1⟩)]).members[([98] : NodeID)]? = some ms ∧
      IsGreatest (MemberState.standing ''
        {u | u ∈ ({⟨[98], [2], .suspect, .none, 1⟩, ⟨[98], [2], .alive, .none, 2⟩} :
          Multiset MemberState)}) ms.standing := by
  apply (gossip_converges Multiset.cons_ne_zero _).1
  · decide
  · decide
  · intro u
    simp
    tauto
  · decide

end Membership

end Theseon.Cluster
