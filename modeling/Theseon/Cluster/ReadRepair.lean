import Theseon.Cluster.QuorumReads
import Theseon.Cluster.VectorSearch

/-!
# What the replies decide

All loops of the coordinator that wait for a quorum count alike, so whether a call
succeeds depends on the replies and not on the order of their arrival.

A read that has its quorum leaves the other replies to the background, which takes the
newest of all responses and sends it to the replicas that have answered with less.
-/

namespace Theseon.Cluster

open Lib HLC List
open Replicated (threeReplicas)

/-! ## The outcome -/

section

variable {α : Type} {quorum group : Nat} {replies : List (Reply α)}

theorem answers_append (heard rest : List (Reply α)) :
    answers (heard ++ rest) = answers heard ++ answers rest :=
  filterMap_append

/-- With the replies of the whole group the loop ends.  It has the quorum exactly if
enough of them are answers, and then it has the first of these. -/
theorem awaitQuorum_outcome (within : quorum ≤ group) (arrived : replies.length = group) :
    ∃ got failures, awaitQuorum quorum group replies = some (got, failures) ∧
      (quorum ≤ got.length ↔ quorum ≤ (answers replies).length) ∧
      (quorum ≤ got.length → got = (answers replies).take quorum) := by
  rcases @collectQuorum_total _ quorum (group - quorum + 1) 0 []
    (replies.map fun r => r.2.map fun answer => (r.1, answer)) (by simp; omega) with
    ⟨⟨got, failures⟩, awaited⟩
  refine ⟨got, failures, awaited, ?_⟩
  rcases awaitQuorum_eq_some awaited with ⟨heard, rest, rfl, rfl, count, most, failed⟩
  have late : (answers rest).length ≤ rest.length := length_filterMap_le _ _
  rw [length_append] at arrived
  rw [answers_append, length_append]
  refine ⟨⟨by omega, fun enough => by omega⟩, fun met => ?_⟩
  rw [← le_antisymm most met, take_left]

end

/-- Fewer answers than the quorum are an error. -/
theorem quorum_unmet {ε β : Type} {quorum answered count : Nat} {err : ε} {value : β}
    (same : quorum ≤ count ↔ quorum ≤ answered) :
    (∃ done, (if count < quorum then .error err else .ok value : Except ε β) = .ok done) ↔
      quorum ≤ answered := by
  rw [← same, ← not_lt]
  split <;> simp [*]

/-! ## Newest responses -/

/-- A later response replaces the newest one if it is newer. -/
def laterReply (newest : NodeID × Envelope) : NodeID × Option Envelope → NodeID × Envelope
  | (x, some e) => if newest.2.timestamp.less e.timestamp then (x, e) else newest
  | (_, none) => newest

/-- The first response that has the key is the newest so far. -/
def newerReply : Option (NodeID × Envelope) → NodeID × Option Envelope →
    Option (NodeID × Envelope)
  | some newest, r => some (laterReply newest r)
  | none, r => r.2.map fun e => (r.1, e)

theorem newerReply_snd (newest : Option (NodeID × Envelope)) (r : NodeID × Option Envelope) :
    (newerReply newest r).map Prod.snd = keepNewer (newest.map Prod.snd) r.2 := by
  rcases r with ⟨x, _ | e⟩ <;> cases newest with
  | none => rfl
  | some cur =>
    simp only [newerReply, laterReply, Option.map_some, keepNewer]
    try split <;> rfl

/-- The selected response, with the node that has sent it. -/
theorem foldl_newerReply_snd (responses : List (NodeID × Option Envelope))
    (newest : Option (NodeID × Envelope)) :
    (responses.foldl newerReply newest).map Prod.snd =
      (responses.map Prod.snd).foldl keepNewer (newest.map Prod.snd) := by
  induction responses generalizing newest with
  | nil => rfl
  | cons r rest ih => rw [foldl_cons, ih, newerReply_snd, map_cons, foldl_cons]

/-- One of the responses, and none of them is newer; nothing if none has the key. -/
def IsNewest (responses : List (NodeID × Option Envelope)) : Option (NodeID × Envelope) → Prop
  | none => ∀ r ∈ responses, r.2 = none
  | some newest => (newest.1, some newest.2) ∈ responses ∧
      ∀ r ∈ responses, ∀ e ∈ r.2, e.timestamp ≤ newest.2.timestamp

theorem IsNewest.concat {responses : List (NodeID × Option Envelope)}
    {newest : Option (NodeID × Envelope)} (isNewest : IsNewest responses newest)
    (r : NodeID × Option Envelope) : IsNewest (responses ++ [r]) (newerReply newest r) := by
  rcases r with ⟨x, _ | e⟩
  · cases newest <;> simpa [newerReply, laterReply, IsNewest, or_imp, forall_and] using isNewest
  cases newest with
  | none =>
    constructor
    · exact mem_append_right _ mem_cons_self
    · intro r mem e' isResponse
      rcases mem_append.mp mem with old | isLast
      · rw [isNewest r old] at isResponse
        cases isResponse
      · cases mem_singleton.mp isLast
        cases isResponse
        exact le_rfl
  | some cur =>
    rcases isNewest with ⟨mem, greatest⟩
    by_cases newer : cur.2.timestamp.less e.timestamp = true
    · rw [newerReply, laterReply, if_pos newer]
      have less := Timestamp.less_iff_lt.mp newer
      refine ⟨mem_append_right _ mem_cons_self, forall_mem_append.mpr ⟨?_, ?_⟩⟩
      · exact fun r old e' isResponse => (greatest r old e' isResponse).trans less.le
      · simp
    · rw [newerReply, laterReply, if_neg newer]
      rw [Bool.not_eq_true, Timestamp.less_eq_false_iff_le] at newer
      exact ⟨mem_append_left _ mem, forall_mem_append.mpr ⟨greatest, by simpa using newer⟩⟩

theorem isNewest_foldl (responses : List (NodeID × Option Envelope)) :
    IsNewest responses (responses.foldl newerReply none) := by
  induction responses using List.reverseRecOn with
  | nil => exact forall_mem_nil _
  | append_singleton init r ih =>
    rw [foldl_concat]
    exact ih.concat r

/-- In any order of arrival a write and the write or deletion of a vector succeed exactly
if `W` of the voters succeed, and a search and a read exactly if `R` of the replicas
answer.  The read returns the newest of the first `R` answers. -/
theorem quorum_outcome (v : View) (key : Bytes) :
    (∀ acks : List (Reply Unit), v.cfg.writeQuorum ≤ (v.voters key).length →
      acks.length = (v.voters key).length → ∃ result, v.writeResult key acks = some result ∧
        v.vectorWrite key acks = some result ∧ v.vectorDelete key acks = some result ∧
        (result = .ok () ↔ v.cfg.writeQuorum ≤ (answers acks).length)) ∧
    (∀ (D : Type) (responses : List (Reply (List (VectorSearchResult D)))) (late : Nat),
      v.cfg.readQuorum ≤ (v.readable key).length → responses.length = (v.readable key).length →
      ∃ result, v.gather key responses late = some result ∧
        ((∃ tagged, result = .ok tagged) ↔ v.cfg.readQuorum ≤ (answers responses).length)) ∧
    ∀ responses : List (Reply (Option Envelope)), v.cfg.readQuorum ≤ (v.readable key).length →
      responses.length = (v.readable key).length →
      ∃ result, v.readResult key responses = some result ∧
        ((∃ selected, result = .ok selected) ↔ v.cfg.readQuorum ≤ (answers responses).length) ∧
        ∀ selected, result = .ok selected → ∃ newest, newest.map Prod.snd = selected ∧
          IsNewest ((answers responses).take v.cfg.readQuorum) newest := by
  refine ⟨fun acks within arrived => ?_, fun D responses late within arrived => ?_,
    fun responses within arrived => ?_⟩
  · rcases awaitQuorum_outcome within arrived with ⟨got, failures, awaited, met, _⟩
    have vector : v.vectorResult key acks = v.writeResult key acks := if_neg (not_lt.mpr within)
    rw [View.vectorWrite, View.vectorDelete, vector, View.writeResult, awaited]
    refine ⟨_, rfl, rfl, rfl, ?_⟩
    rw [← met]
    dsimp only
    split
    · exact iff_of_true rfl (by assumption)
    · exact iff_of_false nofun (by assumption)
  · rcases awaitQuorum_outcome within arrived with ⟨got, failures, awaited, met, _⟩
    refine ⟨_, by rw [View.gather, if_neg (not_lt.mpr within), awaited]; rfl, quorum_unmet met⟩
  · rcases awaitQuorum_outcome within arrived with ⟨got, failures, awaited, met, isGot⟩
    refine ⟨_, by rw [View.readResult, awaited]; rfl, quorum_unmet met, ?_⟩
    intro selected isSelected
    split at isSelected
    · cases isSelected
    rename_i enough
    cases isSelected
    refine ⟨got.foldl newerReply none, foldl_newerReply_snd got none, ?_⟩
    rw [← isGot (not_lt.mp enough)]
    exact isNewest_foldl got

/-! ## Repairs -/

/-- The nodes that have answered with an older version, or without one, get the newest. -/
def readRepair (newest : NodeID × Envelope) (responses : List (NodeID × Option Envelope)) :
    List (NodeID × Envelope) :=
  (responses.filter fun r => r.1 ≠ newest.1 ∧
    ∀ e ∈ r.2, e.timestamp.less newest.2.timestamp = true).map fun r => (r.1, newest.2)

/-- The replies that come after the quorum are awaited in the background. -/
def collectAndRepair (newest : NodeID × Envelope) (collected : List (NodeID × Option Envelope))
    (late : List (Reply (Option Envelope))) : List (NodeID × Envelope) :=
  readRepair ((answers late).foldl laterReply newest) (collected ++ answers late)

/-- `Read` with the replies in the order of their arrival: what is returned, and the
repairs that are sent. -/
def View.read (v : View) (key : Bytes) (replies : List (Reply (Option Envelope))) :
    Option (Except CoordinatorError (Option Envelope × List (NodeID × Envelope))) :=
  let readable := (v.readable key).length
  (awaitQuorum v.cfg.readQuorum readable replies).map fun (got, failures) =>
    if got.length < v.cfg.readQuorum then .error (.readQuorumNotMet got.length v.cfg.readQuorum)
    else
      match got.foldl newerReply none with
      | none => .ok (none, [])
      | some newest =>
        let heard := got.length + failures
        .ok (some newest.2,
          collectAndRepair newest got ((replies.drop heard).take (readable - heard)))

theorem foldl_newerReply_some (newest : NodeID × Envelope)
    (responses : List (NodeID × Option Envelope)) :
    responses.foldl newerReply (some newest) = some (responses.foldl laterReply newest) := by
  induction responses generalizing newest with
  | nil => rfl
  | cons r rest ih => exact ih (laterReply newest r)

theorem nodup_readable (v : View) (key : Bytes) : (v.readable key).Nodup := by
  refine Nodup.sublist (filter_sublist.map _) ?_
  rw [View.replicas, Hashring.Ring.map_id_getNodes]
  exact (Hashring.nodup_owners _).sublist (take_sublist _ _)

section

variable {responses : List (NodeID × Option Envelope)} {newest : NodeID × Envelope}

/-- The node of the newest response is not repaired, and needs no repair. -/
theorem mem_readRepair (once : (responses.map Prod.fst).Nodup)
    (isNewest : IsNewest responses (some newest)) {x : NodeID} :
    x ∈ (readRepair newest responses).map Prod.fst ↔
      ∃ response, (x, response) ∈ responses ∧
        ∀ e ∈ response, e.timestamp < newest.2.timestamp := by
  simp only [readRepair, map_map, mem_map, mem_filter, decide_eq_true_eq, Timestamp.less_iff_lt]
  constructor
  · rintro ⟨⟨x, response⟩, ⟨mem, _, older⟩, rfl⟩
    exact ⟨response, mem, older⟩
  · rintro ⟨response, mem, older⟩
    refine ⟨(x, response), ⟨mem, ?_, older⟩, rfl⟩
    rintro rfl
    have same := inj_on_of_nodup_map once mem isNewest.1 rfl
    cases same
    exact absurd (older newest.2 rfl) (lt_irrefl _)

theorem nodup_readRepair (once : (responses.map Prod.fst).Nodup) :
    ((readRepair newest responses).map Prod.fst).Nodup := by
  rw [readRepair, map_map]
  exact once.sublist (filter_sublist.map _)

end

/-- A read that finds the key repairs exactly the replicas that have answered with less
than the newest of all responses, each of them once and with that response. -/
theorem repairs_exact {v : View} {key : Bytes} {replies : List (Reply (Option Envelope))}
    (within : v.cfg.readQuorum ≤ (v.readable key).length)
    (arrived : (replies.map Prod.fst).Perm (v.readable key))
    (met : v.cfg.readQuorum ≤ (answers replies).length) {x : NodeID} {e : Envelope}
    (found : (x, some e) ∈ (answers replies).take v.cfg.readQuorum) :
    ∃ selected repairs, v.read key replies = some (.ok (some selected, repairs)) ∧
      ∃ newest : NodeID × Envelope, (newest.1, some (some newest.2)) ∈ replies ∧
        (∀ y e, (y, some (some e)) ∈ replies → e.timestamp ≤ newest.2.timestamp) ∧
        (repairs.map Prod.fst).Nodup ∧ (∀ r ∈ repairs, r.2 = newest.2) ∧
        ∀ y, y ∈ repairs.map Prod.fst ↔ ∃ response, (y, some response) ∈ replies ∧
          ∀ e ∈ response, e.timestamp < newest.2.timestamp := by
  have count : replies.length = (v.readable key).length := by
    rw [← arrived.length_eq, length_map]
  rcases awaitQuorum_outcome within count with ⟨got, failures, awaited, isMet, isGot⟩
  have once : ((answers replies).map Prod.fst).Nodup :=
    (arrived.nodup_iff.mpr (nodup_readable v key)).sublist (map_fst_answers replies)
  have enough := isMet.mpr met
  rw [← isGot enough] at found
  rcases awaitQuorum_eq_some awaited with ⟨heard, rest, rfl, rfl, isHeard, _⟩
  have newest := isNewest_foldl (answers (heard ++ rest))
  rw [answers_append] at once newest
  have first := isNewest_foldl (answers heard)
  cases isFirst : (answers heard).foldl newerReply none with
  | none =>
    rw [isFirst] at first
    cases first _ found
  | some selected =>
    have late : ((heard ++ rest).drop heard.length).take
        ((v.readable key).length - heard.length) = rest := by
      rw [drop_left, ← count, length_append, Nat.add_sub_cancel_left, take_length]
    rw [foldl_append, isFirst, foldl_newerReply_some] at newest
    refine ⟨selected.2, collectAndRepair selected (answers heard) rest, ?_,
      (answers rest).foldl laterReply selected, ?_, ?_, nodup_readRepair once, ?_, fun y => ?_⟩
    · rw [View.read]
      dsimp only
      rw [awaited, Option.map_some, if_neg (not_lt.mpr enough), isFirst]
      dsimp only
      rw [← isHeard, late]
    · rw [← mem_answers, answers_append]
      exact newest.1
    · intro y e listed
      rw [← mem_answers, answers_append] at listed
      exact newest.2 _ listed e rfl
    · exact forall_mem_map.mpr fun _ _ => rfl
    · rw [collectAndRepair, mem_readRepair once newest, ← answers_append]
      simp only [mem_answers]

/-- Node `b` is behind, and node `c` does not have the key and answers last. -/
def lateReplies : List (Reply (Option Envelope)) :=
  [([98], some (some ⟨⟨1, 0, [97]⟩, false, [49]⟩)),
    ([97], some (some ⟨⟨2, 0, [97]⟩, false, [50]⟩)), ([99], some none)]

theorem late_replies_repaired : ∃ selected repairs newest,
    threeReplicas.read [97] lateReplies = some (.ok (some selected, repairs)) ∧
      ∀ y, y ∈ repairs.map Prod.fst ↔ ∃ response, (y, some response) ∈ lateReplies ∧
        ∀ e ∈ response, e.timestamp < newest := by
  have found : ([98], some ⟨⟨1, 0, [97]⟩, false, [49]⟩) ∈
      (answers lateReplies).take threeReplicas.cfg.readQuorum := mem_cons_self
  rcases @repairs_exact _ [97] _ (by decide +kernel) (by decide +kernel) (by decide) _ _ found with
    ⟨selected, repairs, isRead, newest, _, _, _, _, repaired⟩
  exact ⟨selected, repairs, newest.2.timestamp, isRead, repaired⟩

end Theseon.Cluster
