import Theseon.AntiEntropy.Merge

/-!
# When a round moves a replica backwards

The merge takes an envelope that a side does not show for one that the side does not
have.  So a round replaces a newer envelope by an older one if its node keeps the newer
one out of sight while the other node shows the older one.  Where no key is like that,
a round moves both replicas forward only, whatever buckets it descends to and whatever
its budget.
-/

namespace Theseon.AntiEntropy

open Lib HLC Cluster List
open Theseon.Hashring (Ring)
open Std (ExtTreeMap)

/-- No stored envelope has been replaced by an older one. -/
def Kept (before after : Replica) : Prop :=
  ∀ key e, before.current key = some e →
    ∃ e', after.current key = some e' ∧ e.timestamp ≤ e'.timestamp

/-- Neither replica has moved backwards. -/
def NeverBackwards (before after : Replicas) : Prop :=
  Kept before.self after.self ∧ Kept before.peer after.peer

/-- If a node shows its envelope of a key, then so does the node that has a newer one. -/
def NewerShown (holder other : Replica) (holderShows otherShows : Bytes → Timestamp → Prop) :
    Prop :=
  ∀ key (newer older : Timestamp), stamp holder key = newer → stamp other key = older →
    older < newer → otherShows key older → holderShows key newer

theorem Forward.neverBackwards {before after : Replicas} (forward : Forward before after) :
    NeverBackwards before after := by
  have kept : ∀ {r r' : Replica}, (∀ key, stamp r key ≤ stamp r' key) → Kept r r' := by
    intro r r' le key e held
    have atKey := le key
    rw [stamp_eq_coe_iff.mpr ⟨e, held, rfl⟩] at atKey
    rcases WithBot.coe_le_iff.mp atKey with ⟨ts, stamped, newer⟩
    rcases stamp_eq_coe_iff.mp stamped with ⟨e', current, rfl⟩
    exact ⟨e', current, newer⟩
  constructor
  · exact kept fun key => (forward.self key).elim Eq.ge fun newest => newest ▸ le_sup_left
  · exact kept fun key => (forward.peer key).elim Eq.ge fun newest => newest ▸ le_sup_right

theorem NewerShown.forward {before after : Replicas}
    {selfShows peerShows : Bytes → Timestamp → Prop}
    (ofSelf : NewerShown before.self before.peer selfShows peerShows)
    (ofPeer : NewerShown before.peer before.self peerShows selfShows)
    (forward : Forward before after) :
    NewerShown after.self after.peer selfShows peerShows ∧
      NewerShown after.peer after.self peerShows selfShows := by
  constructor
  · intro key newer older held others less
    have differ : stamp after.self key ≠ stamp after.peer key := by
      simpa [held, others] using less.ne'
    rcases forward.unchanged differ with ⟨self, peer⟩
    exact ofSelf key newer older (self ▸ held) (peer ▸ others) less
  · intro key newer older held others less
    have differ : stamp after.self key ≠ stamp after.peer key := by
      simpa [held, others] using less.ne
    rcases forward.unchanged differ with ⟨self, peer⟩
    exact ofPeer key newer older (peer ▸ held) (self ▸ others) less

namespace Reconciler

section Sight

variable (sum64 : Bytes → UInt64) (c : Reconciler) (s : Service) (times : Times)

/-- The initiator shows an envelope with the given timestamp. -/
def SelfShows (key : Bytes) (ts : Timestamp) : Prop :=
  InSight (c.owned sum64) (times.drain (bucketOf sum64 c.fanout c.depth key)) key ts

/-- The peer shows an envelope with the given timestamp. -/
def PeerShows (key : Bytes) (ts : Timestamp) : Prop :=
  ∃ checked, s.validateDigest (c.digest times) = .ok checked ∧
    InSight (s.owned sum64 checked) times.digest key ts

end Sight

variable {sum64 : Bytes → UInt64} {c : Reconciler} {s : Service} {times : Times} {rs : Replicas}
  {checked : Nat × NodeID}

/-! ## A bucket -/

/-- If the entries of one side show less of a key than those of the other, then it has
no newer envelope. -/
theorem stamp_le_of_view_lt {r r' : Replica} {shows shows' : Bytes → Timestamp → Prop}
    {bucketed : Bytes → Prop} {entries entries' : List Entry} {key : Bytes}
    (newerShown : NewerShown r r' shows shows')
    (ofEntries : ∀ key (ts : Timestamp), view entries key = ts ↔
      bucketed key ∧ stamp r key = ts ∧ shows key ts)
    (ofEntries' : ∀ key (ts : Timestamp), view entries' key = ts ↔
      bucketed key ∧ stamp r' key = ts ∧ shows' key ts)
    (less : view entries key < view entries' key) : stamp r key ≤ stamp r' key := by
  rcases WithBot.ne_bot_iff_exists.mp less.ne_bot with ⟨older, shown⟩
  rcases (ofEntries' key older).mp shown.symm with ⟨inBucket, stamped, inSight⟩
  induction held : stamp r key with
  | bot => exact bot_le
  | coe newer =>
    rw [stamped]
    apply WithBot.coe_le_coe.mpr
    by_contra notLe
    have inSight' := newerShown key newer older held stamped (not_le.mp notLe) inSight
    rw [(ofEntries key newer).mpr ⟨inBucket, held, inSight'⟩, ← shown] at less
    exact notLe (WithBot.coe_lt_coe.mp less).le

/-- The sizes of a digest that is accepted are those of the configuration. -/
theorem sizes_of_validateDigest (leaves : c.fanout ^ c.depth ≤ 2 ^ 32)
    (shape : ∃ t, Tree.new c.fanout c.depth = .ok t)
    (valid : s.validateDigest (c.digest times) = .ok checked) :
    (c.digest times).fanout.toNat = c.fanout ∧ (c.digest times).depth.toNat = c.depth := by
  rcases shape with ⟨t, created⟩
  rw [Tree.new] at created
  split at created
  · cases created
  split at created
  · cases created
  rename_i deep
  have bounds := not_or.mp deep
  have depthPos : c.depth ≠ 0 := by omega
  have fanoutLe : c.fanout ≤ 2 ^ 32 := (Nat.le_self_pow depthPos c.fanout).trans leaves
  have small : c.fanout < 2 ^ 32 := by
    apply lt_of_le_of_ne fanoutLe
    intro equal
    -- a fanout of 2 ^ 32 travels as zero and is refused
    have zero : (c.digest times).fanout = 0 := by
      rw [digest, equal]
      rfl
    rw [Service.validateDigest] at valid
    split at valid
    · cases valid
    · rw [zero, if_pos (.inl (by decide))] at valid
      cases valid
  have size : UInt32.size = 2 ^ 32 := rfl
  exact ⟨UInt32.toNat_ofNat_of_lt' small, UInt32.toNat_ofNat_of_lt' (by omega)⟩

theorem shape_of_bucketEntries {owned : Bytes → Bool} {r : Replica} {fanout depth bucket : Nat}
    {cutoff : Int64} {entries : List Entry}
    (read : bucketEntries sum64 owned r fanout depth bucket cutoff = .ok entries) :
    ∃ t, Tree.new fanout depth = .ok t := by
  rw [bucketEntries] at read
  split at read
  · cases read
  · exact ⟨_, by assumption⟩

/-- A bucket moves the replicas forward. -/
theorem reconcileBucket_forward {bucket budget : Nat} (leaves : c.fanout ^ c.depth ≤ 2 ^ 32)
    (ofSelf : NewerShown rs.self rs.peer (c.SelfShows sum64 times) (c.PeerShows sum64 s times))
    (ofPeer : NewerShown rs.peer rs.self (c.PeerShows sum64 s times) (c.SelfShows sum64 times)) :
    Forward rs (c.reconcileBucket sum64 s times rs bucket budget).1.toReplicas := by
  have start : Advancing rs ⟨rs, [], 0⟩ := ⟨.refl rs, forall_mem_nil _⟩
  rw [reconcileBucket]
  split
  · exact start.forward
  split
  · exact start.forward
  rename_i locals drained
  split
  · exact start.forward
  rename_i peers streamed
  rw [Service.getAELeafKeys] at streamed
  split at streamed
  · cases streamed
  rename_i checked valid
  split at streamed
  · cases streamed
  rename_i entries read
  cases streamed
  rcases bucketEntries_spec drained with ⟨inside, localsSorted, localsView⟩
  rcases sizes_of_validateDigest leaves (shape_of_bucketEntries drained) valid with ⟨fanout, depth⟩
  have index : (UInt32.ofNat bucket).toNat = bucket :=
    UInt32.toNat_ofNat_of_lt' (inside.trans_le leaves)
  rw [fanout, depth, index] at read
  rcases bucketEntries_spec read with ⟨_, peersSorted, peersView⟩
  have selfView : ∀ key (ts : Timestamp), view locals key = ts ↔
      bucketOf sum64 c.fanout c.depth key = bucket ∧ stamp rs.self key = ts ∧
        c.SelfShows sum64 times key ts := by
    intro key ts
    rw [localsView, SelfShows]
    exact and_congr_right fun inBucket => by rw [inBucket]
  have peerView : ∀ key (ts : Timestamp), view peers key = ts ↔
      bucketOf sum64 c.fanout c.depth key = bucket ∧ stamp rs.peer key = ts ∧
        c.PeerShows sum64 s times key ts := by
    intro key ts
    rw [peersView, PeerShows, valid]
    simp [digest]
  apply Advancing.forward
  apply Outcome.andThen_keeps
  · apply mergeEntries_keeps localsSorted peersSorted _ _ start
    · intro p key advancing less
      exact advancing.pull (stamp_le_of_view_lt ofSelf selfView peerView less)
    · intro p key advancing less
      exact advancing.push (stamp_le_of_view_lt ofPeer peerView selfView less)
  · exact fun p advancing => advancing.flush

/-! ## The round -/

theorem reconcileBuckets_forward (leaves : c.fanout ^ c.depth ≤ 2 ^ 32) (buckets : List Nat)
    (keysRepaired : Nat)
    (ofSelf : NewerShown rs.self rs.peer (c.SelfShows sum64 times) (c.PeerShows sum64 s times))
    (ofPeer : NewerShown rs.peer rs.self (c.PeerShows sum64 s times) (c.SelfShows sum64 times)) :
    Forward rs (c.reconcileBuckets sum64 s times buckets keysRepaired rs).1 := by
  induction buckets generalizing keysRepaired rs with
  | nil => exact .refl rs
  | cons bucket rest ih =>
    rw [reconcileBuckets]
    split
    · exact .refl rs
    have forward := @reconcileBucket_forward _ _ _ _ _ bucket (c.maxRepairPerRound - keysRepaired)
      leaves ofSelf ofPeer
    split
    · rename_i failed
      rw [failed] at forward
      exact forward
    · rename_i reconciled
      rw [reconciled] at forward
      rcases ofSelf.forward ofPeer forward with ⟨ofSelf, ofPeer⟩
      exact forward.trans (ih _ ofSelf ofPeer)

/-- The sum of the bytes as hash. -/
def byteSum (b : Bytes) : UInt64 :=
  b.foldl (fun sum x => sum + x.toUInt64) 0

def twoNodes : Ring :=
  (Hashring.Ring.new 1).replaceMembers (.insertion _) byteSum [⟨[97], [1]⟩, ⟨[98], [2]⟩]

/-- Node `a` reconciles with node `b`, over two buckets. -/
def twoBuckets : Reconciler :=
  ⟨[97], [98], twoNodes, 2, 1, 10, 1, 2⟩

def peerService : Service :=
  ⟨[98], twoNodes, 1, 2⟩

/-- Both cutoffs are the same. -/
def oneCutoff : Times :=
  ⟨3, fun _ => 3, fun _ _ => 10⟩

/-- A replica with the key `k`, written at the given time. -/
def writtenAt (wall : Int64) : Replica :=
  (Replica.applyRepair ⟨.new [], ∅⟩ [107] ⟨⟨wall, 0, [97]⟩, false, [49]⟩).1

theorem writtenAt_eq (wall : Int64) :
    ∃ encoded, decodeEnvelope encoded = .ok ⟨⟨wall, 0, [97]⟩, false, [49]⟩ ∧
      writtenAt wall = ⟨.new [], (∅ : ExtTreeMap Bytes Bytes).insert [107] encoded⟩ := by
  have fits : ¬ Timestamp.maxNodeIDLen < [(97 : UInt8)].length := by decide
  rcases isEncoded : encodeEnvelope ⟨⟨wall, 0, [97]⟩, false, [49]⟩ with err | encoded
  · rw [encodeEnvelope, Timestamp.encode, if_neg fits] at isEncoded
    cases isEncoded
  refine ⟨encoded, decodeEnvelope_encodeEnvelope isEncoded, ?_⟩
  rw [writtenAt, Replica.applyRepair, checkLocal, isEncoded]
  rfl

theorem stamp_writtenAt {wall : Int64} {key : Bytes} {ts : Timestamp}
    (stamped : stamp (writtenAt wall) key = ts) : key = [107] ∧ ts = ⟨wall, 0, [97]⟩ := by
  rcases writtenAt_eq wall with ⟨encoded, decoded, same⟩
  rcases stamp_eq_coe_iff.mp stamped with ⟨e, isCurrent, rfl⟩
  rcases exists_of_current isCurrent with ⟨value, stored, decoded'⟩
  rw [same, getElem?_insert_if] at stored
  split at stored
  · rename_i isKey
    cases stored
    rw [decoded] at decoded'
    cases decoded'
    exact ⟨isKey.symm, rfl⟩
  · simp at stored

end Reconciler

end Theseon.AntiEntropy
