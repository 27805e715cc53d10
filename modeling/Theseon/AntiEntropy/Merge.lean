import Theseon.AntiEntropy.Stamps

/-!
# The merge of a bucket

The merge pulls a key that the peer shows with a newer timestamp, or alone, and pushes
one that the own entries show so.  A pull takes effect at once, a push when its batch
is sent.

As long as every envelope that is sent is the newest of the two that were there at
first, no replica loses a newer one.
-/

namespace Theseon.AntiEntropy

open Lib HLC Cluster List
open Std (ExtTreeMap)

/-! ## The loop -/

section Loop

variable {locals peers entries entries' : List Entry} {m key : Bytes} {x y : WithBot Timestamp}

/-- One list without the entry of the key `m`, for which it shows `x`. -/
structure Drops (m : Bytes) (x : WithBot Timestamp) (entries entries' : List Entry) : Prop where
  sorted : entries'.Pairwise fun first second => first.key < second.key
  view_eq : ∀ key, m < key → view entries key = view entries' key
  later : ∀ e ∈ entries', m < e.key
  first : view entries m = x

theorem Drops.head {e : Entry}
    (sorted : (e :: entries).Pairwise fun first second => first.key < second.key) :
    Drops e.key e.timestamp (e :: entries) entries := by
  rcases pairwise_cons.mp sorted with ⟨below, rest⟩
  constructor
  · exact rest
  · intro key later
    rw [view_cons, if_neg later.ne]
  · exact below
  · rw [view_cons, if_pos rfl]

theorem view_eq_bot (later : ∀ e ∈ entries, m < e.key) : view entries m = ⊥ := by
  induction shown : view entries m with
  | bot => rfl
  | coe ts =>
    rcases exists_of_view shown with ⟨e, mem, same, _⟩
    exact absurd same (later e mem).ne'

theorem Drops.missing (sorted : entries.Pairwise fun first second => first.key < second.key)
    (later : ∀ e ∈ entries, m < e.key) : Drops m ⊥ entries entries :=
  ⟨sorted, fun _ _ => rfl, later, view_eq_bot later⟩

/-- A key below the first entry is below all. -/
theorem below_of_head {e : Entry}
    (sorted : (e :: entries).Pairwise fun first second => first.key < second.key)
    (less : m < e.key) : ∀ f ∈ e :: entries, m < f.key := by
  intro f mem
  rcases mem_cons.mp mem with rfl | later
  · exact less
  · exact less.trans ((pairwise_cons.mp sorted).1 f later)

/-- What the remaining entries show, all entries show. -/
theorem Drops.view_lt {locals' peers' : List Entry} (ofLocals : Drops m x locals locals')
    (ofPeers : Drops m y peers peers') (less : view locals' key < view peers' key) :
    view locals key < view peers key := by
  rcases WithBot.ne_bot_iff_exists.mp less.ne_bot with ⟨ts, shown⟩
  rcases exists_of_view shown.symm with ⟨e, mem, rfl, _⟩
  have later := ofPeers.later e mem
  rwa [ofLocals.view_eq _ later, ofPeers.view_eq _ later]

theorem Outcome.andThen_keeps {P : Progress → Prop} {o : Outcome} {next : Progress → Outcome}
    (holds : P o.1) (continues : ∀ p, P p → P (next p).1) : P (o.andThen next).1 := by
  rcases o with ⟨p, err | _⟩
  · exact holds
  · exact continues p holds

/-- What the pulls and the pushes of the keys that differ keep, the loop keeps. -/
theorem mergeEntries_keeps {P : Progress → Prop} {peerTime : Nat → Int64} {budget rounds : Nat}
    {p : Progress} (localsSorted : locals.Pairwise fun first second => first.key < second.key)
    (peersSorted : peers.Pairwise fun first second => first.key < second.key)
    (pull : ∀ p key, P p → view locals key < view peers key → P (p.pullFromPeer key).1)
    (push : ∀ p key, P p → view peers key < view locals key → P (p.pushLocal peerTime key).1)
    (holds : P p) : P (mergeEntries peerTime budget rounds locals peers p).1 := by
  induction rounds generalizing locals peers p with
  | zero => exact holds
  | succ rounds ih =>
    -- one key is done, and the loop goes on with the others
    have goOn {m x y locals' peers'} {o : Outcome} (ofLocals : Drops m x locals locals')
        (ofPeers : Drops m y peers peers') (kept : P o.1) :
        P (o.andThen (mergeEntries peerTime budget rounds locals' peers')).1 := by
      apply Outcome.andThen_keeps kept
      intro q holds
      exact ih ofLocals.sorted ofPeers.sorted
        (fun p key holds less => pull p key holds (ofLocals.view_lt ofPeers less))
        (fun p key holds less => push p key holds (ofPeers.view_lt ofLocals less)) holds
    have pulled {m x locals' peers'} {t : Timestamp} (ofLocals : Drops m x locals locals')
        (ofPeers : Drops m t peers peers') (less : x < t) :
        P ((p.pullFromPeer m).andThen (mergeEntries peerTime budget rounds locals' peers')).1 :=
      goOn ofLocals ofPeers (pull p m holds (by rwa [ofLocals.first, ofPeers.first]))
    have pushed {m y locals' peers'} {t : Timestamp} (ofLocals : Drops m t locals locals')
        (ofPeers : Drops m y peers peers') (less : y < t) :
        P ((p.pushLocal peerTime m).andThen
          (mergeEntries peerTime budget rounds locals' peers')).1 :=
      goOn ofLocals ofPeers (push p m holds (by rwa [ofLocals.first, ofPeers.first]))
    rw [mergeEntries.eq_def]
    dsimp only
    split
    · exact holds
    split
    · exact holds
    · exact pulled (.missing .nil fun f mem => absurd mem not_mem_nil) (.head peersSorted)
        (WithBot.bot_lt_coe _)
    · exact pushed (.head localsSorted) (.missing .nil fun f mem => absurd mem not_mem_nil)
        (WithBot.bot_lt_coe _)
    · rename_i l locals e peers
      split
      · rename_i same
        have ofPeers := Drops.head peersSorted
        rw [← same] at ofPeers ⊢
        split
        · rename_i less
          exact pulled (.head localsSorted) ofPeers
            (WithBot.coe_lt_coe.mpr (Timestamp.less_iff_lt.mp less))
        split
        · rename_i less
          exact pushed (.head localsSorted) ofPeers
            (WithBot.coe_lt_coe.mpr (Timestamp.less_iff_lt.mp less))
        · exact goOn (.head localsSorted) ofPeers holds
      · rename_i different
        split
        · rename_i less
          exact pushed (.head localsSorted)
            (.missing peersSorted (below_of_head peersSorted less)) (WithBot.bot_lt_coe _)
        · rename_i notLess
          have less : e.key < l.key :=
            lt_of_le_of_ne (not_lt.mp notLess) fun equal => different equal.symm
          exact pulled (.missing localsSorted (below_of_head localsSorted less))
            (.head peersSorted) (WithBot.bot_lt_coe _)

end Loop

/-! ## Moving forward -/

/-- Under every key a replica has what it had, or the newest of what the two had. -/
structure Forward (before after : Replicas) : Prop where
  self : ∀ key, stamp after.self key = stamp before.self key ∨
    stamp after.self key = stamp before.self key ⊔ stamp before.peer key
  peer : ∀ key, stamp after.peer key = stamp before.peer key ∨
    stamp after.peer key = stamp before.self key ⊔ stamp before.peer key

namespace Forward

variable {first second third : Replicas} {key : Bytes}

theorem refl (rs : Replicas) : Forward rs rs :=
  ⟨fun _ => .inl rfl, fun _ => .inl rfl⟩

/-- The newest envelope of a key stays the same. -/
theorem sup_eq (forward : Forward first second) (key : Bytes) :
    stamp second.self key ⊔ stamp second.peer key =
      stamp first.self key ⊔ stamp first.peer key := by
  rcases forward.self key with self | self <;> rcases forward.peer key with peer | peer <;>
    simp [self, peer]

theorem trans (forward : Forward first second) (next : Forward second third) :
    Forward first third := by
  constructor
  · intro key
    rcases next.self key with same | newest
    · exact same ▸ forward.self key
    · exact .inr (newest.trans (forward.sup_eq key))
  · intro key
    rcases next.peer key with same | newest
    · exact same ▸ forward.peer key
    · exact .inr (newest.trans (forward.sup_eq key))

/-- A key on which the two replicas still differ has not changed. -/
theorem unchanged (forward : Forward first second)
    (differ : stamp second.self key ≠ stamp second.peer key) :
    stamp second.self key = stamp first.self key ∧
      stamp second.peer key = stamp first.peer key := by
  rcases forward.self key with self | self <;> rcases forward.peer key with peer | peer
  · exact ⟨self, peer⟩
  · rw [self, peer] at differ
    rcases le_total (stamp first.self key) (stamp first.peer key) with le | le
    · exact ⟨self, peer.trans (sup_eq_right.mpr le)⟩
    · exact absurd (sup_eq_left.mpr le).symm differ
  · rw [self, peer] at differ
    rcases le_total (stamp first.self key) (stamp first.peer key) with le | le
    · exact absurd (sup_eq_right.mpr le) differ
    · exact ⟨self.trans (sup_eq_left.mpr le), peer⟩
  · exact absurd (self.trans peer.symm) differ

end Forward

/-! ## The steps of the loop -/

/-- The replicas have moved forward, and so does what waits in the batch. -/
structure Advancing (start : Replicas) (p : Progress) : Prop where
  forward : Forward start p.toReplicas
  waiting : ∀ req ∈ p.pushBatch,
    stamp start.self req.key ⊔ stamp start.peer req.key = req.envelope.timestamp

section Steps

variable {start : Replicas} {p : Progress} {key : Bytes} {peerTime : Nat → Int64}

theorem stamp_congr {r r' : Replica} (same : r'.store[key]? = r.store[key]?) :
    stamp r' key = stamp r key := by
  rw [stamp, stamp, Replica.current, Replica.current, Replica.localRead, Replica.localRead, same]

theorem stamp_of_encoded {r : Replica} {e : Envelope} {bytes : Bytes}
    (encoded : encodeEnvelope e = .ok bytes) (stored : r.store[key]? = some bytes) :
    stamp r key = e.timestamp :=
  stamp_eq_coe_iff.mpr
    ⟨_, current_of_getElem? stored (decodeEnvelope_encodeEnvelope encoded), stored_timestamp e⟩

/-- A repair changes one key. -/
theorem stamp_applyRepair (r : Replica) (key : Bytes) (e : Envelope) (k : Bytes) :
    stamp (r.applyRepair key e).1 k = stamp r k ∨
      k = key ∧ stamp (r.applyRepair key e).1 k = e.timestamp := by
  rw [Replica.applyRepair, checkLocal]
  cases encoded : encodeEnvelope e with
  | error err => exact .inl (stamp_congr rfl)
  | ok bytes =>
    by_cases same : key = k
    · subst same
      exact .inr ⟨rfl, stamp_of_encoded encoded ExtTreeMap.getElem?_insert_self⟩
    · exact .inl (stamp_congr ((getElem?_insert_if ..).trans (if_neg same)))

theorem Advancing.pull (advancing : Advancing start p)
    (le : stamp start.self key ≤ stamp start.peer key) :
    Advancing start (p.pullFromPeer key).1 := by
  rw [Progress.pullFromPeer]
  cases read : p.peer.replicateRead key with
  | error err => exact advancing
  | ok found =>
    cases found with
    | none => exact advancing
    | some env =>
      have isCurrent : p.peer.current key = some env := by
        rw [Replica.replicateRead] at read
        split at read
        · cases read
        · rw [Replica.current, read]
      have newest : (env.timestamp : WithBot Timestamp) =
          stamp start.self key ⊔ stamp start.peer key := by
        rw [← stamp_eq_coe_iff.mpr ⟨env, isCurrent, rfl⟩]
        rcases advancing.forward.peer key with same | newest
        · exact same.trans (sup_eq_right.mpr le).symm
        · exact newest
      have forward : ∀ k, stamp (p.self.applyRepair key env).1 k = stamp start.self k ∨
          stamp (p.self.applyRepair key env).1 k = stamp start.self k ⊔ stamp start.peer k := by
        intro k
        rcases stamp_applyRepair p.self key env k with same | ⟨rfl, repaired⟩
        · exact same ▸ advancing.forward.self k
        · exact .inr (repaired.trans newest)
      dsimp only
      split
      all_goals
        rename_i repaired
        rw [repaired] at forward
        exact ⟨⟨forward, advancing.forward.peer⟩, advancing.waiting⟩

theorem exists_of_encodeEntries {i : Nat} {entries : List WriteRequest} {puts : Puts}
    (encoded : encodeEntries i entries = .ok puts) {put : Bytes × Bytes} (mem : put ∈ puts) :
    ∃ req ∈ entries, put.1 = req.key ∧ encodeEnvelope req.envelope = .ok put.2 := by
  induction entries generalizing i puts with
  | nil =>
    cases encoded
    cases mem
  | cons req rest ih =>
    rw [encodeEntries] at encoded
    split at encoded
    · cases encoded
    rename_i bytes isEncoded
    split at encoded
    · cases encoded
    rename_i others restEncoded
    cases encoded
    rcases mem_cons.mp mem with rfl | later
    · exact ⟨req, mem_cons_self, rfl, isEncoded⟩
    · rcases ih restEncoded later with ⟨found, inRest, facts⟩
      exact ⟨found, mem_cons_of_mem _ inRest, facts⟩

/-- A batch changes the keys of its entries. -/
theorem stamp_replicateWriteBatch (r : Replica) (pt : Int64) (entries : List WriteRequest)
    (key : Bytes) :
    stamp (r.replicateWriteBatch pt entries).1 key = stamp r key ∨
      ∃ req ∈ entries, req.key = key ∧
        stamp (r.replicateWriteBatch pt entries).1 key = req.envelope.timestamp := by
  rw [Replica.replicateWriteBatch]
  cases checked : checkBatch r.clock pt entries with
  | mk clock outcome =>
    cases outcome with
    | error err => exact .inl (stamp_congr rfl)
    | ok puts =>
      have isEncoded : encodeEntries 0 entries = .ok puts := by
        rw [checkBatch] at checked
        split at checked
        · cases checked
        split at checked
        · cases checked
        · exact (Prod.mk.inj checked).2
      have stored := Replica.getElem?_put r.store puts key
      cases last : (puts.filter fun put => put.1 = key).getLast? with
      | none =>
        rw [last] at stored
        exact .inl (stamp_congr stored)
      | some put =>
        rw [last] at stored
        rcases mem_filter.mp (mem_of_getLast? last) with ⟨mem, isKey⟩
        rcases exists_of_encodeEntries isEncoded mem with ⟨req, inEntries, same, encoded⟩
        exact .inr ⟨req, inEntries, same.symm.trans (of_decide_eq_true isKey),
          stamp_of_encoded encoded stored⟩

theorem Advancing.flush (advancing : Advancing start p) :
    Advancing start (p.flushPush peerTime).1 := by
  rw [Progress.flushPush]
  split
  · exact advancing
  have forward : ∀ k,
      stamp (p.peer.replicateWriteBatch (peerTime p.repaired) p.pushBatch).1 k =
          stamp start.peer k ∨
        stamp (p.peer.replicateWriteBatch (peerTime p.repaired) p.pushBatch).1 k =
          stamp start.self k ⊔ stamp start.peer k := by
    intro k
    rcases stamp_replicateWriteBatch p.peer (peerTime p.repaired) p.pushBatch k with
      same | ⟨req, mem, rfl, written⟩
    · exact same ▸ advancing.forward.peer k
    · exact .inr (written.trans (advancing.waiting req mem).symm)
  split
  all_goals
    rename_i sent
    rw [sent] at forward
    dsimp only
    constructor
  · exact ⟨advancing.forward.self, forward⟩
  · exact advancing.waiting
  · exact ⟨advancing.forward.self, forward⟩
  · exact forall_mem_nil _

theorem Advancing.push (advancing : Advancing start p)
    (le : stamp start.peer key ≤ stamp start.self key) :
    Advancing start (p.pushLocal peerTime key).1 := by
  rw [Progress.pushLocal]
  cases stored : p.self.store[key]? with
  | none => exact advancing
  | some value =>
    dsimp only
    cases decoded : decodeEnvelope value with
    | error err => exact advancing
    | ok env =>
      have isStamp := stamp_eq_coe_iff.mpr ⟨env, current_of_getElem? stored decoded, rfl⟩
      have newest : stamp start.self key ⊔ stamp start.peer key = env.timestamp := by
        rw [← isStamp]
        rcases advancing.forward.self key with same | newest
        · exact (sup_eq_left.mpr le).trans same.symm
        · exact newest.symm
      have batched : Advancing start
          { p with
            pushBatch := p.pushBatch ++ [⟨key, env.value, some env.timestamp, env.deleted⟩]
            repaired := p.repaired + 1 } := by
        constructor
        · exact advancing.forward
        · intro req mem
          rcases mem_append.mp mem with before | new
          · exact advancing.waiting req before
          · rw [mem_singleton.mp new]
            exact newest
      dsimp only
      split
      · exact batched.flush
      · exact batched

end Steps

end Theseon.AntiEntropy
