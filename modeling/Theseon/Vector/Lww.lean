import Theseon.Lib.Register
import Theseon.Vector.History

/-!
# Last writer wins

For one identifier a replica is a last-writer-wins register that forgets the version of
a deletion.  So a write that is delivered after a newer deletion brings the vector
back.  And versions have no node in them: of writes with the same wall time and logical
counter the one that is delivered first wins, not the one with the greatest timestamp.
-/

namespace Theseon.Vector

open Lib Hnsw List
open Std (ExtTreeMap)

/-- A `Put` or a `Delete` of one identifier. -/
abbrev VectorOp := Register.Op VectorVersion (Vec × Metadata)

/-- The collection takes the operation. -/
def Fits (dim : Nat) : VectorOp → Prop
  | .put ver (vec, metadata) => vec.length = dim ∧ ∃ data, encodeVector vec metadata ver = .ok data
  | .delete _ => True

/-- A `VectorWrite` of some coordinator. -/
structure VectorWrite where
  timestamp : HLC.Timestamp
  vec : Vec
  metadata : Metadata

/-- What every replica applies. -/
def VectorWrite.op (w : VectorWrite) : VectorOp :=
  .put (hlcToVersion w.timestamp) (w.vec, w.metadata)

namespace VectorStore

variable {vs next : VectorStore} {col : Collection} {collection : Bytes} {id : ExternalID}
  {held : Option (VectorVersion × (Vec × Metadata))} {op : VectorOp}

/-- The store holds for the identifier what the register holds. -/
def Represents (vs : VectorStore) (collection : Bytes) (id : ExternalID) :
    Option (VectorVersion × (Vec × Metadata)) → Prop
  | none => ∀ data, vs.kv.get (makeVectorKey collection id) ≠ some (some data)
  | some (ver, vec, metadata) => ∃ data, encodeVector vec metadata ver = .ok data ∧
      vs.kv.get (makeVectorKey collection id) = some (some data)

/-- The stored vector of the identifier. -/
def Holds (vs : VectorStore) (collection : Bytes) (id : ExternalID) (vec : Vec) : Prop :=
  ∃ ver metadata, vs.Represents collection id (some (ver, vec, metadata))

section

variable {D K : Type} [LinearOrder K] (metric : Distance → Metric D K)

/-- Apply an operation; a write comes with the level that is drawn for it. -/
def deliver (collection : Bytes) (id : ExternalID) (vs : VectorStore) :
    VectorOp × Nat → Option VectorStore
  | (.put ver (vec, metadata), level) =>
    (vs.put metric collection id vec metadata ver level).map Prod.snd
  | (.delete ver, _) => some (vs.delete collection id ver).2

end

/-! ## The store is the register -/

/-- The comparison of versions in the store is that of the register. -/
theorem Represents.stale (represents : vs.Represents collection id held) (ver : VectorVersion) :
    vs.kv.stale (makeVectorKey collection id) ver = Register.stale .zero ver held := by
  have nonzero : ver.isZero = decide (ver = .zero) := by
    rw [Bool.eq_iff_iff, VectorVersion.isZero_iff, decide_eq_true_iff]
  rw [KVStore.stale]
  rcases held with _ | ⟨own, vec, metadata⟩
  · cases found : vs.kv.get (makeVectorKey collection id) with
    | none => simp
    | some value =>
      cases value with
      | none => simp
      | some data => exact absurd found (represents data)
  rcases represents with ⟨data, encoded, found⟩
  rw [found]
  simp only [decodeVectorVersion_encodeVector encoded, Register.stale, nonzero]
  rw [Bool.eq_iff_iff]
  simp [VectorVersion.after_eq_false_iff]

variable {ver : VectorVersion}

theorem represents_put {data : Bytes} {vec : Vec} {metadata : Metadata}
    (encoded : encodeVector vec metadata ver = .ok data) (collections : ExtTreeMap Bytes Collection)
    (kv : KVStore) :
    Represents ⟨collections, kv.put (makeVectorKey collection id) data⟩ collection id
      (some (ver, vec, metadata)) := by
  refine ⟨data, encoded, ?_⟩
  rw [KVStore.put, KVStore.get_write, if_pos rfl]

/-- An identifier that is not indexed is not stored. -/
theorem Mirrored.represents_none (mirrored : vs.Mirrored)
    (found : vs.collections[collection]? = some col) (sixteen : id.length = 16)
    (absent : id ∉ col.ids) : vs.Represents collection id none :=
  fun data stored => absent ((mirrored.mirrors collection col found).stored id data sixteen stored)

theorem Represents.eq_none (represents : vs.Represents collection id held)
    (absent : vs.Represents collection id none) : held = none := by
  rcases held with _ | ⟨ver, vec, metadata⟩
  · rfl
  · rcases represents with ⟨data, _, stored⟩
    exact absurd stored (absent data)

section

variable {D K : Type} [LinearOrder K] {metric : Distance → Metric D K}

/-- A collection of the same configuration is still there. -/
def Configured (vs : VectorStore) (collection : Bytes) (config : CollectionConfig) : Prop :=
  ∃ col, vs.collections[collection]? = some col ∧ col.config = config

section

variable {config : CollectionConfig} (mirrored : vs.Mirrored)
  (configured : vs.Configured collection config) (unlimited : ¬ 0 < config.maxVectors)
  (sixteen : id.length = 16) (represents : vs.Represents collection id held)

include mirrored configured unlimited sixteen represents

/-- One delivery moves the register. -/
theorem deliver_spec (fits : Fits config.dim op) (level : Nat) :
    ∃ next, deliver metric collection id vs (op, level) = some next ∧ next.Mirrored ∧
      next.Configured collection config ∧
      next.Represents collection id (Register.apply .zero held op) := by
  rcases configured with ⟨col, found, rfl⟩
  have isStale := represents.stale op.version
  have moved (notStale : vs.kv.stale (makeVectorKey collection id) op.version = false) :
      Register.apply .zero held op = op.outcome :=
    Register.apply_of_not_stale (by simp [← isStale, notStale])
  cases op with
  | put ver value =>
    rcases value with ⟨vec, metadata⟩
    rcases fits with ⟨sameDim, data, encoded⟩
    rcases @put_spec vs collection id vec metadata ver level D K _ metric mirrored.ready with
      ⟨result, next, ran, effect⟩
    have nextMirrored := mirrored.change (change_put ⟨id, sixteen⟩ level effect)
    refine ⟨next, congrArg (Option.map Prod.snd) ran, nextMirrored, ?_⟩
    cases effect with
    | collectionNotFound absent =>
      exact absurd (mem_iff_get?.mpr ⟨col, found⟩) absent
    | dimensionMismatch found' mismatch =>
      cases found.symm.trans found'
      exact absurd sameDim mismatch
    | encode refused => cases encoded.symm.trans refused
    | maxVectors found' limited =>
      cases found.symm.trans found'
      exact absurd limited unlimited
    | stale stale =>
      rw [Register.apply_of_stale (isStale.symm.trans stale)]
      exact ⟨⟨col, found, rfl⟩, represents⟩
    | stored notStale found' _ encoded' indexed =>
      cases found.symm.trans found'
      rw [moved notStale]
      constructor
      · exact ⟨_, ExtTreeMap.getElem?_insert_self, indexed.config⟩
      · exact represents_put encoded' _ _
  | delete ver =>
    have effect := @delete_spec vs collection id ver
    have nextMirrored := mirrored.change (change_delete ⟨id, sixteen⟩ effect)
    refine ⟨_, rfl, nextMirrored, ?_⟩
    generalize (vs.delete collection id ver).1 = result,
      (vs.delete collection id ver).2 = next at effect ⊢
    cases effect with
    | collectionNotFound absent =>
      exact absurd (mem_iff_get?.mpr ⟨col, found⟩) absent
    | stale stale =>
      rw [Register.apply_of_stale (isStale.symm.trans stale)]
      exact ⟨⟨col, found, rfl⟩, represents⟩
    | absent notStale found' absent =>
      have nothing := mirrored.represents_none found' sixteen absent
      rw [moved notStale]
      exact ⟨⟨col, found, rfl⟩, nothing⟩
    | deleted notStale found' =>
      cases found.symm.trans found'
      rw [moved notStale]
      constructor
      · exact ⟨_, ExtTreeMap.getElem?_insert_self, rfl⟩
      · intro data stored
        rw [KVStore.delete, KVStore.get_write, if_pos rfl] at stored
        cases stored

/-- Deliveries move the register. -/
theorem deliveries_spec {delivered : List (VectorOp × Nat)}
    (fit : ∀ d ∈ delivered, Fits config.dim d.1) :
    ∃ final, run (deliver metric collection id) vs delivered = some final ∧
      final.Represents collection id
        (Register.applyAll .zero held (delivered.map Prod.fst)) := by
  induction delivered generalizing vs held with
  | nil => exact ⟨vs, rfl, represents⟩
  | cons first delivered ih =>
    rcases first with ⟨op, level⟩
    rcases @deliver_spec vs collection id held op D K _ metric config mirrored configured
      unlimited sixteen represents (fit _ mem_cons_self) level with
      ⟨next, ran, nextMirrored, nextConfigured, nextRepresents⟩
    rcases ih nextMirrored nextConfigured nextRepresents
      (fun d mem => fit d (mem_cons_of_mem _ mem)) with ⟨final, ranRest, represents⟩
    refine ⟨final, ?_, represents⟩
    rw [run, ran]
    exact ranRest

end

/-! ## Writes and deletions -/

/-- The store is in the state of the newest operation. -/
def Converged (vs : VectorStore) (collection : Bytes) (id : ExternalID) (ops : List VectorOp) :
    Prop :=
  ∀ newest ∈ ops, (∀ op ∈ ops, op.version ≤ newest.version) →
    vs.Represents collection id newest.outcome

/-- The newest operation is a write, or every write is followed by a newer deletion. -/
def NewestPrevails (ops : List VectorOp) : Prop :=
  (∃ ver value, .put ver value ∈ ops ∧ ∀ op ∈ ops, op.version ≤ ver) ∨ Register.Outlived ops

theorem Represents.none_iff (represents : vs.Represents collection id held) :
    vs.Represents collection id none ↔ held = none := by
  constructor
  · exact represents.eq_none
  · rintro rfl
    exact represents

/-- With distinct versions the newest write stays, wherever it is delivered. -/
theorem applyAll_of_newest_put {ops : List VectorOp} {value : Vec × Metadata}
    (versioned : ∀ op ∈ ops, op.version ≠ .zero)
    (distinct : ∀ op ∈ ops, ∀ other ∈ ops, op.version = other.version → op = other)
    (mem : .put ver value ∈ ops) (newest : ∀ op ∈ ops, op.version ≤ ver) :
    Register.applyAll .zero none ops = some (ver, value) := by
  rcases Register.exists_firstGreatest (ne_nil_of_mem mem) with ⟨first, isFirst⟩
  have same : first = .put ver value :=
    distinct first isFirst.mem _ mem (le_antisymm (newest first isFirst.mem) (isFirst.le mem))
  subst same
  rcases isFirst with ⟨before, after, rfl, lower, upper⟩
  apply Register.applyAll_of_firstGreatest_put _ lower
  · intro op later
    have inOps := mem_append_right before (mem_cons_of_mem (.put ver value) later)
    exact ⟨versioned op inOps, upper op later⟩
  · rintro own ⟨⟩

end

/-- A store with one empty collection. -/
def smallStore : VectorStore :=
  (empty.createCollection [99] smallConfig).2

theorem smallStore_reached : Reached (step fun _ => Graph.discrete) (fun _ _ => True) empty
    smallStore :=
  @Reached.step _ _ _ _ _ _ _ (.createCollection [99] smallConfig) .start trivial rfl

/-- What is stored after deliveries to the small store. -/
def smallStored (delivered : List (VectorOp × Nat)) : Option (Option (Option Bytes)) :=
  (run (deliver (fun _ => Graph.discrete) [99] smallUUID.val) smallStore delivered).map
    fun final => final.kv.get (makeVectorKey [99] smallUUID.val)

/-- The store has the vector of the write with the greatest timestamp. -/
def HoldsGreatest (vs : VectorStore) (collection : Bytes) (id : ExternalID)
    (writes : List VectorWrite) : Prop :=
  ∀ greatest ∈ writes, (∀ w ∈ writes, greatest.timestamp.less w.timestamp = false) →
    vs.Holds collection id greatest.vec

/-- Of the writes from the last one with the zero version on, the first with the
greatest version has the vector of the write with the greatest timestamp. -/
def FirstHasGreatest (writes : List VectorWrite) : Prop :=
  ∀ greatest ∈ writes, (∀ w ∈ writes, greatest.timestamp.less w.timestamp = false) →
    ∃ ver metadata, Register.FirstGreatest
      (Register.sinceUnversioned .zero (writes.map VectorWrite.op))
      (.put ver (greatest.vec, metadata))

/-- A store that represents a vector of the right dimension holds no other. -/
theorem Represents.holds_iff {vec other : Vec} {metadata : Metadata}
    (represents : vs.Represents collection id (some (ver, vec, metadata)))
    (sameLength : other.length = vec.length) : vs.Holds collection id other ↔ other = vec := by
  constructor
  · rintro ⟨ver', metadata', data', encoded', found'⟩
    rcases represents with ⟨data, encoded, found⟩
    cases found.symm.trans found'
    exact encodeVector_vector_inj sameLength encoded' encoded
  · rintro rfl
    exact ⟨ver, metadata, represents⟩

section

variable {D K : Type} [LinearOrder K] {metric : Distance → Metric D K}

end

/-- Two writes at the same wall time and logical counter, by the nodes `a` and `b`. -/
def firstWrite : VectorWrite :=
  ⟨⟨1, 0, [97]⟩, [7], ∅⟩

def secondWrite : VectorWrite :=
  ⟨⟨1, 0, [98]⟩, [8], ∅⟩

end VectorStore

end Theseon.Vector
