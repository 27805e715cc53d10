import Theseon.AntiEntropy.NeverBackwards
import Theseon.DB.KeyValue
import Theseon.Vector.Writes

/-!
# Anti-entropy over the shared store

The replicated writes and the vector store of a node share one engine.  The source of
a reconcile round scans all of it and takes every live record for an envelope.  It is
exact if and only if no key that the two nodes own together holds a record of the
vector store: a vector ends the scan with an error, a configuration ends it too or
shows up as an envelope.  The keys are such that none is a prefix of another, so that the
scan shows the store.
-/

namespace Theseon.AntiEntropy

open Lib HLC Cluster
open Theseon.KV (userKey PrefixFree)
open Theseon.Iterator (Drains)
open Theseon.Hnsw (Metric Vec)
open Theseon.Vector
open Theseon.Hashring (Ring)
open Std (ExtTreeMap)

/-! ## The records of a scan -/

section

variable {owned : Bytes → Bool} {envelope : Bytes → Option Envelope}
  {items rest : List (Bytes × Bytes)} {key value : Bytes}

/-- The entry of a key that both nodes own and that holds an envelope. -/
def expected (owned : Bytes → Bool) (envelope : Bytes → Option Envelope) (key : Bytes) :
    Option Entry :=
  if owned key then (envelope key).map fun env => ⟨key, env.timestamp, env.deleted⟩ else none

theorem expected_of_foreign (foreign : envelope key = none) :
    expected owned envelope key = none := by
  rw [expected, foreign]
  split <;> rfl

theorem stored_deleted (e : Envelope) : e.stored.deleted = e.deleted := by
  rw [Envelope.stored]
  split <;> rfl

/-- A key whose envelope is known holds its encoding. -/
def Stores (envelope : Bytes → Option Envelope) (items : List (Bytes × Bytes)) : Prop :=
  ∀ item ∈ items, ∀ env, envelope item.1 = some env → decodeEnvelope item.2 = .ok env.stored

variable {item : Bytes × Bytes} {env : Envelope}

theorem entryOf_of_stores (stores : Stores envelope items) (mem : item ∈ items)
    (known : envelope item.1 = some env) :
    entryOf item = some ⟨item.1, env.timestamp, env.deleted⟩ := by
  rw [entryOf, stores item mem env known, Except.toOption, Option.map_some, stored_timestamp,
    stored_deleted]

theorem expected_of_not_live (stores : Stores envelope items) (mem : item ∈ items)
    (skipped : live owned item = false) : expected owned envelope item.1 = none := by
  cases known : envelope item.1 with
  | none => exact expected_of_foreign known
  | some env =>
    have nonempty : item.2 ≠ [] := by
      intro empty
      have decoded := stores item mem env known
      rw [empty] at decoded
      cases decoded
    rw [expected, if_neg]
    simpa [live, nonempty] using skipped

/-- The source is exact if and only if every live record it decodes is an envelope. -/
theorem sourceEntries_eq_expected_iff (stores : Stores envelope items) :
    sourceEntries owned items = .ok (items.filterMap fun item => expected owned envelope item.1) ↔
      ∀ item ∈ items, owned item.1 = true → item.2 ≠ [] → (envelope item.1).isSome = true := by
  have ofLive : items.filterMap (fun item => expected owned envelope item.1) =
      (items.filter (live owned)).filterMap fun item => expected owned envelope item.1 := by
    rw [List.filterMap_filter]
    apply List.filterMap_congr
    intro item mem
    split
    · rfl
    · rename_i skipped
      exact expected_of_not_live stores mem (Bool.eq_false_iff.mpr skipped)
  have isLive : (∀ item ∈ items, owned item.1 = true → item.2 ≠ [] →
      (envelope item.1).isSome = true) ↔
        ∀ item ∈ items.filter (live owned), (envelope item.1).isSome = true := by
    simp [live]
  rw [sourceEntries_eq_ok_iff, ofLive, isLive]
  constructor
  · -- otherwise the source would yield an entry more than there should be
    intro same item mem
    have lengths := congrArg List.length same
    rw [List.length_map, List.length_map] at lengths
    have shown := List.filterMap_length_eq_length.mp lengths.symm item mem
    by_contra unknown
    rw [expected_of_foreign (by simpa using unknown)] at shown
    cases shown
  · intro all
    rw [List.map_filterMap, ← List.filterMap_eq_map]
    apply List.filterMap_congr
    intro item mem
    rcases List.mem_filter.mp mem with ⟨inItems, isLive⟩
    rcases Option.isSome_iff_exists.mp (all item mem) with ⟨env, known⟩
    rw [Function.comp, entryOf_of_stores stores inItems known, expected,
      if_pos (Bool.and_eq_true_iff.mp isLive).1, known]
    rfl

end

/-! ## The shared store -/

/-- A node's store. -/
structure SharedStore where
  vs : VectorStore
  /-- The envelope that a replicated write has put under a key, if nothing else has
  been written there since. -/
  replicated : Bytes → Option Envelope

inductive SharedAction where
  /-- A replicated write or deletion. -/
  | replicate (key : Bytes) (env : Envelope)
  | call (call : StoreCall)

namespace SharedStore

def empty : SharedStore :=
  ⟨.empty, fun _ => none⟩

/-- What was written last under every key. -/
def contents (s : SharedStore) : ExtTreeMap Bytes (Option Bytes) :=
  s.vs.kv.entries.map fun _ entry => entry.2

/-- The store as the source sees it.  The value of a tombstone is empty. -/
def replica (s : SharedStore) (clock : Clock) : Replica :=
  ⟨clock, s.vs.kv.entries.map fun _ entry => entry.2.getD []⟩

/-- The envelopes under the keys that both nodes own. -/
def envelopes (s : SharedStore) (owned : Bytes → Bool) : List Entry :=
  s.vs.kv.entries.toList.filterMap fun item => expected owned s.replicated item.1

/-- The scan of the engine shows the store, the source yields the envelopes, and the tree
can be built. -/
def ReadsEnvelopes (sum64 : Bytes → UInt64) (owned : Bytes → Bool) (s : SharedStore)
    (e : Engine) : Prop :=
  ∃ out, Drains e.db.scan out none ∧ ∀ clock,
    out.map (fun pair => (userKey pair.1, pair.2.getD [])) = (s.replica clock).store.toList ∧
    sourceEntries owned (s.replica clock).store.toList = .ok (s.envelopes owned) ∧
    ∀ cutoff fanout depth t, Tree.new fanout depth = .ok t →
      ∃ tree, buildTree sum64 owned (s.replica clock) cutoff fanout depth = .ok tree

/-- The live records under the keys that both nodes own are replicated writes. -/
def OwnsEnvelopes (owned : Bytes → Bool) (s : SharedStore) : Prop :=
  ∀ item ∈ s.vs.kv.entries.toList, owned item.1 = true → item.2.2 ≠ none →
    (s.replicated item.1).isSome = true

instance (owned : Bytes → Bool) (s : SharedStore) : Decidable (s.OwnsEnvelopes owned) :=
  inferInstanceAs (Decidable (∀ item ∈ s.vs.kv.entries.toList, owned item.1 = true →
    item.2.2 ≠ none → (s.replicated item.1).isSome = true))

section

variable {D K : Type} [LinearOrder K] (metric : Distance → Metric D K)

def step (s : SharedStore) : SharedAction → Option SharedStore
  | .replicate key env =>
    if key = [] then none
    else
      match encodeEnvelope env with
      | .error _ => none
      | .ok encoded =>
        some ⟨{ s.vs with kv := s.vs.kv.put key encoded },
          fun other => if other = key then some env else s.replicated other⟩
  | .call call => (s.vs.step metric call).map fun next =>
    ⟨next, fun key =>
      if next.kv.entries[key]? = s.vs.kv.entries[key]? then s.replicated key else none⟩

end

/-- The bytes of a vector or of a configuration. -/
def OfVectorStore (data : Bytes) : Prop :=
  (∃ vec metadata ver, encodeVector vec metadata ver = .ok data) ∨
    ∃ cfg, data = encodeCollectionConfig cfg

/-- Every live record is the encoding of its replicated envelope, or of the vector
store. -/
structure Sound (s : SharedStore) : Prop where
  stored : ∀ key env, s.replicated key = some env →
    ∃ seq data, s.vs.kv.entries[key]? = some (seq, some data) ∧ encodeEnvelope env = .ok data
  foreign : ∀ key seq data, s.vs.kv.entries[key]? = some (seq, some data) →
    s.replicated key = none → OfVectorStore data

section

variable {s next : SharedStore}

theorem empty_sound : empty.Sound := by
  constructor
  · intro key env none
    cases none
  · intro key seq data none
    cases none

variable {data : Bytes}

/-- An entry that a call changes is a tombstone, or comes from the vector store. -/
theorem ofVectorStore_of_writes {kv kv' : KVStore} {call : StoreCall} (writes : call.Writes kv kv')
    {key : Bytes} (changed : kv'.entries[key]? ≠ kv.entries[key]?) {seq : Nat}
    (found : kv'.entries[key]? = some (seq, some data)) : OfVectorStore data := by
  -- what is written under another key does not change this one
  have written : ∀ {other : Bytes} {value : Option Bytes},
      (kv.write other value).entries[key]? = some (seq, some data) →
      (kv.write other value).entries[key]? ≠ kv.entries[key]? → value = some data := by
    intro other value isEntry differs
    rw [KVStore.getElem?_write] at isEntry differs
    split at isEntry
    · cases isEntry
      rfl
    rename_i elsewhere
    rw [if_neg elsewhere] at differs
    exact absurd rfl differs
  cases writes with
  | nothing => exact absurd rfl changed
  | config name cfg => exact .inr ⟨cfg, (Option.some.inj (written found changed)).symm⟩
  | vector encoded =>
    rw [Option.some.inj (written found changed)] at encoded
    exact .inl ⟨_, _, _, encoded⟩
  | tombstone collection id ver => cases written found changed
  | compacted other =>
    rw [KVStore.getElem?_compact] at found changed
    split at found
    · cases found
    rename_i kept
    rw [if_neg kept] at changed
    exact absurd rfl changed

theorem Sound.replicate (sound : s.Sound) (key : Bytes) {env : Envelope} {encoded : Bytes}
    (isEncoded : encodeEnvelope env = .ok encoded) :
    Sound ⟨{ s.vs with kv := s.vs.kv.put key encoded },
      fun other => if other = key then some env else s.replicated other⟩ := by
  constructor
  · intro other known isKnown
    dsimp only at isKnown ⊢
    rw [KVStore.put, KVStore.getElem?_write]
    split at isKnown
    · rename_i same
      cases isKnown
      exact ⟨_, _, if_pos same.symm, isEncoded⟩
    rename_i elsewhere
    rw [if_neg fun same => elsewhere same.symm]
    exact sound.stored other known isKnown
  · intro other seq data found unknown
    dsimp only at found unknown
    split at unknown
    · cases unknown
    rename_i elsewhere
    rw [KVStore.put, KVStore.getElem?_write, if_neg fun same => elsewhere same.symm] at found
    exact sound.foreign other seq data found unknown

theorem Sound.call (sound : s.Sound) {call : StoreCall} {vs : VectorStore}
    (writes : call.Writes s.vs.kv vs.kv) :
    Sound ⟨vs, fun key =>
      if vs.kv.entries[key]? = s.vs.kv.entries[key]? then s.replicated key else none⟩ := by
  constructor
  · intro key env known
    dsimp only at known ⊢
    split at known
    · rename_i unchanged
      rw [unchanged]
      exact sound.stored key env known
    · cases known
  · intro key seq data found unknown
    dsimp only at found unknown
    split at unknown
    · rename_i unchanged
      rw [unchanged] at found
      exact sound.foreign key seq data found unknown
    · rename_i changed
      exact ofVectorStore_of_writes writes changed found

section

variable {D K : Type} [LinearOrder K] {metric : Distance → Metric D K}

theorem Sound.step (sound : s.Sound) {action : SharedAction}
    (stepped : s.step metric action = some next) : next.Sound := by
  cases action with
  | replicate key env =>
    rw [SharedStore.step] at stepped
    split at stepped
    · cases stepped
    split at stepped
    · cases stepped
    rename_i encoded isEncoded
    cases stepped
    exact sound.replicate key isEncoded
  | call call =>
    rcases Option.map_eq_some_iff.mp stepped with ⟨vs, ran, rfl⟩
    exact sound.call (VectorStore.step_writes ran)

end

theorem Sound.stores (sound : s.Sound) (clock : Clock) :
    Stores s.replicated (s.replica clock).store.toList := by
  intro item mem env known
  rcases sound.stored item.1 env known with ⟨seq, data, found, isEncoded⟩
  have isItem := ExtTreeMap.mem_toList_iff_getElem?_eq_some.mp mem
  rw [replica, ExtTreeMap.getElem?_map, found] at isItem
  rw [← Option.some.inj isItem]
  exact decodeEnvelope_encodeEnvelope isEncoded

theorem exists_of_encodeVector {vec : Vec} {metadata : Metadata} {ver : VectorVersion}
    (encoded : encodeVector vec metadata ver = .ok data) :
    ∃ byte rest, data = 2 :: byte :: rest := by
  rcases map_eq_ok.mp encoded with ⟨fields, _, rfl⟩
  exact ⟨_, _, rfl⟩

theorem Sound.data_ne_nil (sound : s.Sound) {key : Bytes} {seq : Nat}
    (found : s.vs.kv.entries[key]? = some (seq, some data)) : data ≠ [] := by
  rintro rfl
  cases known : s.replicated key with
  | some env =>
    rcases sound.stored key env known with ⟨_, _, same, isEncoded⟩
    cases found.symm.trans same
    cases decodeEnvelope_encodeEnvelope isEncoded
  | none =>
    rcases sound.foreign key seq [] found known with ⟨_, _, _, encoded⟩ | ⟨cfg, same⟩
    · rcases exists_of_encodeVector encoded with ⟨_, _, same⟩
      cases same
    · cases same

theorem toList_replica (s : SharedStore) (clock : Clock) :
    (s.replica clock).store.toList =
      s.vs.kv.entries.toList.map fun item => (item.1, item.2.2.getD []) := by
  rw [replica, ExtTreeMap.toList_map]

/-- The source is exact if and only if no key that both nodes own holds a record of
the vector store. -/
theorem Sound.sourceEntries_iff (sound : s.Sound) (owned : Bytes → Bool) (clock : Clock) :
    sourceEntries owned (s.replica clock).store.toList = .ok (s.envelopes owned) ↔
      s.OwnsEnvelopes owned := by
  have isExpected : s.envelopes owned = (s.replica clock).store.toList.filterMap fun item =>
      expected owned s.replicated item.1 := by
    rw [toList_replica, List.filterMap_map]
    rfl
  rw [isExpected, sourceEntries_eq_expected_iff (sound.stores clock), toList_replica,
    List.forall_mem_map]
  have live : ∀ item ∈ s.vs.kv.entries.toList, item.2.2.getD [] ≠ [] ↔ item.2.2 ≠ none := by
    rintro ⟨key, seq, _ | data⟩ mem
    · simp
    · simpa using sound.data_ne_nil (ExtTreeMap.mem_toList_iff_getElem?_eq_some.mp mem)
  exact forall₂_congr fun item mem => by rw [live item mem]

theorem buildTree_of_read {sum64 : Bytes → UInt64} {owned : Bytes → Bool} {r : Replica}
    {entries : List Entry} (read : sourceEntries owned r.store.toList = .ok entries)
    (cutoff : Int64) {fanout depth : Nat} {t : Tree} (created : Tree.new fanout depth = .ok t) :
    ∃ tree, buildTree sum64 owned r cutoff fanout depth = .ok tree := by
  rw [buildTree, read]
  dsimp only
  rw [Tree.build, created]
  exact ⟨_, rfl⟩

section

variable {D K : Type} [LinearOrder K] {metric : Distance → Metric D K}

theorem sound_of_reached {allowed : SharedStore → SharedAction → Prop}
    (reached : Reached (step metric) allowed empty s) : s.Sound :=
  reached.invariant Sound empty_sound fun sound _ stepped => sound.step stepped

/-- After any sequence of replicated writes and calls of the vector store, the source
of a round yields the envelopes if and only if the two nodes own no record of the
vector store together. -/
theorem reads_envelopes_iff (sum64 : Bytes → UInt64) (ring : Ring) (self peer : NodeID) (n : Nat)
    (reached : Reached (step metric) (fun _ _ => True) empty s) {opts : Options} {e : Engine}
    (plain : e.Plain opts) (nonempty : ∀ entry ∈ e.history, entry.user ≠ [])
    (holds : e.Holds s.contents) :
    s.ReadsEnvelopes sum64 (fun key => shouldReconcile sum64 ring key self peer n) e ↔
      s.OwnsEnvelopes fun key => shouldReconcile sum64 ring key self peer n := by
  have sound := sound_of_reached reached
  constructor
  · rintro ⟨_, _, reads⟩
    exact (sound.sourceEntries_iff _ (.new [])).mp (reads (.new [])).2.1
  · intro owns
    rcases plain.scan_eq nonempty holds with ⟨out, drains, shows⟩
    refine ⟨out, drains, fun clock => ?_⟩
    have read := (sound.sourceEntries_iff _ clock).mpr owns
    refine ⟨?_, read, fun cutoff _ _ _ created => buildTree_of_read read cutoff created⟩
    have items := congrArg (List.map fun item => (item.1, item.2.getD [])) shows
    rw [contents, ExtTreeMap.toList_map, List.map_map, List.map_map] at items
    rw [toList_replica]
    exact items

end

end

/-! ## A collection on two nodes -/

/-- The two nodes own every key together. -/
def bothOwn (key : Bytes) : Bool :=
  shouldReconcile Reconciler.byteSum Reconciler.twoNodes key [97] [98] 2

/-- A collection of vectors with `dim` components. -/
def create (dim : Nat) : SharedAction :=
  .call (.createCollection [99] ⟨dim, 1, 16, 200, 50, 0⟩)

/-- The state after some actions, and what the source makes of it. -/
def Scans (actions : List SharedAction) (outcome : Except EnvelopeError (List Entry)) : Prop :=
  ∃ s, run (step fun _ => Hnsw.Graph.discrete) empty actions = some s ∧
    sourceEntries bothOwn (s.replica (.new [])).store.toList = outcome ∧
    s.envelopes bothOwn = [] ∧ ∀ e, ¬ s.ReadsEnvelopes Reconciler.byteSum bothOwn e

theorem scans_of_evaluated {actions : List SharedAction}
    {outcome : Except EnvelopeError (List Entry)}
    (evaluated : (run (step fun _ => Hnsw.Graph.discrete) empty actions).map (fun s =>
      (sourceEntries bothOwn (s.replica (.new [])).store.toList, s.envelopes bothOwn)) =
        some (outcome, []))
    (wrong : outcome ≠ .ok []) : Scans actions outcome := by
  rcases Option.map_eq_some_iff.mp evaluated with ⟨s, ran, facts⟩
  rcases Prod.mk.inj facts with ⟨read, none⟩
  refine ⟨s, ran, read, none, ?_⟩
  rintro e ⟨_, _, reads⟩
  have exact := (reads (.new [])).2.1
  rw [read, none] at exact
  exact wrong exact

/-- The configuration of a collection for vectors with 256 components is taken for an
envelope; that of one for vectors with one component ends the scan with an error. -/
theorem configurations_taken_for_envelopes :
    Scans [create 256] (.ok [⟨makeCollectionConfigKey [99], ⟨72356664556139008, 0, []⟩, false⟩]) ∧
      Scans [create 1] (.error (.trailingBytes 2)) := by
  constructor
  · exact scans_of_evaluated (by decide +kernel) (by simp)
  · exact scans_of_evaluated (by decide +kernel) (by simp)

/-- A write and a deletion, and nothing of the vector store. -/
theorem replicated_writes_read :
    ∃ s e, Reached (step fun _ => Hnsw.Graph.discrete) (fun _ _ => True) empty s ∧
      s.envelopes bothOwn = [⟨[107], ⟨7, 0, [97]⟩, false⟩, ⟨[108], ⟨8, 0, [98]⟩, true⟩] ∧
      s.ReadsEnvelopes Reconciler.byteSum bothOwn e := by
  have evaluated : ∃ s ∈ run (step fun _ => Hnsw.Graph.discrete) empty
      [.replicate [107] ⟨⟨7, 0, [97]⟩, false, [49]⟩, .replicate [108] ⟨⟨8, 0, [98]⟩, true, []⟩],
        (s.envelopes bothOwn = [⟨[107], ⟨7, 0, [97]⟩, false⟩, ⟨[108], ⟨8, 0, [98]⟩, true⟩] ∧
          s.OwnsEnvelopes bothOwn) ∧
        ∃ e ∈ runAllowed (Engine.step defaultOptions) (Engine.Safe defaultOptions)
            (.start defaultOptions) (s.contents.toList.map fun p => .write [.put p.1 p.2]),
          ((∀ entry ∈ e.history, entry.value.Clean) ∧ PrefixFree e.history) ∧
          (∀ entry ∈ e.history, entry.user ≠ []) ∧ (∀ entry ∈ e.history, entry.user ∈ s.contents) ∧
          ∀ item ∈ s.contents.toList, (e.last item.1).map KV.Entry.value =
            some (Engine.written item.2) := by
    decide +kernel
  rcases evaluated with ⟨s, ran, ⟨yields, owns⟩, written⟩
  rcases Engine.Plain.of_evaluated written with ⟨e, plain, nonempty, known, same⟩
  have reached := Reached.start.run ran
  have holds := Engine.holds_of_toList known same
  exact ⟨s, e, reached, yields,
    (reads_envelopes_iff _ _ _ _ _ reached plain nonempty holds).mpr owns⟩

end SharedStore

end Theseon.AntiEntropy
