import Theseon.Cluster.Envelope
import Theseon.DB.ScanReads

/-!
# The request handlers

A standalone server hands the requests of its clients to the engine.  With a
coordinator it stores envelopes, and reads go through the coordinator, which opens
them; here the coordinator has this node as its only replica.

`Scan` reads the engine directly in both cases.  It passes over nil values as
tombstones and streams the stored bytes.  So it agrees with `Get` on a standalone
server to which no nil value was written, and not with a coordinator.
-/

namespace Theseon

open Lib KV SSTable Iterator HLC Cluster
open Engine (tinyOptions)

/-- Whether the server has a coordinator. -/
inductive ServerMode where
  | standalone
  | oneNode
  deriving DecidableEq, Repr

/-- The requests that write. -/
inductive ClientRequest where
  | put (key : Bytes) (value : Option Bytes)
  | delete (key : Bytes)
  | batchWrite (entries : List BatchOp)
  deriving DecidableEq, Repr

/-- The operations of a request. -/
def ClientRequest.ops : ClientRequest → List BatchOp
  | put key value => [.put key value]
  | delete key => [.delete key]
  | batchWrite entries => entries

/-- The answers of `Get`. -/
inductive GetResponse where
  | invalidArgument
  | internal (err : EnvelopeError)
  | notFound
  | found (value : Bytes)
  deriving DecidableEq, Repr

/-- The answer of `Get` to what the engine has found.  A coordinator opens the
envelope. -/
def respond : ServerMode → Option Value → GetResponse
  | _, none => .notFound
  | .standalone, some value => if value.tombstone then .notFound else .found value.bytes
  | .oneNode, some value =>
    match decodeEnvelope value.bytes with
    | .error err => .internal err
    | .ok env => if env.deleted then .notFound else .found env.value

structure Server where
  mode : ServerMode
  engine : Engine

inductive ServerAction where
  /-- A write that succeeds, with the timestamps that the coordinator draws. -/
  | request (req : ClientRequest) (stamps : List Timestamp)
  | flush
  | compact (sorter : Sorter Reader.firstKey)

/-- `writeInternal` on the local replica: a deletion is an envelope too. -/
def BatchOp.enveloped (op : BatchOp) (ts : Timestamp) : Except Timestamp.CodecError BatchOp :=
  (encodeEnvelope ⟨ts, op.tombstone, op.value.getD []⟩).map fun encoded =>
    .put op.key (some encoded)

/-- The coordinator writes one operation after the other. -/
def envelopes : List BatchOp → List Timestamp → Option (List (List BatchOp))
  | [], _ => some []
  | _ :: _, [] => none
  | op :: ops, ts :: stamps =>
    match op.enveloped ts with
    | .error _ => none
    | .ok enveloped => (envelopes ops stamps).map fun rest => [enveloped] :: rest

namespace Server

def start (opts : Options) (mode : ServerMode) : Server :=
  ⟨mode, .start opts⟩

/-- The batches that a request commits.  Empty keys are refused, and an empty batch
commits nothing. -/
def batches (mode : ServerMode) (req : ClientRequest) (stamps : List Timestamp) :
    Option (List (List BatchOp)) :=
  if ∃ op ∈ req.ops, op.key = [] then none
  else
    match mode with
    | .standalone => some (if req.ops = [] then [] else [req.ops])
    | .oneNode => envelopes req.ops stamps

def step (opts : Options) (s : Server) : ServerAction → Option Server
  | .request req stamps =>
    (batches s.mode req stamps).bind fun batches =>
      (run (Engine.step opts) s.engine (batches.map .write)).map fun e => { s with engine := e }
  | .flush => (s.engine.step opts .flush).map fun e => { s with engine := e }
  | .compact sorter => (s.engine.step opts (.compact sorter)).map fun e => { s with engine := e }

/-- `Get`, which identifies nil and empty values. -/
def get (s : Server) (key : Bytes) : GetResponse :=
  if key = [] then .invalidArgument else respond s.mode (s.engine.db.get key)

/-- What `Scan` streams of the pairs of the iterator. -/
def streamed (out : List (Bytes × Option Bytes)) : List (Bytes × Bytes) :=
  out.filterMap fun pair => pair.2.map fun value => (userKey pair.1, value)

/-- `Scan` streams every pair that `Get` finds, once, and no others. -/
def ScanAgrees (s : Server) : Prop :=
  ∃ out, Drains s.engine.db.scan out none ∧ ((streamed out).map Prod.fst).Nodup ∧
    ∀ key value, (key, value) ∈ streamed out ↔ s.get key = .found value

/-- A standalone server is sent no nil values, a server with a coordinator nothing at
all; the counters do not wrap, and compactions leave no version of a user key that
they move behind. -/
def Agreeing (opts : Options) (s : Server) : ServerAction → Prop
  | .request req _ =>
    match s.mode with
    | .standalone =>
      (∀ op ∈ req.ops, op.tombstone = true ∨ op.value ≠ none) ∧
        s.engine.Safe opts (.write req.ops)
    | .oneNode => req.ops = []
  | .flush => True
  | .compact sorter => s.engine.Safe opts (.compact sorter)

instance (opts : Options) (s : Server) (a : ServerAction) : Decidable (s.Agreeing opts a) := by
  unfold Agreeing
  repeat' split
  all_goals infer_instance

/-! ## What the requests leave behind -/

/-- What every step keeps. -/
structure Sound (opts : Options) (s : Server) : Prop where
  reached : Reached (Engine.step opts) (Engine.Safe opts) (Engine.start opts) s.engine
  clean : ∀ entry ∈ s.engine.history, entry.value.Clean
  nonempty : ∀ entry ∈ s.engine.history, entry.user ≠ []
  unwritten : s.mode = .oneNode → s.engine.history = []

section

variable {opts : Options} {s next : Server}

theorem start_sound (opts : Options) (mode : ServerMode) : (start opts mode).Sound opts :=
  ⟨.start, List.forall_mem_nil _, List.forall_mem_nil _, fun _ => rfl⟩

variable {ops : List BatchOp} {entry : Entry} {out : List (Bytes × Option Bytes)}
  {key value : Bytes}

/-- The versions of a batch without nil values are puts and tombstones. -/
theorem clean_of_mem_stamp {seq : Nat} (values : ∀ op ∈ ops, op.tombstone = true ∨ op.value ≠ none)
    (mem : entry ∈ stamp seq ops) : entry.value.Clean := by
  rcases exists_op_of_mem_stamp mem with ⟨op, opMem, n, rfl⟩
  rw [BatchOp.entry, BatchOp.stored]
  split
  · exact .inl rfl
  rename_i isPut
  rcases Option.ne_none_iff_exists'.mp ((values op opMem).resolve_left isPut) with
    ⟨data, isData⟩
  exact .inr ⟨data, by rw [isData]⟩

theorem user_ne_nil_of_mem_stamp {seq : Nat} (keys : ∀ op ∈ ops, op.key ≠ [])
    (mem : entry ∈ stamp seq ops) : entry.user ≠ [] := by
  rcases exists_op_of_mem_stamp mem with ⟨op, opMem, n, rfl⟩
  rw [BatchOp.entry, Entry.user, userKey_makeInternalKey]
  exact keys op opMem

theorem Sound.write (sound : s.Sound opts) (mode : s.mode = .standalone)
    (keys : ∀ op ∈ ops, op.key ≠ []) (values : ∀ op ∈ ops, op.tombstone = true ∨ op.value ≠ none)
    (safe : s.engine.Safe opts (.write ops)) {e : Engine}
    (stepped : s.engine.step opts (.write ops) = some e) : Sound opts { s with engine := e } := by
  have history : e.history = s.engine.history ++ stamp s.engine.db.nextSeq ops := by
    rw [Engine.step] at stepped
    split at stepped
    · cases stepped
      rfl
    · cases stepped
  constructor
  · exact sound.reached.step safe stepped
  · intro entry entryMem
    rw [history] at entryMem
    exact (List.mem_append.mp entryMem).elim (sound.clean entry) (clean_of_mem_stamp values)
  · intro entry entryMem
    rw [history] at entryMem
    exact (List.mem_append.mp entryMem).elim (sound.nonempty entry) (user_ne_nil_of_mem_stamp keys)
  · intro isOneNode
    rw [mode] at isOneNode
    cases isOneNode

theorem Sound.request (sound : s.Sound opts) {req : ClientRequest} {stamps : List Timestamp}
    (ok : s.Agreeing opts (.request req stamps))
    (stepped : s.step opts (.request req stamps) = some next) : next.Sound opts := by
  rcases Option.bind_eq_some_iff.mp stepped with ⟨committed, isBatches, written⟩
  rcases Option.map_eq_some_iff.mp written with ⟨e, ran, rfl⟩
  rw [batches.eq_def] at isBatches
  split at isBatches
  · cases isBatches
  rename_i keys
  push Not at keys
  rw [Agreeing] at ok
  split at isBatches
  · rename_i mode
    rw [mode] at ok
    cases isBatches
    split at ran
    · cases ran
      exact sound
    rcases Option.bind_eq_some_iff.mp ran with ⟨_, engineStep, same⟩
    cases same
    exact sound.write mode keys ok.1 ok.2 engineStep
  rename_i mode
  rw [mode] at ok
  rw [ok] at isBatches
  cases isBatches
  cases ran
  exact sound

theorem Sound.step (sound : s.Sound opts) {action : ServerAction} (ok : s.Agreeing opts action)
    (stepped : s.step opts action = some next) : next.Sound opts := by
  have background : ∀ {a : Action} {e : Engine}, s.engine.Safe opts a →
      s.engine.step opts a = some e → e.history = s.engine.history →
      Sound opts { s with engine := e } := by
    intro a e safe stepped same
    exact ⟨sound.reached.step safe stepped, by rw [same]; exact sound.clean,
      by rw [same]; exact sound.nonempty, by rw [same]; exact sound.unwritten⟩
  cases action with
  | request req stamps => exact sound.request ok stepped
  | flush =>
    rcases Option.map_eq_some_iff.mp stepped with ⟨e, flushed, rfl⟩
    apply @background .flush e trivial flushed
    rcases Option.map_eq_some_iff.mp flushed with ⟨db, _, rfl⟩
    rfl
  | compact sorter =>
    rcases Option.map_eq_some_iff.mp stepped with ⟨e, compacted, rfl⟩
    apply @background (.compact sorter) e ok compacted
    rcases Option.map_eq_some_iff.mp compacted with ⟨db, _, rfl⟩
    rfl

/-! ## Scans and lookups -/

theorem mem_streamed :
    (key, value) ∈ streamed out ↔ ∃ pair ∈ out, pair.2 = some value ∧ userKey pair.1 = key := by
  rw [streamed, List.mem_filterMap]
  constructor
  · rintro ⟨pair, pairMem, shows⟩
    rcases Option.map_eq_some_iff.mp shows with ⟨data, isData, same⟩
    cases same
    exact ⟨pair, pairMem, isData, rfl⟩
  · rintro ⟨pair, pairMem, isData, rfl⟩
    exact ⟨pair, pairMem, by rw [isData]; rfl⟩

theorem nodup_streamed (nodup : (out.map fun pair => userKey pair.1).Nodup) :
    ((streamed out).map Prod.fst).Nodup := by
  have sublist : ((streamed out).map Prod.fst).Sublist (out.map fun pair => userKey pair.1) := by
    rw [streamed, List.map_filterMap]
    induction out with
    | nil => exact List.Sublist.refl _
    | cons pair rest ih =>
      have restIh := ih (List.nodup_cons.mp nodup).2
      rcases pair with ⟨key, _ | value⟩
      · exact restIh.cons _
      · exact restIh.cons_cons _
  exact sublist.nodup nodup

/-- A version shows a value exactly when it is a put of it. -/
theorem shown_eq_some_iff (clean : entry.value.Clean) :
    (shown entry).2 = some value ↔ entry.value = .new (some value) := by
  rw [shown]
  rcases clean with isTombstone | ⟨data, isPut⟩
  · rw [isTombstone]
    constructor
    · intro same
      cases same
    · intro same
      cases same
  rw [isPut]
  constructor
  · intro same
    rw [← same]
    rfl
  · intro same
    rw [same]
    rfl

/-- In such runs `Get` finds a value exactly where the engine holds a put of it. -/
theorem Sound.get_eq_found_iff (sound : s.Sound opts) (free : PrefixFree s.engine.history) :
    s.get key = .found value ↔ s.engine.db.get key = some (.new (some value)) := by
  have inv := Engine.invariant_of_reached sound.reached sound.clean free
  have held : ∀ {value : Value}, s.engine.db.get key = some value →
      ∃ entry ∈ s.engine.history, entry.value = value ∧ entry.user = key := by
    intro value found
    rcases (inv.get_eq_some_iff free).mp found with ⟨entry, newest, isValue, isKey⟩
    exact ⟨entry, (inv.contents entry).mp newest.1, isValue, isKey⟩
  rw [get]
  cases found : s.engine.db.get key with
  | none =>
    split
    · simp
    · cases s.mode <;> simp [respond]
  | some stored =>
    rcases held found with ⟨entry, entryMem, rfl, rfl⟩
    rw [if_neg (sound.nonempty entry entryMem)]
    cases mode : s.mode with
    | oneNode =>
      rw [sound.unwritten mode] at entryMem
      cases entryMem
    | standalone =>
      rcases sound.clean entry entryMem with isTombstone | ⟨data, isPut⟩
      · simp [respond, isTombstone, Value.newTombstone, Value.new]
      · simp [respond, isPut, Value.new, Value.bytes]

/-- In every run of a standalone server without nil values, `Scan` agrees with `Get`. -/
theorem scan_agrees_with_get {mode : ServerMode}
    (reached : Reached (step opts) (Agreeing opts) (start opts mode) s)
    (free : PrefixFree s.engine.history) : s.ScanAgrees := by
  have sound : s.Sound opts := reached.invariant (Sound opts) (start_sound opts mode)
    fun sound ok stepped => sound.step ok stepped
  have inv := Engine.invariant_of_reached sound.reached sound.clean free
  have scannable := Engine.scannable_of_reached sound.reached
  have plain := inv.plainKeys sound.nonempty free
  refine ⟨_, s.engine.db.scanAt_drains scannable.sound _, nodup_streamed
    (DB.nodup_users_visible plain scannable.long _), ?_⟩
  intro key value
  rw [sound.get_eq_found_iff free, inv.get_eq_some_iff free, mem_streamed]
  have visible_iff := fun pair =>
    @DB.mem_visible_iff _ s.engine.db.currentSeq plain scannable.long inv.keysShowOne pair
  have clean : ∀ {entry : Entry}, s.engine.db.Newest s.engine.db.currentSeq entry →
      entry.value.Clean := fun newest => sound.clean _ ((inv.contents _).mp newest.1)
  constructor
  · rintro ⟨pair, pairMem, isValue, isKey⟩
    rcases (visible_iff pair).mp pairMem with ⟨entry, newest, rfl⟩
    exact ⟨entry, newest, (shown_eq_some_iff (clean newest)).mp isValue, isKey⟩
  · rintro ⟨entry, newest, isValue, isKey⟩
    exact ⟨shown entry, (visible_iff _).mpr ⟨entry, newest, rfl⟩,
      (shown_eq_some_iff (clean newest)).mpr isValue, isKey⟩

/-! ## Nil values and envelopes -/

/-- The engine under a server makes a run of its own. -/
theorem engine_reached {allowed : Server → ServerAction → Prop} {mode : ServerMode}
    (reached : Reached (step opts) allowed (start opts mode) s) :
    Reached (Engine.step opts) (fun _ _ => True) (Engine.start opts) s.engine := by
  apply reached.invariant fun s =>
    Reached (Engine.step opts) (fun _ _ => True) (Engine.start opts) s.engine
  · exact .start
  intro s next action engine _ stepped
  cases action with
  | request req stamps =>
    rcases Option.bind_eq_some_iff.mp stepped with ⟨committed, _, written⟩
    rcases Option.map_eq_some_iff.mp written with ⟨e, ran, rfl⟩
    exact engine.run ran
  | flush =>
    rcases Option.map_eq_some_iff.mp stepped with ⟨e, flushed, rfl⟩
    exact engine.step trivial flushed
  | compact sorter =>
    rcases Option.map_eq_some_iff.mp stepped with ⟨e, compacted, rfl⟩
    exact engine.step trivial compacted

theorem not_scanAgrees (drains : Drains s.engine.db.scan out none)
    (found : s.get key = .found value) (missing : (key, value) ∉ streamed out) :
    ¬ s.ScanAgrees := by
  rintro ⟨scanned, scannedDrains, _, agrees⟩
  rw [(drains.unique scannedDrains).1] at missing
  exact missing ((agrees key value).mpr found)

/-- After a run of requests `Get` finds the value and the scan yields the pairs, which
do not have it. -/
def Disagrees (mode : ServerMode) (actions : List ServerAction) (key value : Bytes)
    (out : List (Bytes × Option Bytes)) : Prop :=
  ∃ s, run (step tinyOptions) (start tinyOptions mode) actions = some s ∧
    s.get key = .found value ∧ Drains s.engine.db.scan out none ∧ ¬ s.ScanAgrees

theorem disagrees_of_evaluated {mode : ServerMode} {actions : List ServerAction}
    (evaluated : (run (step tinyOptions) (start tinyOptions mode) actions).map (fun s =>
      (s.get key, visible s.engine.db.currentSeq none s.engine.db.scanned)) =
        some (.found value, out)) (missing : (key, value) ∉ streamed out) :
    Disagrees mode actions key value out := by
  rcases Option.map_eq_some_iff.mp evaluated with ⟨s, ran, facts⟩
  rcases Prod.mk.inj facts with ⟨found, isOut⟩
  have scannable := Engine.scannable_of_reached (engine_reached (Reached.start.run ran))
  have drains : Drains s.engine.db.scan out none := by
    rw [← isOut]
    exact s.engine.db.scanAt_drains scannable.sound _
  exact ⟨s, ran, found, drains, not_scanAgrees drains found missing⟩

end

/-- `Put("a", nil)`: `Get` finds an empty value and `Scan` passes over it as a
tombstone.  `Put("a", "1")` through a coordinator: `Get` finds the value, `Scan`
streams its envelope. -/
theorem nil_value_and_envelope_scanned :
    Disagrees .standalone [.request (.put [97] none) []] [97] []
        [(makeInternalKey [97] 1, none)] ∧
      Disagrees .oneNode [.request (.put [97] (some [49])) [⟨7, 0, [110]⟩]] [97] [49]
        [(makeInternalKey [97] 1,
          some [1, 0, 0, 0, 0, 0, 0, 0, 0, 7, 0, 0, 0, 0, 0, 1, 110, 49])] := by
  constructor
  · exact disagrees_of_evaluated (by decide +kernel) (by decide)
  · exact disagrees_of_evaluated (by decide +kernel) (by decide)

/-- Two puts, the deletion of one and a flush on a standalone server. -/
theorem plain_values_scanned :
    ∃ s, Reached (step tinyOptions) (Agreeing tinyOptions) (start tinyOptions .standalone) s ∧
      s.get [97] = .found [] ∧ s.get [98] = .notFound ∧ s.ScanAgrees := by
  have evaluated : ∃ s ∈ runAllowed (step tinyOptions) (Agreeing tinyOptions)
      (start tinyOptions .standalone)
      [.request (.batchWrite [.put [97] (some []), .put [98] (some [49])]) [],
        .request (.delete [98]) [], .flush],
      PrefixFree s.engine.history ∧ s.get [97] = .found [] ∧ s.get [98] = .notFound := by
    decide +kernel
  rcases Reached.of_evaluated evaluated with ⟨s, reached, free, first, second⟩
  exact ⟨s, reached, first, second, scan_agrees_with_get reached free⟩

end Server

end Theseon
