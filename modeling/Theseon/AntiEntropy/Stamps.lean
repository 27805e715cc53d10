import Mathlib.Order.WithBot
import Theseon.AntiEntropy.Reconcile

/-!
# What a round sees of a replica

A round compares timestamps only.  Here a replica is read as a map from keys to
timestamps: what a put does to it, and which part of it the entries of a bucket
show.
-/

namespace Theseon.AntiEntropy

open Lib HLC Cluster List
open Std (ExtTreeMap)

/-- The timestamp under a key.  No envelope is below every timestamp. -/
def stamp (r : Replica) (key : Bytes) : WithBot Timestamp :=
  (r.current key).elim ⊥ fun e => e.timestamp

/-- The timestamp that an entry shows for a key. -/
def view (entries : List Entry) (key : Bytes) : WithBot Timestamp :=
  (entries.find? fun e => e.key = key).elim ⊥ fun e => e.timestamp

/-! ## Reading -/

section Reading

variable {r : Replica} {key : Bytes}

variable {value : Bytes} {e : Envelope}

theorem current_of_getElem? (found : r.store[key]? = some value)
    (decoded : decodeEnvelope value = .ok e) : r.current key = some e := by
  rw [Replica.current, Replica.localRead, found, Replica.readEnvelope, decoded]

theorem stamp_eq_coe_iff {ts : Timestamp} :
    stamp r key = ts ↔ ∃ e, r.current key = some e ∧ e.timestamp = ts := by
  rw [stamp]
  cases r.current key with
  | none => simp
  | some e => simp

/-- A key that has an envelope has its encoding. -/
theorem exists_of_current (found : r.current key = some e) :
    ∃ value, r.store[key]? = some value ∧ decodeEnvelope value = .ok e := by
  rw [Replica.current, Replica.localRead] at found
  cases stored : r.store[key]? with
  | none =>
    rw [stored] at found
    cases found
  | some value =>
    rw [stored, Replica.readEnvelope] at found
    cases decoded : decodeEnvelope value with
    | error err =>
      rw [decoded] at found
      cases found
    | ok env =>
      rw [decoded] at found
      cases found
      exact ⟨value, rfl, decoded⟩

end Reading

/-! ## The entries of a bucket -/

section Entries

variable {owned : Bytes → Bool} {items : List (Bytes × Bytes)} {entries : List Entry}

/-- What an item of the scan shows. -/
structure Shows (owned : Bytes → Bool) (items : List (Bytes × Bytes)) (e : Entry) : Prop where
  owned : owned e.key = true
  stored : ∃ value env, (e.key, value) ∈ items ∧ decodeEnvelope value = .ok env ∧
    e.timestamp = env.timestamp ∧ e.deleted = env.deleted

/-- The source decodes the record. -/
def live (owned : Bytes → Bool) (item : Bytes × Bytes) : Bool :=
  owned item.1 && !item.2.isEmpty

/-- The entry that a record decodes to. -/
def entryOf (item : Bytes × Bytes) : Option Entry :=
  (decodeEnvelope item.2).toOption.map fun env => ⟨item.1, env.timestamp, env.deleted⟩

theorem entryOf_eq_some {item : Bytes × Bytes} {e : Entry} :
    entryOf item = some e ↔ item.1 = e.key ∧ ∃ env, decodeEnvelope item.2 = .ok env ∧
      e.timestamp = env.timestamp ∧ e.deleted = env.deleted := by
  rcases e with ⟨key, timestamp, deleted⟩
  rw [entryOf]
  cases decodeEnvelope item.2 with
  | error err => simp [Except.toOption]
  | ok env => simp [Except.toOption, eq_comm]

/-- The source succeeds with the entries of the records that it decodes. -/
theorem sourceEntries_eq_ok_iff : sourceEntries owned items = .ok entries ↔
    (items.filter (live owned)).map entryOf = entries.map some := by
  induction items generalizing entries with
  | nil => cases entries <;> simp [sourceEntries]
  | cons item items ih =>
    rcases item with ⟨key, value⟩
    rw [sourceEntries]
    split
    · rename_i notOwned
      rw [filter_cons_of_neg (by simp [live, notOwned]), ih]
    split
    · rename_i empty
      rw [filter_cons_of_neg (by simp [live, empty]), ih]
    rename_i isOwned live'
    rw [filter_cons_of_pos (by simpa [live, live'] using isOwned), map_cons, entryOf]
    cases decodeEnvelope value with
    | error err => cases entries <;> simp [Except.toOption]
    | ok env =>
      cases entries with
      | nil => cases sourceEntries owned items <;> simp
      | cons first rest =>
        rw [map_cons, cons.injEq, ← ih]
        cases sourceEntries owned items <;> simp [Except.toOption]

theorem mem_sourceEntries (read : sourceEntries owned items = .ok entries) (e : Entry) :
    e ∈ entries ↔ Shows owned items e := by
  rw [← mem_map_of_injective (Option.some_injective _), ← sourceEntries_eq_ok_iff.mp read, mem_map]
  constructor
  · rintro ⟨⟨key, value⟩, mem, isEntry⟩
    rcases mem_filter.mp mem with ⟨inItems, isLive⟩
    rcases entryOf_eq_some.mp isEntry with ⟨rfl, env, facts⟩
    exact ⟨(Bool.and_eq_true_iff.mp isLive).1, value, env, inItems, facts⟩
  · rintro ⟨isOwned, value, env, mem, decoded, facts⟩
    have nonempty : value ≠ [] := by
      rintro rfl
      cases decoded
    exact ⟨(e.key, value), mem_filter.mpr ⟨mem, by simp [live, isOwned, nonempty]⟩,
      entryOf_eq_some.mpr ⟨rfl, env, decoded, facts⟩⟩

theorem sourceEntries_sorted (sorted : items.Pairwise fun first second => first.1 < second.1)
    (read : sourceEntries owned items = .ok entries) :
    entries.Pairwise fun first second => first.key < second.key := by
  have ordered : (entries.map some).Pairwise fun first second =>
      ∀ e ∈ first, ∀ f ∈ second, e.key < f.key := by
    rw [← sourceEntries_eq_ok_iff.mp read, pairwise_map]
    apply (sorted.filter _).imp
    intro first second less e isFirst f isSecond
    rw [← (entryOf_eq_some.mp isFirst).1, ← (entryOf_eq_some.mp isSecond).1]
    exact less
  exact (pairwise_map.mp ordered).imp fun less => less _ rfl _ rfl

theorem view_cons (e : Entry) (entries : List Entry) (key : Bytes) :
    view (e :: entries) key = if e.key = key then ↑e.timestamp else view entries key := by
  by_cases same : e.key = key
  · simp [view, same]
  · simp [view, same]

theorem exists_of_view {key : Bytes} {ts : Timestamp} (shown : view entries key = ts) :
    ∃ e ∈ entries, e.key = key ∧ e.timestamp = ts := by
  rw [view] at shown
  cases found : entries.find? fun e => e.key = key with
  | none =>
    rw [found] at shown
    cases shown
  | some e =>
    rw [found] at shown
    exact ⟨e, mem_of_find?_eq_some found, by simpa using find?_some found, WithBot.coe_inj.mp shown⟩

theorem view_of_mem (sorted : entries.Pairwise fun first second => first.key < second.key)
    {e : Entry} (mem : e ∈ entries) : view entries e.key = e.timestamp := by
  induction entries with
  | nil => cases mem
  | cons first rest ih =>
    rcases pairwise_cons.mp sorted with ⟨below, later⟩
    rw [view_cons]
    rcases mem_cons.mp mem with rfl | inRest
    · exact if_pos rfl
    · rw [if_neg (below e inRest).ne]
      exact ih later inRest

end Entries

section Bucket

variable {sum64 : Bytes → UInt64} {owned : Bytes → Bool} {r : Replica} {entries : List Entry}
  {fanout depth bucket : Nat} {cutoff : Int64}

/-- The bucket of a key in a tree of the given shape. -/
def bucketOf (sum64 : Bytes → UInt64) (fanout depth : Nat) (key : Bytes) : Nat :=
  (sum64 key).toNat % fanout ^ depth

/-- A key that both nodes own is shown unless it is too young. -/
def InSight (owned : Bytes → Bool) (cutoff : Int64) (key : Bytes) (ts : Timestamp) : Prop :=
  owned key = true ∧ ts.wallTime < cutoff

/-- The entries of a bucket show what the replica has, as far as it is in sight. -/
theorem bucketEntries_spec
    (read : bucketEntries sum64 owned r fanout depth bucket cutoff = .ok entries) :
    bucket < fanout ^ depth ∧
      (entries.Pairwise fun first second => first.key < second.key) ∧
      ∀ key (ts : Timestamp), view entries key = ts ↔ bucketOf sum64 fanout depth key = bucket ∧
        stamp r key = ts ∧ InSight owned cutoff key ts := by
  rw [bucketEntries] at read
  split at read
  · cases read
  rename_i t created
  split at read
  · cases read
  rename_i inside
  split at read
  · cases read
  rename_i all scanned
  cases read
  rcases Tree.new_eq_ok created with ⟨rfl, rfl, shaped⟩
  have bucketFor : ∀ key, t.bucketFor sum64 key = bucketOf sum64 t.fanout t.depth key := by
    intro key
    rw [Tree.bucketFor, shaped.numLeaves_eq, bucketOf]
  have mem := mem_sourceEntries scanned
  have allSorted := sourceEntries_sorted
    (ExtTreeMap.ordered_keys_toList.imp fun less => compare_eq_lt_iff.mp less) scanned
  have sorted := allSorted.filter fun e =>
    t.bucketFor sum64 e.key = bucket ∧ e.timestamp.wallTime < cutoff
  refine ⟨shaped.numLeaves_eq ▸ Nat.lt_of_not_le inside, sorted, ?_⟩
  intro key ts
  constructor
  · intro shown
    rcases exists_of_view shown with ⟨e, inside, rfl, rfl⟩
    rcases mem_filter.mp inside with ⟨inAll, kept⟩
    rcases of_decide_eq_true kept with ⟨inBucket, old⟩
    have shows := (mem e).mp inAll
    rcases shows.stored with ⟨value, env, inStore, decoded, isTs, _⟩
    have stored := ExtTreeMap.mem_toList_iff_getElem?_eq_some.mp inStore
    have stamped := stamp_eq_coe_iff.mpr ⟨env, current_of_getElem? stored decoded, isTs.symm⟩
    exact ⟨bucketFor e.key ▸ inBucket, stamped, shows.owned, old⟩
  · rintro ⟨inBucket, stamped, isOwned, old⟩
    rcases stamp_eq_coe_iff.mp stamped with ⟨env, isCurrent, rfl⟩
    rcases exists_of_current isCurrent with ⟨value, stored, decoded⟩
    have shows : Shows owned r.store.toList ⟨key, env.timestamp, env.deleted⟩ :=
      ⟨isOwned, value, env, ExtTreeMap.mem_toList_iff_getElem?_eq_some.mpr stored, decoded,
        rfl, rfl⟩
    apply view_of_mem sorted (mem_filter.mpr ⟨(mem _).mpr shows, ?_⟩)
    exact decide_eq_true ⟨(bucketFor key).trans inBucket, old⟩

end Bucket

end Theseon.AntiEntropy
