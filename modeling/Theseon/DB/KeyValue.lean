import Theseon.DB.ScanReads

/-!
# The engine as a map

Over user keys of which none is a prefix of another the engine is a map: a lookup returns
what was written last under the key, and a scan shows this for every key, in the order of
the keys.
-/

namespace Theseon.Engine

open Lib KV SSTable Iterator List
open Std (ExtTreeMap)

/-- The version that was written last under a key. -/
def last (e : Engine) (key : Bytes) : Option Entry :=
  (e.history.filter fun entry => entry.user = key).getLast?

/-- A run of safe steps that writes no nil values, under keys of which none is a prefix of
another. -/
structure Plain (opts : Options) (e : Engine) : Prop where
  reached : Reached (step opts) (Safe opts) (start opts) e
  clean : ∀ entry ∈ e.history, entry.value.Clean
  free : PrefixFree e.history

theorem Plain.of_evaluated {opts : Options} {actions : List Action} {facts : Engine → Prop}
    (evaluated : ∃ e ∈ runAllowed (step opts) (Safe opts) (start opts) actions,
      ((∀ entry ∈ e.history, entry.value.Clean) ∧ PrefixFree e.history) ∧ facts e) :
    ∃ e, Plain opts e ∧ facts e := by
  rcases evaluated with ⟨e, ran, ⟨clean, free⟩, holds⟩
  exact ⟨e, ⟨Reached.start.runAllowed ran, clean, free⟩, holds⟩

variable {opts : Options} {e : Engine} {key : Bytes} {entry : Entry}

theorem Invariant.last_eq_some_iff (inv : e.Invariant) :
    e.last key = some entry ↔ entry ∈ e.history ∧ entry.user = key ∧
      ∀ other ∈ e.history, other.user = key → other.seq ≤ entry.seq := by
  have ascending : (e.history.filter fun entry => entry.user = key).Pairwise
      fun first second => first.seq < second.seq := inv.ascending.sublist filter_sublist
  have listed {other : Entry} : other ∈ e.history.filter (fun entry => entry.user = key) ↔
      other ∈ e.history ∧ other.user = key := by
    rw [mem_filter, decide_eq_true_eq]
  constructor
  · intro isLast
    rcases getLast?_eq_some_iff.mp isLast with ⟨front, split⟩
    rw [split, pairwise_append] at ascending
    rcases listed.mp (split ▸ mem_append_right _ mem_cons_self) with ⟨mem, isKey⟩
    refine ⟨mem, isKey, fun other otherMem otherKey => ?_⟩
    have inSplit := split ▸ listed.mpr ⟨otherMem, otherKey⟩
    rcases mem_append.mp inSplit with earlier | same
    · exact (ascending.2.2 other earlier entry mem_cons_self).le
    · rw [mem_singleton.mp same]
  · rintro ⟨mem, isKey, newest⟩
    have inFilter := listed.mpr ⟨mem, isKey⟩
    rcases getLast?_isSome.mpr (ne_nil_of_mem inFilter) |> Option.isSome_iff_exists.mp with
      ⟨final, isFinal⟩
    rcases listed.mp (mem_of_getLast? isFinal) with ⟨finalMem, finalKey⟩
    rcases getLast?_eq_some_iff.mp isFinal with ⟨front, split⟩
    rw [split] at ascending inFilter
    rcases mem_append.mp inFilter with earlier | same
    · have less := (pairwise_append.mp ascending).2.2 entry earlier final mem_cons_self
      exact absurd (newest final finalMem finalKey) (not_le.mpr less)
    · rw [mem_singleton.mp same]
      exact isFinal

theorem Invariant.newest_iff_last (inv : e.Invariant) :
    e.db.Newest e.db.currentSeq entry ↔ e.last entry.user = some entry := by
  rw [inv.last_eq_some_iff, DB.Newest, inv.contents]
  constructor
  · rintro ⟨mem, _, newest⟩
    exact ⟨mem, rfl, fun other otherMem sameUser =>
      newest other ((inv.contents other).mpr otherMem) sameUser (inv.bound other otherMem)⟩
  · rintro ⟨mem, _, newest⟩
    exact ⟨mem, inv.bound entry mem, fun other otherMem sameUser _ =>
      newest other ((inv.contents other).mp otherMem) sameUser⟩

theorem Plain.invariant (plain : e.Plain opts) : e.Invariant :=
  invariant_of_reached plain.reached plain.clean plain.free

/-- A lookup returns what was written last. -/
theorem Plain.get_eq_last (plain : e.Plain opts) (key : Bytes) :
    e.db.get key = (e.last key).map Entry.value := by
  have inv := plain.invariant
  apply Option.ext
  intro value
  rw [inv.get_eq_some_iff plain.free, Option.map_eq_some_iff]
  constructor
  · rintro ⟨entry, newest, isValue, rfl⟩
    exact ⟨entry, inv.newest_iff_last.mp newest, isValue⟩
  · rintro ⟨entry, isLast, isValue⟩
    have isKey := (inv.last_eq_some_iff.mp isLast).2.1
    exact ⟨entry, inv.newest_iff_last.mpr (isKey ▸ isLast), isValue, isKey⟩

/-- The value that a write of some data, or a deletion, leaves. -/
def written : Option Bytes → Value
  | none => .newTombstone
  | some data => .new (some data)

/-- What was written last under every key is what a map has there. -/
def Holds (e : Engine) (contents : ExtTreeMap Bytes (Option Bytes)) : Prop :=
  ∀ key, (e.last key).map Entry.value = (contents[key]?).map written

theorem holds_of_toList {contents : ExtTreeMap Bytes (Option Bytes)}
    (known : ∀ entry ∈ e.history, entry.user ∈ contents)
    (same : ∀ item ∈ contents.toList, (e.last item.1).map Entry.value = some (written item.2)) :
    e.Holds contents := by
  intro key
  cases found : contents[key]? with
  | some data => exact same _ (ExtTreeMap.mem_toList_iff_getElem?_eq_some.mpr found)
  | none =>
    rw [Option.map_none, Option.map_eq_none_iff, last, getLast?_eq_none_iff, filter_eq_nil_iff]
    intro entry mem isKey
    have isKnown := known entry mem
    rw [of_decide_eq_true isKey, ExtTreeMap.mem_iff_isSome_getElem?, found] at isKnown
    cases isKnown

/-- What a scan shows of a version is what was written. -/
theorem shown_of_written {data : Option Bytes} (isValue : entry.value = written data) :
    (shown entry).2 = data := by
  rw [shown, isValue]
  cases data <;> rfl

/-- A scan shows the map in the order of its keys. -/
theorem Plain.scan_eq (plain : e.Plain opts) (nonempty : ∀ entry ∈ e.history, entry.user ≠ [])
    {contents : ExtTreeMap Bytes (Option Bytes)} (holds : e.Holds contents) :
    ∃ out, Drains e.db.scan out none ∧
      out.map (fun pair => (userKey pair.1, pair.2)) = contents.toList := by
  have inv := plain.invariant
  have scannable := scannable_of_reached plain.reached
  have keys := inv.plainKeys nonempty plain.free
  refine ⟨_, e.db.scanAt_drains scannable.sound e.db.currentSeq, ?_⟩
  have shownSorted : ((visible e.db.currentSeq none e.db.scanned).map fun pair =>
      (userKey pair.1, pair.2)).Pairwise fun first second => first.1 < second.1 :=
    pairwise_map.mpr (visible_ascending (keys.userSorted scannable.long) (by simp)).1
  have sorted : contents.toList.Pairwise fun first second => first.1 < second.1 :=
    ExtTreeMap.ordered_keys_toList.imp fun less => compare_eq_lt_iff.mp less
  have distinct {items : List (Bytes × Option Bytes)}
      (ascending : items.Pairwise fun first second => first.1 < second.1) : items.Nodup :=
    ascending.imp fun less => ne_of_apply_ne Prod.fst less.ne
  refine List.Perm.eq_of_pairwise (fun _ _ _ _ less more => absurd less (lt_asymm more))
    shownSorted sorted ((perm_ext_iff_of_nodup (distinct shownSorted) (distinct sorted)).mpr ?_)
  rintro ⟨key, data⟩
  rw [ExtTreeMap.mem_toList_iff_getElem?_eq_some, mem_map]
  have held := holds key
  constructor
  · rintro ⟨pair, mem, isPair⟩
    rcases (DB.mem_visible_iff keys scannable.long inv.keysShowOne).mp mem with ⟨entry, newest, rfl⟩
    cases isPair
    rw [show userKey (shown entry).1 = entry.user from rfl] at held ⊢
    rw [inv.newest_iff_last.mp newest] at held
    rcases Option.map_eq_some_iff.mp held.symm with ⟨data, isData, isValue⟩
    rw [isData, shown_of_written isValue.symm]
  · intro isData
    rw [isData] at held
    rcases Option.map_eq_some_iff.mp held with ⟨entry, isLast, isValue⟩
    have isKey := (inv.last_eq_some_iff.mp isLast).2.1
    refine ⟨shown entry, (DB.mem_visible_iff keys scannable.long inv.keysShowOne).mpr
      ⟨entry, inv.newest_iff_last.mpr (isKey ▸ isLast), rfl⟩, ?_⟩
    rw [shown_of_written isValue, ← isKey]
    rfl

end Theseon.Engine
