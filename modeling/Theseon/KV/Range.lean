import Theseon.KV.Versions

/-!
# Key ranges

A range scan is asked for the user keys in `[start, end)` and compares internal
keys with the search keys of its two bounds.  The two comparisons agree unless a
user key is a proper prefix of a bound: then the inverted sequence bytes of the
version are compared with what is left of the bound, and the version can come to
lie behind a bound that its user key is in front of.
-/

namespace Theseon.KV

open Lib

/-- At or above the start and below the end; nil bounds nothing. -/
def within (start stop : Option Bytes) (x : Bytes) : Bool :=
  start.all (fun start => start ≤ x) && stop.all fun stop => x < stop

variable {start stop : Option Bytes} {user : Bytes}

theorem within_iff {x : Bytes} :
    within start stop x = true ↔ (∀ bound ∈ start, bound ≤ x) ∧ ∀ bound ∈ stop, x < bound := by
  simp [within, Option.all_eq_true]

/-- The range between the search keys of the bounds. -/
def keyWithin (start stop : Option Bytes) (key : Bytes) : Bool :=
  within (start.map makeSearchKey) (stop.map makeSearchKey) key

/-- In front of a bound. -/
def Entry.below (bound : Option Bytes) (entry : Entry) : Bool :=
  bound.all fun bound => entry.key < bound

/-- What an iterator yields that starts at the first key not below `start` and
ends in front of the first key not below `stop`. -/
def window (start stop : Option Bytes) (entries : List Entry) : List Entry :=
  (start.elim entries fun start => seek start entries).takeWhile (Entry.below stop)

theorem window_eq_filter {entries : List Entry} (sorted : Sorted entries)
    (start stop : Option Bytes) :
    window start stop entries = entries.filter fun entry => within start stop entry.key := by
  have back : Downward (Entry.below stop) entries := by
    rcases stop with _ | stop
    · exact sorted.imp fun _ _ => rfl
    · exact sorted.downward stop
  rcases start with _ | start
  · exact back.takeWhile_eq_filter
  rw [window, Option.elim_some, seek, (sorted.downward start).dropWhile_eq_filter_not,
    back.takeWhile_filter, back.takeWhile_eq_filter, List.filter_filter]
  apply List.filter_congr
  intro entry _
  simp [within, Entry.below, ← decide_not]

/-! ## Versions behind a bound of larger user key -/

/-- The user key is in front of the bound and the version is not: the bound extends
the user key, and its rest is not above the sequence bytes of the version. -/
def Overtakes (user : Bytes) (seq : Nat) (bound : Bytes) : Prop :=
  user <+: bound ∧ user ≠ bound ∧
    bound.drop user.length ++ invertedSeq maxSeqNum ≤ invertedSeq seq

instance (user : Bytes) (seq : Nat) (bound : Bytes) : Decidable (Overtakes user seq bound) :=
  inferInstanceAs (Decidable (_ ∧ _ ∧ _))

theorem Overtakes.lt {bound : Bytes} {seq : Nat} (overtakes : Overtakes user seq bound) :
    user < bound := by
  rcases overtakes with ⟨⟨rest, rfl⟩, different, _⟩
  exact lt_of_le_of_ne (le_append_right_self user rest) different

theorem makeSearchKey_le_iff (user : Bytes) (seq : Nat) (bound : Bytes) :
    makeSearchKey bound ≤ makeInternalKey user seq ↔ bound ≤ user ∨ Overtakes user seq bound := by
  rcases eq_or_unrelated_or_extends user bound with rfl | unrelated | ⟨w, nonempty, rfl⟩ |
    ⟨w, nonempty, rfl⟩
  · rw [makeSearchKey, makeInternalKey, makeInternalKey, append_le_append_left_iff]
    exact iff_of_true (invertedSeq_maxSeqNum_le (by simp)) (.inl le_rfl)
  · rw [← not_lt, makeSearchKey, makeInternalKey_lt_iff_of_unrelated unrelated, not_lt]
    constructor
    · exact .inl
    · rintro (le | ⟨extends_, _⟩)
      · exact le
      · exact absurd extends_ unrelated.1
  · have different : user ≠ user ++ w := fun same => nonempty (by simpa using same)
    have above : ¬ user ++ w ≤ user :=
      not_le.mpr (lt_of_le_of_ne (le_append_right_self user w) different)
    rw [makeSearchKey, makeInternalKey, makeInternalKey, List.append_assoc,
      append_le_append_left_iff, Overtakes, List.drop_left]
    constructor
    · exact fun reaches => .inr ⟨List.prefix_append user w, different, reaches⟩
    · rintro (le | ⟨_, _, reaches⟩)
      · exact absurd le above
      · exact reaches
  · rw [makeSearchKey, makeInternalKey, makeInternalKey, List.append_assoc,
      append_le_append_left_iff]
    exact iff_of_true (invertedSeq_maxSeqNum_le (by simp)) (.inl (le_append_right_self bound w))

/-- The version lies in the range of the search keys exactly when its user key
lies in the range: where it overtakes the start it is also behind the end, and
where it overtakes the end its user key is in front of the start. -/
def Respects (start stop : Option Bytes) (user : Bytes) (seq : Nat) : Prop :=
  (∀ first ∈ start, Overtakes user seq first →
      ∃ last ∈ stop, last ≤ user ∨ Overtakes user seq last) ∧
    ∀ last ∈ stop, Overtakes user seq last → ∃ first ∈ start, user < first

instance (start stop : Option Bytes) (user : Bytes) (seq : Nat) :
    Decidable (Respects start stop user seq) :=
  inferInstanceAs (Decidable (_ ∧ _))

theorem keyWithin_iff {seq : Nat} :
    keyWithin start stop (makeInternalKey user seq) = true ↔
      (∀ first ∈ start, first ≤ user ∨ Overtakes user seq first) ∧
        ∀ last ∈ stop, ¬ (last ≤ user ∨ Overtakes user seq last) := by
  simp only [keyWithin, within_iff, Option.mem_map, forall_exists_index, and_imp,
    forall_apply_eq_imp_iff₂, ← not_le, makeSearchKey_le_iff]

theorem keyWithin_eq_within_iff (start stop : Option Bytes) (user : Bytes) (seq : Nat) :
    keyWithin start stop (makeInternalKey user seq) = within start stop user ↔
      Respects start stop user seq := by
  rw [Bool.eq_iff_iff, keyWithin_iff, within_iff, Respects]
  constructor
  · intro agree
    constructor
    · intro first isFirst overtakes
      by_contra inFront
      push Not at inFront
      have inRange := agree.mp ⟨by
        intro bound isBound
        rw [Option.mem_unique isBound isFirst]
        exact .inr overtakes, fun last isLast => not_or.mpr ⟨not_le.mpr (inFront last isLast).1,
          (inFront last isLast).2⟩⟩
      exact absurd overtakes.lt (not_lt.mpr (inRange.1 first isFirst))
    · intro last isLast overtakes
      by_contra behind
      push Not at behind
      have inRange := agree.mpr ⟨behind, fun bound isBound => by
        rw [Option.mem_unique isBound isLast]
        exact overtakes.lt⟩
      exact inRange.2 last isLast (.inr overtakes)
  · rintro ⟨startOk, stopOk⟩
    constructor
    · rintro ⟨above, below⟩
      constructor
      · intro first isFirst
        rcases above first isFirst with le | overtakes
        · exact le
        · rcases startOk first isFirst overtakes with ⟨last, isLast, behind⟩
          exact absurd behind (below last isLast)
      · exact fun last isLast => not_le.mp fun le => below last isLast (.inl le)
    · rintro ⟨above, below⟩
      constructor
      · exact fun first isFirst => .inl (above first isFirst)
      · rintro last isLast (le | overtakes)
        · exact absurd (below last isLast) (not_lt.mpr le)
        · rcases stopOk last isLast overtakes with ⟨first, isFirst, inFront⟩
          exact absurd inFront (not_lt.mpr (above first isFirst))

theorem Entry.Long.keyWithin_eq_iff {entry : Entry} (long : entry.Long)
    (start stop : Option Bytes) :
    keyWithin start stop entry.key = within start stop entry.user ↔
      Respects start stop entry.user entry.seq := by
  rw [← keyWithin_eq_within_iff, long.key_eq]

/-- A user key that is no proper prefix of a bound is on the same side of it as
its versions. -/
theorem respects_of_not_extended (seq : Nat)
    (first : ∀ bound ∈ start, user <+: bound → user = bound)
    (last : ∀ bound ∈ stop, user <+: bound → user = bound) : Respects start stop user seq := by
  constructor
  · exact fun bound isBound overtakes => absurd (first bound isBound overtakes.1) overtakes.2.1
  · exact fun bound isBound overtakes => absurd (last bound isBound overtakes.1) overtakes.2.1

end Theseon.KV
