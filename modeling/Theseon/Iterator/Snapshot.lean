import Theseon.Iterator.Merge
import Theseon.KV.Key

/-!
# The snapshot iterator

The snapshot iterator passes over the versions above its sequence number and, of
the others, yields the first one of every user key.  `visible` is the same filter
on the list of all pairs.
-/

namespace Theseon.Iterator

open Lib KV List
open Iter

universe u v

variable {σ : Type u} {ε : Type v} [Iter σ ε]

/-- `append(lastUserKey[:0], userKey...)`: appending nothing to a nil slice leaves
it nil. -/
def remember (last : Option Bytes) (user : Bytes) : Option Bytes :=
  if last = none ∧ user = [] then none else some user

/-- `SnapshotIterator`, with an upper bound on the rounds of the loop in
`advance`. -/
structure SnapshotIterator (σ : Type u) (ε : Type v) where
  inner : σ
  maxSeq : Nat
  lastUserKey : Option Bytes
  valid : Bool
  err : Option ε
  rounds : Nat

namespace SnapshotIterator

/-- The loop of `advance`. -/
def advanceLoop : Nat → SnapshotIterator σ ε → SnapshotIterator σ ε
  | 0, s => s
  | rounds + 1, s =>
    if isValid s.inner then
      let user := userKey (key s.inner)
      if s.maxSeq < seqNum (key s.inner) then
        advanceLoop rounds { s with inner := next s.inner }
      else if s.lastUserKey = some user then
        advanceLoop rounds { s with inner := next s.inner }
      else { s with lastUserKey := remember s.lastUserKey user, valid := true }
    else
      match Iter.err s.inner with
      | none => s
      | some err => { s with err := some err }

def advance (s : SnapshotIterator σ ε) : SnapshotIterator σ ε :=
  advanceLoop s.rounds { s with valid := false }

def new (inner : σ) (maxSeq rounds : Nat) : SnapshotIterator σ ε :=
  advance
    { inner := inner
      maxSeq := maxSeq
      lastUserKey := none
      valid := false
      err := none
      rounds := rounds }

def isValid (s : SnapshotIterator σ ε) : Bool :=
  s.valid && s.err.isNone

def next (s : SnapshotIterator σ ε) : SnapshotIterator σ ε :=
  if s.isValid then advance { s with inner := Iter.next s.inner } else s

instance : Iter (SnapshotIterator σ ε) ε where
  key s := key s.inner
  value s := value s.inner
  next := next
  isValid := isValid
  err := SnapshotIterator.err
  invalid_of_err := by
    intro s failed
    cases failure : s.err with
    | none => exact absurd failure failed
    | some _ => simp [isValid, failure]

end SnapshotIterator

/-- The first pair of every user key with a sequence number of at most `maxSeq`,
unless the user key is the last one emitted. -/
def visible (maxSeq : Nat) : Option Bytes → List (Bytes × Option Bytes) →
    List (Bytes × Option Bytes)
  | _, [] => []
  | last, pair :: rest =>
    if maxSeq < seqNum pair.1 then visible maxSeq last rest
    else if last = some (userKey pair.1) then visible maxSeq last rest
    else pair :: visible maxSeq (remember last (userKey pair.1)) rest

namespace SnapshotIterator

/-- The loop goes on to the next visible pair, and from there the iterator yields
the visible pairs that are left. -/
theorem advanceLoop_drains {it : σ} {out : List (Bytes × Option Bytes)} {final : Option ε}
    (drains : Drains it out final) (maxSeq : Nat) (last : Option Bytes) {rounds fuel : Nat}
    (enough : out.length < rounds) (fuelEnough : out.length < fuel) :
    Drains (advanceLoop fuel ⟨it, maxSeq, last, false, none, rounds⟩ : SnapshotIterator σ ε)
      (visible maxSeq last out) final := by
  induction drains generalizing last fuel with
  | @stop it invalid =>
    cases fuel with
    | zero => cases fuelEnough
    | succ fuel =>
      rw [advanceLoop, if_neg (by simp [invalid])]
      cases failure : Iter.err it with
      | none => exact Drains.stop rfl
      | some e => exact Drains.stop rfl
  | @step it rest final valid drains ih =>
    rw [length_cons] at enough fuelEnough
    cases fuel with
    | zero => cases fuelEnough
    | succ fuel =>
      rw [advanceLoop, if_pos valid, visible]
      dsimp only
      split
      · exact ih last (by omega) (by omega)
      split
      · exact ih last (by omega) (by omega)
      have within : rest.length < rounds := by omega
      apply Drains.step rfl
      exact ih (remember last (userKey (key it))) within within

/-- The snapshot iterator yields the visible pairs. -/
theorem new_drains {it : σ} {out : List (Bytes × Option Bytes)} {final : Option ε}
    (drains : Drains it out final) (maxSeq : Nat) {rounds : Nat} (enough : out.length < rounds) :
    Drains (new it maxSeq rounds : SnapshotIterator σ ε) (visible maxSeq none out) final :=
  advanceLoop_drains drains maxSeq none enough enough

end SnapshotIterator

/-! ## What is visible -/

section

variable {maxSeq : Nat} {last : Option Bytes} {pairs : List (Bytes × Option Bytes)}

theorem visible_sublist (maxSeq : Nat) (last : Option Bytes) (pairs : List (Bytes × Option Bytes)) :
    (visible maxSeq last pairs).Sublist pairs := by
  induction pairs generalizing last with
  | nil => exact List.Sublist.refl _
  | cons pair rest ih =>
    rw [visible]
    split
    · exact (ih last).cons pair
    split
    · exact (ih last).cons pair
    · exact (ih _).cons_cons pair

variable {pair : Bytes × Option Bytes}

theorem seq_le_of_mem_visible (mem : pair ∈ visible maxSeq last pairs) :
    seqNum pair.1 ≤ maxSeq := by
  induction pairs generalizing last with
  | nil => cases mem
  | cons first rest ih =>
    rw [visible] at mem
    split at mem
    · exact ih mem
    rename_i shown
    split at mem
    · exact ih mem
    rcases mem_cons.mp mem with rfl | later
    · exact not_lt.mp shown
    · exact ih later

/-- The pairs of one user key are next to each other, in ascending order of the
keys, and no user key is empty. -/
structure UserSorted (pairs : List (Bytes × Option Bytes)) : Prop where
  ordered : pairs.Pairwise fun first second => userKey first.1 ≤ userKey second.1
  nonempty : ∀ pair ∈ pairs, userKey pair.1 ≠ []

theorem UserSorted.of_cons (sorted : UserSorted (pair :: pairs)) : UserSorted pairs :=
  ⟨(pairwise_cons.mp sorted.ordered).2,
    fun other mem => sorted.nonempty other (mem_cons_of_mem _ mem)⟩

theorem UserSorted.remember_eq (sorted : UserSorted (pair :: pairs)) (last : Option Bytes) :
    remember last (userKey pair.1) = some (userKey pair.1) := by
  rw [remember, if_neg]
  exact fun empty => sorted.nonempty pair mem_cons_self empty.2

/-- The user keys ascend, from the last one emitted. -/
theorem visible_ascending (sorted : UserSorted pairs)
    (above : ∀ user ∈ last, ∀ pair ∈ pairs, user ≤ userKey pair.1) :
    ((visible maxSeq last pairs).Pairwise fun first second =>
        userKey first.1 < userKey second.1) ∧
      ∀ user ∈ last, ∀ pair ∈ visible maxSeq last pairs, user < userKey pair.1 := by
  induction pairs generalizing last with
  | nil => exact ⟨List.Pairwise.nil, fun _ _ _ mem => nomatch mem⟩
  | cons pair rest ih =>
    have restAbove : ∀ user ∈ last, ∀ other ∈ rest, user ≤ userKey other.1 :=
      fun user isLast other mem => above user isLast other (mem_cons_of_mem _ mem)
    rw [visible]
    split
    · exact ih sorted.of_cons restAbove
    split
    · exact ih sorted.of_cons restAbove
    rename_i isNew
    rw [sorted.remember_eq]
    rcases @ih (some (userKey pair.1)) sorted.of_cons (by
      rintro user ⟨⟩
      exact (pairwise_cons.mp sorted.ordered).1) with ⟨ascending, later⟩
    refine ⟨pairwise_cons.mpr ⟨later _ rfl, ascending⟩, ?_⟩
    intro user isLast other otherMem
    have first : user < userKey pair.1 := by
      apply lt_of_le_of_ne (above user isLast pair mem_cons_self)
      rintro rfl
      exact isNew isLast
    rcases mem_cons.mp otherMem with rfl | inRest
    · exact first
    · exact first.trans (later _ rfl other inRest)

/-- A visible pair is the first one of its user key within the bound. -/
theorem first_of_mem_visible (sorted : UserSorted pairs)
    (above : ∀ user ∈ last, ∀ pair ∈ pairs, user ≤ userKey pair.1)
    (mem : pair ∈ visible maxSeq last pairs) :
    ∃ before behind, pairs = before ++ pair :: behind ∧
      ∀ other ∈ before, userKey other.1 = userKey pair.1 → maxSeq < seqNum other.1 := by
  induction pairs generalizing last with
  | nil => cases mem
  | cons first rest ih =>
    have restAbove : ∀ user ∈ last, ∀ other ∈ rest, user ≤ userKey other.1 :=
      fun user isLast other mem => above user isLast other (mem_cons_of_mem _ mem)
    have further : ∀ {last' : Option Bytes}, pair ∈ visible maxSeq last' rest →
        (∀ user ∈ last', ∀ other ∈ rest, user ≤ userKey other.1) →
        (userKey first.1 = userKey pair.1 → maxSeq < seqNum first.1) →
        ∃ before behind, first :: rest = before ++ pair :: behind ∧
          ∀ other ∈ before, userKey other.1 = userKey pair.1 → maxSeq < seqNum other.1 := by
      intro last' inRest restAbove' firstHidden
      rcases ih sorted.of_cons restAbove' inRest with ⟨before, behind, rfl, hidden⟩
      exact ⟨first :: before, behind, rfl, forall_mem_cons.mpr ⟨firstHidden, hidden⟩⟩
    rw [visible] at mem
    split at mem
    · rename_i hidden
      exact further mem restAbove fun _ => hidden
    split at mem
    · rename_i isLast
      apply further mem restAbove
      intro same
      have less := (visible_ascending sorted.of_cons restAbove).2 _ isLast pair mem
      exact absurd same less.ne
    rcases mem_cons.mp mem with rfl | inRest
    · exact ⟨[], rest, rfl, fun _ mem => nomatch mem⟩
    rw [sorted.remember_eq] at inRest
    have firstAbove : ∀ user ∈ some (userKey first.1), ∀ other ∈ rest,
        user ≤ userKey other.1 := by
      rintro user ⟨⟩
      exact (pairwise_cons.mp sorted.ordered).1
    apply further inRest firstAbove
    intro same
    have less := (visible_ascending sorted.of_cons firstAbove).2 _ rfl pair inRest
    exact absurd same less.ne

/-- Every user key with a pair within the bound is shown. -/
theorem exists_visible (sorted : UserSorted pairs) (mem : pair ∈ pairs)
    (shown : seqNum pair.1 ≤ maxSeq) (isNew : last ≠ some (userKey pair.1)) :
    ∃ other ∈ visible maxSeq last pairs, userKey other.1 = userKey pair.1 := by
  induction pairs generalizing last with
  | nil => cases mem
  | cons first rest ih =>
    rw [visible]
    split
    · rename_i hidden
      rcases mem_cons.mp mem with rfl | inRest
      · exact absurd hidden (not_lt.mpr shown)
      · exact ih sorted.of_cons inRest isNew
    split
    · rename_i isLast
      rcases mem_cons.mp mem with rfl | inRest
      · exact absurd isLast isNew
      · exact ih sorted.of_cons inRest isNew
    by_cases same : userKey first.1 = userKey pair.1
    · exact ⟨first, mem_cons_self, same⟩
    rcases mem_cons.mp mem with rfl | inRest
    · exact absurd rfl same
    rw [sorted.remember_eq]
    rcases ih sorted.of_cons inRest (fun isFirst => same (Option.some.inj isFirst)) with
      ⟨other, otherMem, sameUser⟩
    exact ⟨other, mem_cons_of_mem _ otherMem, sameUser⟩

/-- Leaving user keys out commutes with the selection of the visible pairs, which
may start with different keys as last ones as long as they hide the same pairs. -/
theorem filter_visible (keep : Bytes → Bool) {last' : Option Bytes} (sorted : UserSorted pairs)
    (above : ∀ user ∈ last, ∀ pair ∈ pairs, user ≤ userKey pair.1)
    (agree : ∀ pair ∈ pairs, keep (userKey pair.1) = true →
      (last = some (userKey pair.1) ↔ last' = some (userKey pair.1))) :
    (visible maxSeq last pairs).filter (fun pair => keep (userKey pair.1)) =
      visible maxSeq last' (pairs.filter fun pair => keep (userKey pair.1)) := by
  induction pairs generalizing last last' with
  | nil => rfl
  | cons pair rest ih =>
    rcases forall_mem_cons.mp agree with ⟨agreePair, agreeRest⟩
    have restAbove : ∀ user ∈ last, ∀ other ∈ rest, user ≤ userKey other.1 :=
      fun user isLast other mem => above user isLast other (mem_cons_of_mem _ mem)
    have pairLe := (pairwise_cons.mp sorted.ordered).1
    have pairAbove : ∀ user ∈ some (userKey pair.1), ∀ other ∈ rest, user ≤ userKey other.1 := by
      rintro user ⟨⟩
      exact pairLe
    by_cases kept : keep (userKey pair.1) = true
    · rw [filter_cons, if_pos kept, visible, visible]
      split
      · exact ih sorted.of_cons restAbove agreeRest
      by_cases isLast : last = some (userKey pair.1)
      · rw [if_pos isLast, if_pos ((agreePair kept).mp isLast)]
        exact ih sorted.of_cons restAbove agreeRest
      rw [if_neg isLast, if_neg (mt (agreePair kept).mpr isLast),
        filter_cons, if_pos kept, sorted.remember_eq, sorted.remember_eq,
        ih sorted.of_cons pairAbove fun _ _ _ => Iff.rfl]
    rw [filter_cons, if_neg kept, visible]
    split
    · exact ih sorted.of_cons restAbove agreeRest
    split
    · exact ih sorted.of_cons restAbove agreeRest
    rw [filter_cons, if_neg kept, sorted.remember_eq]
    apply ih sorted.of_cons pairAbove
    intro other otherMem otherKept
    -- a kept key behind this one is not the last one on either side
    have different : userKey pair.1 ≠ userKey other.1 := fun same => kept (same ▸ otherKept)
    rw [← agreeRest other otherMem otherKept]
    apply iff_of_false (fun same => different (Option.some.inj same))
    intro isLast
    have back := above _ isLast pair mem_cons_self
    exact different (le_antisymm (pairLe other otherMem) back)

end

end Theseon.Iterator
