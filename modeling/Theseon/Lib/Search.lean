import Mathlib.Data.List.Basic
import Mathlib.Data.List.TakeWhile
import Mathlib.Data.List.Pairwise

/-!
# Searching ordered lists

A predicate is downward closed along a list when it holds of every entry before
an entry of which it holds.  Then its front segment is also its filter, and
binary search finds the length of that front.
-/

namespace Theseon.Lib

open List

universe u

variable {α : Type u}

/-- Once `p` fails it fails for the rest of the list. -/
def Downward (p : α → Bool) (xs : List α) : Prop :=
  xs.Pairwise fun x y => p y → p x

namespace Downward

variable {p : α → Bool} {xs : List α}

theorem takeWhile_eq_filter (down : Downward p xs) : xs.takeWhile p = xs.filter p := by
  induction xs with
  | nil => rfl
  | cons x xs ih =>
    obtain ⟨headDown, tailDown⟩ := pairwise_cons.mp down
    by_cases test : p x
    · simp [test, ih tailDown]
    have none : xs.filter p = [] := by
      rw [filter_eq_nil_iff]
      intro y yMem yTest
      exact test (headDown y yMem yTest)
    simp [test, none]

theorem dropWhile_eq_filter_not (down : Downward p xs) :
    xs.dropWhile p = xs.filter fun x => !p x := by
  induction xs with
  | nil => rfl
  | cons x xs ih =>
    obtain ⟨headDown, tailDown⟩ := pairwise_cons.mp down
    by_cases test : p x
    · simp [test, ih tailDown]
    have all : (xs.filter fun x => !p x) = xs := by
      rw [filter_eq_self]
      intro y yMem
      by_contra yTest
      exact test (headDown y yMem (by simpa using yTest))
    simp [test, all]

theorem filter (down : Downward p xs) (q : α → Bool) : Downward p (xs.filter q) :=
  List.Pairwise.filter q down

theorem takeWhile_filter (down : Downward p xs) (q : α → Bool) :
    (xs.filter q).takeWhile p = (xs.takeWhile p).filter q := by
  rw [(down.filter q).takeWhile_eq_filter, down.takeWhile_eq_filter, filter_filter,
    filter_filter]
  simp only [Bool.and_comm]

theorem dropWhile_filter (down : Downward p xs) (q : α → Bool) :
    (xs.filter q).dropWhile p = (xs.dropWhile p).filter q := by
  rw [(down.filter q).dropWhile_eq_filter_not, down.dropWhile_eq_filter_not, filter_filter,
    filter_filter]
  simp only [Bool.and_comm]

end Downward

/-- A list splits where a test first fails. -/
theorem exists_takeWhile_split (p : α → Bool) (xs : List α) :
    ∃ behind, xs = xs.takeWhile p ++ behind ∧ (∀ x ∈ xs.takeWhile p, p x = true) ∧
      ∀ x rest, behind = x :: rest → p x = false := by
  refine ⟨xs.dropWhile p, takeWhile_append_dropWhile.symm,
    fun x mem => mem_takeWhile_imp mem, ?_⟩
  intro x rest isCons
  have stopped := head?_dropWhile_not p xs
  rwa [isCons] at stopped

theorem getLastD_append (front back : List α) (x : α) :
    (front ++ back).getLastD x = back.getLastD (front.getLastD x) := by
  induction front generalizing x with
  | nil => rfl
  | cons y front ih => simp only [cons_append, getLastD_cons, ih]

/-! ## Binary search -/

/-- The loop `for low < high` of a binary search.  `mid` picks the probe and
`test` says whether the sought position lies behind it. -/
def bisect {ε : Type u} (mid : Nat → Nat → Nat) (test : Nat → Except ε Bool) :
    Nat → Nat → Nat → Except ε Nat
  | 0, low, _ => .ok low
  | fuel + 1, low, high =>
    if low < high then
      match test (mid low high) with
      | .error err => .error err
      | .ok true => bisect mid test fuel (mid low high + 1) high
      | .ok false => bisect mid test fuel low (mid low high)
    else .ok low

/-- The search finds the position where the test turns false. -/
theorem bisect_eq {ε : Type u} {mid : Nat → Nat → Nat}
    (midRange : ∀ low high, low < high → low ≤ mid low high ∧ mid low high < high)
    {test : Nat → Except ε Bool} {k : Nat} {fuel low high : Nat}
    (tested : ∀ i < high, test i = .ok (decide (i < k))) (lowLe : low ≤ k) (leHigh : k ≤ high)
    (enough : high - low ≤ fuel) : bisect mid test fuel low high = .ok k := by
  induction fuel generalizing low high with
  | zero =>
    rw [bisect, show low = k by omega]
  | succ fuel ih =>
    rw [bisect]
    split
    · rename_i open_
      obtain ⟨midLow, midHigh⟩ := midRange low high open_
      rw [tested _ midHigh]
      by_cases behind : mid low high < k
      · simp only [behind, decide_true]
        exact ih tested behind leHigh (by omega)
      · simp only [behind, decide_false]
        exact ih (fun i iLt => tested i (iLt.trans midHigh)) lowLe (not_lt.mp behind) (by omega)
    · rw [show low = k by omega]

/-- Along a list a downward closed test holds exactly in front of the position
where its front ends. -/
theorem Downward.test_eq {p : α → Bool} {xs : List α} (down : Downward p xs) {i : Nat}
    (inRange : i < xs.length) : p xs[i] = decide (i < (xs.takeWhile p).length) := by
  induction xs generalizing i with
  | nil => simp at inRange
  | cons x xs ih =>
    obtain ⟨headDown, tailDown⟩ := pairwise_cons.mp down
    by_cases test : p x
    · cases i with
      | zero => simp [test]
      | succ i => simpa [test] using ih tailDown (by simpa using inRange)
    have fails : ¬ p (x :: xs)[i] := by
      cases i with
      | zero => simpa using test
      | succ i => exact fun holds => test (headDown _ (getElem_mem _) holds)
    simp [test, fails]

theorem length_takeWhile_le (p : α → Bool) (xs : List α) : (xs.takeWhile p).length ≤ xs.length :=
  ( takeWhile_prefix p).length_le

theorem drop_length_takeWhile (p : α → Bool) (xs : List α) :
    xs.drop (xs.takeWhile p).length = xs.dropWhile p := by
  have whole := takeWhile_append_dropWhile (p := p) (l := xs)
  calc
    xs.drop (xs.takeWhile p).length =
        (xs.takeWhile p ++ xs.dropWhile p).drop (xs.takeWhile p).length := by rw [whole]
    _ = xs.dropWhile p := drop_left

end Theseon.Lib
