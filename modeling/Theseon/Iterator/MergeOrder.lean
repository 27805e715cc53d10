import Theseon.Iterator.MergeCorrectness
import Theseon.Lib.StableSort

/-!
# The order of a merge

Over children that end without an error and yield their keys in order, the merge
iterator yields the stable sort of everything that the children yield: among
equal keys the child with the lower index comes first.
-/

namespace Theseon.Iterator

open Lib List
open Iter

universe u v

variable {σ : Type u} {ε : Type v} [Iter σ ε]

/-- The pairs in the order of their keys. -/
abbrev KeySorted (pairs : List (Bytes × Option Bytes)) : Prop :=
  pairs.Pairwise fun first second => first.1 ≤ second.1

/-- The merge of what the children yield. -/
def mergePairs (outs : List (List (Bytes × Option Bytes))) : List (Bytes × Option Bytes) :=
  sortByKey Prod.fst outs.flatten

theorem mem_mergePairs {outs : List (List (Bytes × Option Bytes))} {pair : Bytes × Option Bytes} :
    pair ∈ mergePairs outs ↔ ∃ out ∈ outs, pair ∈ out := by
  rw [mergePairs, mem_sortByKey, mem_flatten]

theorem mergePairs_sorted (outs : List (List (Bytes × Option Bytes))) :
    KeySorted (mergePairs outs) :=
  sortByKey_sorted _

/-- Leaving pairs out of the children or out of the merge gives the same. -/
theorem filter_mergePairs (p : Bytes × Option Bytes → Bool)
    (outs : List (List (Bytes × Option Bytes))) :
    (mergePairs outs).filter p = mergePairs (outs.map (List.filter p)) := by
  rw [mergePairs, mergePairs, ← sortByKey_filter, filter_flatten]

namespace MergeIterator

variable {failedAtStart : Nat → Prop} {fins : Nat → Option ε}
  {outs : Nat → List (Bytes × Option Bytes)} {m : MergeIterator σ ε}

/-- Everything that the first `n` children have left, child by child. -/
def left (outs : Nat → List (Bytes × Option Bytes)) (n : Nat) : List (Bytes × Option Bytes) :=
  (List.range n).flatMap outs

variable {n i : Nat} {pair : Bytes × Option Bytes}

theorem mem_left : pair ∈ left outs n ↔ ∃ i < n, pair ∈ outs i := by
  simp [left]

theorem left_split (inRange : i < n) :
    left outs n =
      left outs i ++ (outs i ++ (List.range' (i + 1) (n - i - 1)).flatMap outs) := by
  have whole : List.range n = List.range i ++ i :: List.range' (i + 1) (n - i - 1) := by
    have joined := @range'_append_1 0 i (n - i - 1 + 1)
    rw [Nat.zero_add] at joined
    rw [range_eq_range', range_eq_range', ← range'_succ, joined]
    congr 1
    omega
  rw [left, whole, flatMap_append, flatMap_cons]
  rfl

theorem flatMap_update_of_notMem {indices : List Nat} (absent : i ∉ indices)
    (tail : List (Bytes × Option Bytes)) :
    indices.flatMap (Function.update outs i tail) = indices.flatMap outs := by
  apply flatMap_congr
  intro j jMem
  rw [Function.update_of_ne]
  rintro rfl
  exact absent jMem

theorem left_update (inRange : i < n) (tail : List (Bytes × Option Bytes)) :
    left (Function.update outs i tail) n =
      left outs i ++ (tail ++ (List.range' (i + 1) (n - i - 1)).flatMap outs) := by
  rw [left_split inRange, left, flatMap_update_of_notMem (by simp),
    flatMap_update_of_notMem (by simp), Function.update_self]
  rfl

/-- Children without an item have nothing left. -/
def Exhausted (outs : Nat → List (Bytes × Option Bytes)) (m : MergeIterator σ ε) : Prop :=
  ∀ i < m.iters.length, (∀ item ∈ m.items, item.idx ≠ i) → outs i = []

section

variable (running : Running failedAtStart fins outs m) (exhausted : Exhausted outs m)

include running exhausted

/-- The current pair is the front of the stable sort of everything left. -/
theorem Running.sort_front (sorted : ∀ i, KeySorted (outs i)) {item : HeapItem}
    (current : m.cur = some item) {tail : List (Bytes × Option Bytes)}
    (front : outs item.idx = pair :: tail) (isKey : pair.1 = item.key)
    (inRange : item.idx < m.iters.length) :
    sortByKey Prod.fst (left outs m.iters.length) =
      pair :: sortByKey Prod.fst (left (Function.update outs item.idx tail) m.iters.length) := by
  have itemsEq : m.items = item :: m.heap := by simp [items, current]
  have first : ∀ other ∈ m.heap, item.Le other :=
    (pairwise_cons.mp (itemsEq ▸ running.sorted)).1
  -- what another child has left does not lie below its item
  have above : ∀ i < m.iters.length, i ≠ item.idx → ∀ other ∈ outs i,
      ∃ waiting ∈ m.heap, waiting.idx = i ∧ waiting.key ≤ other.1 := by
    intro i iInRange different other otherMem
    by_contra none
    have idle : ∀ waiting ∈ m.items, waiting.idx ≠ i := by
      rw [itemsEq]
      intro waiting waitingMem same
      rcases mem_cons.mp waitingMem with rfl | inHeap
      · exact different same.symm
      apply none
      refine ⟨waiting, inHeap, same, ?_⟩
      rcases running.standing waiting (itemsEq ▸ mem_cons_of_mem _ inHeap) with
        ⟨it, _, valid, keyEq, drains⟩
      rcases drains.of_valid valid with ⟨rest, outsEq, _⟩
      rw [same] at outsEq
      have ordered := sorted i
      rw [outsEq] at ordered otherMem
      rw [← keyEq]
      rcases mem_cons.mp otherMem with rfl | later
      · exact le_refl _
      · exact (pairwise_cons.mp ordered).1 other later
    rw [exhausted i iInRange idle] at otherMem
    cases otherMem
  have tailAbove : ∀ other ∈ tail, pair.1 ≤ other.1 := by
    have ordered := sorted item.idx
    rw [front] at ordered
    exact (pairwise_cons.mp ordered).1
  rw [left_split inRange, left_update inRange, front]
  refine sortByKey_front ?_ ?_
  · intro other otherMem
    rcases mem_left.mp otherMem with ⟨i, below, inOut⟩
    rcases above i (by omega) (by omega) other inOut with ⟨waiting, waitingMem, rfl, keyLe⟩
    rw [isKey]
    apply lt_of_lt_of_le _ keyLe
    -- an equal key of a lower index would have come first
    have notLess := first waiting waitingMem
    rw [HeapItem.Le, HeapItem.Less, not_or] at notLess
    apply lt_of_le_of_ne (not_lt.mp notLess.1)
    intro same
    exact notLess.2 ⟨same.symm, below⟩
  intro other otherMem
  rcases mem_append.mp otherMem with inTail | later
  · exact tailAbove other inTail
  rcases mem_flatMap.mp later with ⟨i, iMem, inOut⟩
  rw [mem_range'_1] at iMem
  rcases above i (by omega) (by omega) other inOut with ⟨waiting, waitingMem, _, keyLe⟩
  rw [isKey]
  exact (first waiting waitingMem).key_le.trans keyLe

/-- A step leaves nothing behind at a child it drops. -/
theorem Running.step_exhausted {item : HeapItem} (current : m.cur = some item)
    {tail : List (Bytes × Option Bytes)} (front : outs item.idx = pair :: tail)
    (fine : fins item.idx = none) : Exhausted (Function.update outs item.idx tail) m.step := by
  have itemsEq : m.items = item :: m.heap := by simp [items, current]
  rcases running.standing item (by simp [itemsEq]) with ⟨it, found, valid, _, drains⟩
  rcases drains.of_valid valid with ⟨rest, outsEq, restDrains⟩
  obtain rfl : tail = rest := (cons.inj (front.symm.trans outsEq)).2
  have noError : Iter.err (next it) = none := by
    by_contra failed
    have ended := (restDrains.of_invalid (invalid_of_err _ failed)).2
    exact failed (ended.symm.trans fine)
  have perm := step_items_perm running.noError current found noError
  intro i inRange idle
  rw [length_step] at inRange
  by_cases same : i = item.idx
  · subst same
    rw [Function.update_self]
    have invalid : isValid (next it) = false := by
      by_contra stillValid
      apply idle ⟨key (next it), item.idx⟩ _ rfl
      apply perm.symm.subset
      simp [freshItem, Bool.not_eq_false _ ▸ stillValid]
    exact (restDrains.of_invalid invalid).1
  rw [Function.update_of_ne same]
  apply exhausted i inRange
  intro other otherMem
  rw [itemsEq] at otherMem
  rcases mem_cons.mp otherMem with rfl | inHeap
  · exact Ne.symm same
  · exact idle other (perm.symm.subset (mem_append_right _ inHeap))

/-- A merge under way over children without errors yields the stable sort of
everything that is left. -/
theorem Running.drains_sorted (sorted : ∀ i, KeySorted (outs i))
    (fine : ∀ i < m.iters.length, fins i = none) :
    Drains m (sortByKey Prod.fst (left outs m.iters.length)) none := by
  generalize size : (left outs m.iters.length).length = n
  induction n generalizing m outs with
  | zero =>
    have empty := eq_nil_of_length_eq_zero size
    cases current : m.cur with
    | none =>
      rw [empty]
      exact (running.drains_of_idle current).2.1
    | some item =>
      rcases running.step current with ⟨tail, outsEq, _⟩
      rcases running.standing item (by simp [items, current]) with ⟨it, found, _⟩
      have inRange := (List.getElem?_eq_some_iff.mp found).1
      have mem : (Iter.key m, Iter.value m) ∈ left outs m.iters.length := by
        rw [mem_left]
        exact ⟨item.idx, inRange, by rw [outsEq]; exact mem_cons_self⟩
      rw [empty] at mem
      cases mem
  | succ n ih =>
    cases current : m.cur with
    | none =>
      have idle := (running.drains_of_idle current).1
      have empty : left outs m.iters.length = [] := by
        rw [eq_nil_iff_forall_not_mem]
        intro pair pairMem
        rcases mem_left.mp pairMem with ⟨i, inRange, inOut⟩
        rw [exhausted i inRange (by simp [idle])] at inOut
        cases inOut
      rw [empty] at size
      cases size
    | some item =>
      rcases running.standing item (by simp [items, current]) with ⟨it, found, _⟩
      have inRange := (List.getElem?_eq_some_iff.mp found).1
      rcases running.step current with
        ⟨tail, outsEq, isKey, ⟨running', _⟩ | ⟨e, failed, _⟩⟩
      · have front := running.sort_front exhausted sorted current outsEq isKey inRange
        have size' := congrArg List.length front
        rw [(sortByKey_perm _).length_eq, size, length_cons,
          (sortByKey_perm _).length_eq, Nat.succ_inj] at size'
        rw [front]
        apply Drains.step (running.valid_of_current current)
        have rest := ih running' (running.step_exhausted exhausted current outsEq
          (fine _ inRange)) ?_ ?_ ?_
        · rw [length_step] at rest
          exact rest
        · intro i
          by_cases same : i = item.idx
          · subst same
            rw [Function.update_self]
            have ordered := sorted item.idx
            rw [outsEq] at ordered
            exact (pairwise_cons.mp ordered).2
          · rw [Function.update_of_ne same]
            exact sorted i
        · rw [length_step]
          exact fine
        · rw [length_step]
          exact size'.symm
      · rw [fine _ inRange] at failed
        cases failed

end

/-- The merge iterator over children that end without an error. -/
theorem new_drains_mergePairs {start : List σ} {outs : List (List (Bytes × Option Bytes))}
    (drains : List.Forall₂ (fun it out => Drains it out (none : Option ε)) start outs)
    (sorted : ∀ out ∈ outs, KeySorted out) :
    Drains (new start : MergeIterator σ ε) (mergePairs outs) none := by
  have length := drains.length_eq
  have each : ∀ (i : Nat) (it : σ), start[i]? = some it →
      Drains it ((outs[i]?).elim [] id) (none : Option ε) := by
    intro i it found
    clear sorted length
    induction drains generalizing i with
    | nil => cases found
    | cons first _ ih =>
      cases i with
      | zero =>
        cases found
        exact first
      | succ i => exact ih i found
  have running := @new_running σ ε _ (fun _ => none) (fun i => (outs[i]?).elim [] id) start each
  have exhausted : Exhausted (fun i => (outs[i]?).elim [] id) (new start : MergeIterator σ ε) := by
    intro i inRange idle
    have present := List.getElem?_eq_some_iff.mpr ⟨inRange, rfl⟩
    generalize (new start : MergeIterator σ ε).iters[i] = it at present
    have invalid := (running.idle i it present idle).1
    rw [new_iters] at present
    exact ((each i it present).of_invalid invalid).1
  have ordered : ∀ i : Nat, KeySorted ((outs[i]?).elim [] id) := by
    intro i
    cases found : outs[i]? with
    | none => exact List.Pairwise.nil
    | some out => exact sorted out (mem_of_getElem? found)
  have drained := running.drains_sorted exhausted ordered fun _ _ => rfl
  rw [new_iters, length, left, flatMap_range_getElem?, flatMap_id] at drained
  exact drained

end MergeIterator

end Theseon.Iterator
