import Mathlib.Data.List.Perm.Basic

/-!
# Binary heaps in arrays

The children of place `i` are the places `2 * i + 1` and `2 * i + 2`.  An element that
is pushed moves up from the last place, and the last element moves down from the first
place when the first is popped.  Whatever the comparison is, a heap keeps its elements:
pushing adds one, and popping takes one away.

The bound of the loops is the number of places, which is more than the depth.
-/

namespace Theseon.Lib.BinaryHeap

universe u

variable {α : Type u} (less : α → α → Bool)

/-- Compare the elements at two places. -/
def lessAt (items : Array α) (i j : Nat) : Bool :=
  match items[i]?, items[j]? with
  | some first, some second => less first second
  | _, _ => false

/-- Move the element at place `i` up, as long as it is less than its parent. -/
def up : (bound : Nat) → Array α → Nat → Array α
  | 0, items, _ => items
  | bound + 1, items, i =>
    if i = (i - 1) / 2 ∨ lessAt less items i ((i - 1) / 2) = false then items
    else up bound (items.swapIfInBounds i ((i - 1) / 2)) ((i - 1) / 2)

/-- The lesser child of place `i` among the first `n` places, when the left one is there. -/
def lesserChild (items : Array α) (n i : Nat) : Nat :=
  if 2 * i + 2 < n ∧ lessAt less items (2 * i + 2) (2 * i + 1) = true then 2 * i + 2
  else 2 * i + 1

/-- Move the element at place `i` down, as long as a child is less. -/
def down (n : Nat) : (bound : Nat) → Array α → Nat → Array α
  | 0, items, _ => items
  | bound + 1, items, i =>
    if n ≤ 2 * i + 1 then items
    else if lessAt less items (lesserChild less items n i) i = false then items
    else
      down n bound (items.swapIfInBounds i (lesserChild less items n i))
        (lesserChild less items n i)

def push (items : Array α) (item : α) : Array α :=
  up less (items.size + 1) (items.push item) items.size

/-- The first element and the heap without it, if there is one. -/
def pop (items : Array α) : Option (α × Array α) :=
  let moved := down less (items.size - 1) items.size (items.swapIfInBounds 0 (items.size - 1)) 0
  moved.back?.map fun item => (item, moved.pop)

/-! ## The elements are kept -/

variable {less}

theorem swap_perm (items : Array α) (i j : Nat) :
    (items.swapIfInBounds i j).toList.Perm items.toList := by
  rw [Array.swapIfInBounds_def]
  split
  · split
    · exact (Array.swap_perm _ _).toList
    · exact List.Perm.refl _
  · exact List.Perm.refl _

theorem up_perm (bound : Nat) (items : Array α) (i : Nat) :
    (up less bound items i).toList.Perm items.toList := by
  induction bound generalizing items i with
  | zero => exact List.Perm.refl _
  | succ bound ih =>
    rw [up]
    split
    · exact List.Perm.refl _
    · exact (ih _ _).trans (swap_perm _ _ _)

theorem down_perm (n bound : Nat) (items : Array α) (i : Nat) :
    (down less n bound items i).toList.Perm items.toList := by
  induction bound generalizing items i with
  | zero => exact List.Perm.refl _
  | succ bound ih =>
    rw [down]
    split
    · exact List.Perm.refl _
    split
    · exact List.Perm.refl _
    · exact (ih _ _).trans (swap_perm _ _ _)

theorem push_perm (items : Array α) (item : α) :
    (push less items item).toList.Perm (item :: items.toList) := by
  apply (up_perm _ _ _).trans
  rw [Array.toList_push]
  exact List.perm_append_singleton item items.toList

variable {items : Array α} {item : α}

theorem mem_push {other : α} :
    other ∈ (push less items item).toList ↔ other = item ∨ other ∈ items.toList := by
  rw [(push_perm items item).mem_iff, List.mem_cons]

theorem length_push (items : Array α) (item : α) :
    (push less items item).toList.length = items.toList.length + 1 :=
  (push_perm items item).length_eq

/-- The last element of a list in front of the others. -/
theorem back_cons_pop_perm (last : items.back? = some item) :
    (item :: items.pop.toList).Perm items.toList := by
  have isLast : items.toList.getLast? = some item := by
    rw [Array.getLast?_toList]
    exact last
  rw [Array.toList_pop]
  apply (List.perm_append_singleton item _).symm.trans
  rw [List.dropLast_append_getLast? item isLast]

theorem pop_perm {rest : Array α} (popped : pop less items = some (item, rest)) :
    (item :: rest.toList).Perm items.toList := by
  rcases Option.map_eq_some_iff.mp popped with ⟨last, isLast, same⟩
  cases same
  exact (back_cons_pop_perm isLast).trans ((down_perm _ _ _ _).trans (swap_perm _ _ _))

/-- Nothing is popped only from an empty heap. -/
theorem pop_eq_none_iff : pop less items = none ↔ items.toList = [] := by
  have same := ((down_perm (items.size - 1) items.size (items.swapIfInBounds 0 (items.size - 1)) 0
    : (down less _ _ _ _).toList.Perm _).trans (swap_perm _ _ _)).length_eq
  rw [pop, Option.map_eq_none_iff, Array.back?_eq_none_iff, ← List.length_eq_zero_iff, ← same,
    List.length_eq_zero_iff]
  exact Array.toList_eq_nil_iff.symm

end Theseon.Lib.BinaryHeap
