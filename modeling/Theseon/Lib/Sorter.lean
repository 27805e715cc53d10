import Mathlib.Data.List.Sort

/-!
# Unspecified orders

Iteration over a hash map visits its elements in an order that is not specified,
and an unstable sort leaves equal elements in an order that is not specified.
Both are functions of which only the permutation, and for a sort the order of
the keys, is known.
-/

namespace Theseon.Lib

open List

universe u v

/-- Some arrangement of the elements of a list. -/
structure Arrangement (α : Type u) where
  arrange : List α → List α
  perm : ∀ items, (arrange items).Perm items

/-- The arrangement that changes nothing. -/
def Arrangement.identity (α : Type u) : Arrangement α where
  arrange := id
  perm := List.Perm.refl

theorem Arrangement.mem_arrange {α : Type u} (a : Arrangement α) {items : List α} {item : α} :
    item ∈ a.arrange items ↔ item ∈ items :=
  (a.perm items).mem_iff

/-- A sort by a key that may leave elements of equal keys in any order. -/
structure Sorter {α : Type u} {β : Type v} [LinearOrder β] (key : α → β) where
  sort : List α → List α
  perm : ∀ items, (sort items).Perm items
  sorted : ∀ items, (sort items).Pairwise fun first second => key first ≤ key second

section

variable {α : Type u} {β : Type v} [LinearOrder β] {key : α → β}

theorem Sorter.mem_sort (s : Sorter key) {items : List α} {item : α} :
    item ∈ s.sort items ↔ item ∈ items :=
  (s.perm items).mem_iff

/-- What is left out of the first elements is not before them. -/
theorem Sorter.key_le_of_take (s : Sorter key) {items : List α} {k : Nat} {item other : α}
    (mem : item ∈ (s.sort items).take k) (isOther : other ∈ items)
    (left : other ∉ (s.sort items).take k) : key item ≤ key other := by
  have sorted := s.sorted items
  rw [← take_append_drop k (s.sort items), pairwise_append] at sorted
  have isSorted := s.mem_sort.mpr isOther
  rw [← take_append_drop k (s.sort items)] at isSorted
  rcases mem_append.mp isSorted with first | rest
  · exact absurd first left
  · exact sorted.2.2 item mem other rest

/-- Insertion sort is one of the possible sorts. -/
def Sorter.insertion (key : α → β) : Sorter key where
  sort := List.insertionSort fun first second => key first ≤ key second
  perm := perm_insertionSort _
  sorted := by
    have total : Std.Total fun first second : α => key first ≤ key second :=
      ⟨fun first second => le_total (key first) (key second)⟩
    have trans : IsTrans α fun first second => key first ≤ key second :=
      ⟨fun _ _ _ => le_trans⟩
    exact pairwise_insertionSort _

end

end Theseon.Lib
