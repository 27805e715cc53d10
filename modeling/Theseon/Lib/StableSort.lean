import Theseon.Lib.Sorter

/-!
# Stable sorting

Sorting by a key that leaves elements of equal keys in the order in which they
came.
-/

namespace Theseon.Lib

open List

universe u v

variable {α : Type u} {β : Type v} [LinearOrder β] {key : α → β}

def sortByKey (key : α → β) (items : List α) : List α :=
  (Sorter.insertion key).sort items

theorem sortByKey_perm (items : List α) : (sortByKey key items).Perm items :=
  (Sorter.insertion key).perm items

variable {item : α} {p : α → Bool}

theorem mem_sortByKey {items : List α} : item ∈ sortByKey key items ↔ item ∈ items :=
  (Sorter.insertion key).mem_sort

theorem sortByKey_sorted (items : List α) :
    (sortByKey key items).Pairwise fun first second => key first ≤ key second :=
  (Sorter.insertion key).sorted items

theorem sortByKey_cons (item : α) (items : List α) :
    sortByKey key (item :: items) =
      (sortByKey key items).orderedInsert (fun first second => key first ≤ key second) item :=
  rfl

/-- An element comes first if its key is the smallest one and no element before
it has the same key. -/
theorem sortByKey_front {before behind : List α} (above : ∀ other ∈ before, key item < key other)
    (least : ∀ other ∈ behind, key item ≤ key other) :
    sortByKey key (before ++ item :: behind) = item :: sortByKey key (before ++ behind) := by
  induction before with
  | nil =>
    rw [nil_append, nil_append, sortByKey_cons]
    cases sorted : sortByKey key behind with
    | nil => rfl
    | cons first rest =>
      have firstMem : first ∈ behind := by
        have inSorted : first ∈ sortByKey key behind := by
          rw [sorted]
          exact mem_cons_self
        exact mem_sortByKey.mp inSorted
      exact orderedInsert_cons_of_le _ _ (least first firstMem)
  | cons other rest ih =>
    rw [forall_mem_cons] at above
    rw [cons_append, sortByKey_cons, ih above.2, orderedInsert_cons,
      if_neg (not_le.mpr above.1)]
    rfl

/-- Elements of one key keep their order. -/
theorem filter_sortByKey
    (same : ∀ first second, p first = true → p second = true → key first ≤ key second)
    (items : List α) : (sortByKey key items).filter p = items.filter p := by
  induction items with
  | nil => rfl
  | cons item rest ih =>
    rw [sortByKey_cons, filter_cons, ← ih]
    generalize sortByKey key rest = sorted
    induction sorted with
    | nil => rw [orderedInsert_nil, filter_cons]
    | cons first others inner =>
      rw [orderedInsert_cons]
      split
      · rw [filter_cons]
      rename_i greater
      rw [filter_cons, inner, filter_cons]
      -- an element passed over has another key than the inserted one
      by_cases itemIn : p item = true
      · have firstOut : p first = false := by
          by_contra firstIn
          exact greater (same item first itemIn (Bool.not_eq_false _ ▸ firstIn))
        simp [itemIn, firstOut]
      · simp [itemIn]

/-- Leaving elements out of a sorted list commutes with an insertion into it. -/
theorem filter_orderedInsert (kept : p item = true) {others : List α}
    (sorted : others.Pairwise fun first second => key first ≤ key second) :
    (others.orderedInsert (fun first second => key first ≤ key second) item).filter p =
      (others.filter p).orderedInsert (fun first second => key first ≤ key second) item := by
  induction others with
  | nil => simp [kept]
  | cons first others ih =>
    rcases pairwise_cons.mp sorted with ⟨least, othersSorted⟩
    rw [orderedInsert_cons]
    split
    · rename_i inFront
      rw [filter_cons_of_pos kept]
      cases left : (first :: others).filter p with
      | nil => rfl
      | cons next _ =>
        symm
        apply orderedInsert_cons_of_le
        have nextMem : next ∈ first :: others :=
          (mem_filter.mp (left ▸ mem_cons_self)).1
        rcases mem_cons.mp nextMem with rfl | later
        · exact inFront
        · exact inFront.trans (least next later)
    rename_i behind
    rw [filter_cons, filter_cons]
    split
    · rw [orderedInsert_cons, if_neg behind, ih othersSorted]
    · exact ih othersSorted

theorem filter_orderedInsert_of_neg (left : ¬ p item = true) (others : List α) :
    (others.orderedInsert (fun first second => key first ≤ key second) item).filter p =
      others.filter p := by
  induction others with
  | nil => simp [left]
  | cons first others ih =>
    rw [orderedInsert_cons]
    split
    · rw [filter_cons_of_neg left]
    · rw [filter_cons, filter_cons, ih]

/-- Sorting commutes with leaving elements out. -/
theorem sortByKey_filter (p : α → Bool) (items : List α) :
    sortByKey key (items.filter p) = (sortByKey key items).filter p := by
  induction items with
  | nil => rfl
  | cons item rest ih =>
    rw [sortByKey_cons]
    by_cases kept : p item = true
    · rw [filter_cons_of_pos kept, sortByKey_cons, ih,
        filter_orderedInsert kept (sortByKey_sorted rest)]
    · rw [filter_cons_of_neg kept, ih, filter_orderedInsert_of_neg kept]

end Theseon.Lib
