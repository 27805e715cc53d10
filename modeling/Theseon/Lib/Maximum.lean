import Mathlib.Order.MinMax

/-!
# Running maxima

The maximum that a loop has seen, starting from a given value.
-/

namespace Theseon.Lib

universe u

variable {α : Type u} [LinearOrder α]

/-- A running maximum is bounded by what bounds its start and all values. -/
theorem foldl_max_le_iff {values : List α} {start bound : α} :
    values.foldl max start ≤ bound ↔ start ≤ bound ∧ ∀ value ∈ values, value ≤ bound := by
  induction values generalizing start with
  | nil => simp
  | cons value rest ih => rw [List.foldl_cons, ih, max_le_iff, List.forall_mem_cons, and_assoc]

theorem start_le_foldl_max (values : List α) (start : α) : start ≤ values.foldl max start :=
  (foldl_max_le_iff.mp le_rfl).1

theorem le_foldl_max {values : List α} {value : α} (mem : value ∈ values) (start : α) :
    value ≤ values.foldl max start :=
  (foldl_max_le_iff.mp le_rfl).2 value mem

end Theseon.Lib
