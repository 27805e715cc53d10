import Mathlib.Data.List.Lex
import Mathlib.Data.List.Infix
import Mathlib.Order.Lattice

/-!
# Byte strings in lexicographic order

Byte strings are lists of `UInt8`, compared lexicographically with a proper
prefix below its extensions.  The lemmas here say how that order behaves under
concatenation: a common front cancels, and two fronts neither of which extends
the other decide the comparison by themselves.
-/

namespace Theseon.Lib

open List

instance byteOrder : LinearOrder UInt8 where
  le_refl _ := UInt8.le_refl _
  le_trans _ _ _ := UInt8.le_trans
  lt_iff_le_not_ge _ _ := by
    simp only [UInt8.le_iff_toNat_le, UInt8.lt_iff_toNat_lt]
    omega
  le_antisymm _ _ := UInt8.le_antisymm
  le_total _ _ := UInt8.le_total _ _
  toDecidableLE := inferInstance

/-- A byte string. -/
abbrev Bytes := List UInt8

section Append

universe u

variable {α : Type u}

/-- Neither string is a prefix of the other. -/
def Unrelated (a b : List α) : Prop :=
  ¬ a <+: b ∧ ¬ b <+: a

instance [DecidableEq α] (a b : List α) : Decidable (Unrelated a b) :=
  inferInstanceAs (Decidable (_ ∧ _))

variable {a b : List α}

theorem Unrelated.symm (unrelated : Unrelated a b) : Unrelated b a :=
  ⟨unrelated.2, unrelated.1⟩

theorem Unrelated.ne (unrelated : Unrelated a b) : a ≠ b := by
  rintro rfl
  exact unrelated.1 (prefix_refl a)

/-- Two strings are equal, unrelated, or one properly extends the other. -/
theorem eq_or_unrelated_or_extends (a b : List α) :
    a = b ∨ Unrelated a b ∨ (∃ w, w ≠ [] ∧ b = a ++ w) ∨ (∃ w, w ≠ [] ∧ a = b ++ w) := by
  by_cases same : a = b
  · exact .inl same
  by_cases forward : a <+: b
  · obtain ⟨w, rfl⟩ := forward
    refine .inr (.inr (.inl ⟨w, ?_, rfl⟩))
    rintro rfl
    simp at same
  by_cases backward : b <+: a
  · obtain ⟨w, rfl⟩ := backward
    refine .inr (.inr (.inr ⟨w, ?_, rfl⟩))
    rintro rfl
    simp at same
  · exact .inr (.inl ⟨forward, backward⟩)

variable [LinearOrder α]

@[simp]
theorem cons_lt_cons_iff_of_eq (a : α) (x y : List α) : a :: x < a :: y ↔ x < y :=
  lex_cons_iff

@[simp]
theorem append_lt_append_left_iff (a x y : List α) : a ++ x < a ++ y ↔ x < y := by
  induction a with
  | nil => rfl
  | cons head rest ih => simpa using ih

@[simp]
theorem append_le_append_left_iff (a x y : List α) : a ++ x ≤ a ++ y ↔ x ≤ y := by
  rw [← not_lt, ← not_lt, append_lt_append_left_iff]

/-- A string lies below each of its extensions. -/
theorem le_append_right_self (a x : List α) : a ≤ a ++ x := by
  cases x with
  | nil => simp
  | cons head rest =>
    have shorter : a ++ [] < a ++ (head :: rest) :=
      (append_lt_append_left_iff a _ _).mpr List.Lex.nil
    simpa using shorter.le

/-- Fronts that do not extend one another decide the comparison. -/
theorem append_lt_append_of_lt (less : a < b) (unrelated : Unrelated a b) (x y : List α) :
    a ++ x < b ++ y := by
  induction a generalizing b with
  | nil => exact absurd nil_prefix unrelated.1
  | cons head rest ih =>
    cases b with
    | nil => exact absurd nil_prefix unrelated.2
    | cons other others =>
      rcases less with _ | headLess | tailLess
      · exact List.Lex.rel headLess
      have restUnrelated : Unrelated rest others := by
        simpa [Unrelated] using unrelated
      exact List.Lex.cons (ih tailLess restUnrelated)

theorem append_lt_append_iff_of_unrelated (unrelated : Unrelated a b) (x y : List α) :
    a ++ x < b ++ y ↔ a < b := by
  constructor
  · intro less
    by_contra notLess
    have greater : b < a := lt_of_le_of_ne (not_lt.mp notLess) unrelated.ne.symm
    exact absurd less (not_lt.mpr (append_lt_append_of_lt greater unrelated.symm y x).le)
  · intro less
    exact append_lt_append_of_lt less unrelated x y

/-- A run of a least letter is below every string at least as long. -/
theorem replicate_le_of_minimal {least : α} (minimal : ∀ a, least ≤ a) {n : Nat} {x : List α}
    (long : n ≤ x.length) : List.replicate n least ≤ x := by
  induction n generalizing x with
  | zero => simpa using le_append_right_self [] x
  | succ n ih =>
    cases x with
    | nil => simp at long
    | cons head rest =>
      rw [replicate_succ]
      rcases (minimal head).lt_or_eq with below | rfl
      · exact le_of_lt (List.Lex.rel below)
      · exact cons_le_cons _ (ih (by simpa using long))

end Append

/-- The comparison that keeps a map of byte strings sorted is their order. -/
theorem compare_eq_lt_iff {a b : Bytes} : compare a b = .lt ↔ a < b := by
  rw [List.compare_eq_compareLex]
  induction a generalizing b with
  | nil =>
    cases b with
    | nil => simp [List.compareLex]
    | cons y b => simp [List.compareLex]
  | cons x a ih =>
    cases b with
    | nil => simp [List.compareLex]
    | cons y b =>
      rw [List.compareLex_cons_cons, Ordering.then_eq_lt, Std.compare_eq_lt, ih,
        Std.LawfulEqOrd.compare_eq_iff_eq, cons_lt_cons_iff]

/-- The order of two byte strings determines their comparison. -/
theorem compare_eq_of_lt_iff {a b : Bytes} {o : Ordering} (less : a < b ↔ o = .lt)
    (greater : b < a ↔ o = .gt) : compare a b = o := by
  rw [← compare_eq_lt_iff] at less greater
  rw [← Std.OrientedCmp.gt_iff_lt] at greater
  cases o <;> cases compared : compare a b <;> simp_all

end Theseon.Lib
