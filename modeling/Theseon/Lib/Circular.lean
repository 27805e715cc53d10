import Mathlib.Data.List.Rotate

/-!
# Walks around a circular list

A walk that starts somewhere in a circular list meets its entries in rotated order.
What it collects without repetition are the first occurrences, which `List.eraseDups`
keeps.
-/

namespace Theseon.Lib

open List

universe u

variable {α : Type u}

section Distinct

variable [BEq α] [LawfulBEq α]

theorem eraseDups_concat (xs : List α) (x : α) [Decidable (x ∈ xs)] :
    (xs ++ [x]).eraseDups = xs.eraseDups ++ if x ∈ xs then [] else [x] := by
  rw [eraseDups_append]
  split
  · rename_i mem
    simp [List.removeAll, mem]
  · rename_i new
    simp [List.removeAll, new, eraseDups_cons]

theorem nodup_eraseDups (xs : List α) : xs.eraseDups.Nodup := by
  classical
  induction xs using List.reverseRecOn with
  | nil => simp
  | append_singleton xs x ih =>
    rw [eraseDups_concat]
    split
    · simpa using ih
    rename_i new
    simp only [nodup_append, ih, nodup_singleton, mem_eraseDups, mem_singleton]
    grind

theorem filter_eraseDups (p : α → Bool) (xs : List α) :
    xs.eraseDups.filter p = (xs.filter p).eraseDups := by
  classical
  induction xs using List.reverseRecOn with
  | nil => simp
  | append_singleton xs x ih =>
    rw [eraseDups_concat, filter_append, filter_append, ih]
    by_cases test : p x
    · have same : x ∈ xs.filter p ↔ x ∈ xs := by simp [test]
      rw [filter_singleton, test, cond_true, eraseDups_concat]
      simp only [same]
      split <;> simp [test]
    · split <;> simp [test]

end Distinct

theorem take_rotate_succ {xs : List α} {i k : Nat} (inside : i < xs.length)
    (within : k < xs.length) :
    (xs.rotate i).take (k + 1) = xs[i] :: (xs.rotate ((i + 1) % xs.length)).take k := by
  have first : (xs.rotate i)[0]? = some xs[i] := by
    rw [getElem?_rotate (by omega), Nat.zero_add, Nat.mod_eq_of_lt inside,
      getElem?_eq_getElem inside]
  have length := length_rotate xs i
  rw [rotate_mod, ← rotate_rotate]
  cases rotated : xs.rotate i with
  | nil => simp [rotated] at first
  | cons x rest =>
    rw [rotated] at first length
    cases first
    have fits : k ≤ rest.length := by
      simp only [length_cons] at length
      omega
    rw [rotate_cons_succ, rotate_zero, take_append_of_le_length fits,
      take_succ_cons]

theorem filter_take_prefix (p : α → Bool) (n : Nat) (xs : List α) :
    (xs.take n).filter p <+: (xs.filter p).take n := by
  rw [prefix_take_iff]
  constructor
  · exact ( take_prefix n xs).filter p
  · exact (length_filter_le _ _).trans (length_take_le _ _)

theorem take_filter_eq {p : α → Bool} {n : Nat} {xs : List α} (front : ∀ x ∈ xs.take n, p x) :
    (xs.filter p).take n = xs.take n := by
  have whole : xs.filter p = xs.take n ++ (xs.drop n).filter p := by
    conv_lhs => rw [← take_append_drop n xs, filter_append, filter_eq_self.mpr front]
  rw [whole]
  rcases Nat.le_total n xs.length with long | short
  · rw [take_left' (length_take_of_le long)]
  · simp [drop_eq_nil_of_le short, take_of_length_le short]

end Theseon.Lib
