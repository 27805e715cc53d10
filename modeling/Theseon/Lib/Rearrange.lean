import Mathlib.Data.List.Flatten
import Mathlib.Data.List.Perm.Subperm

/-!
# Moving elements between lists

What replacing one list of a list of lists, or taking elements out of a list, does
to the elements counted with their multiplicity.
-/

namespace Theseon.Lib

open List

universe u v

variable {α : Type u} {β : Type v}

/-- One list is exchanged for another. -/
theorem flatten_set_perm {lists : List (List α)} {i : Nat} (within : i < lists.length)
    (items : List α) :
    ((lists.set i items).flatten ++ lists.getD i []).Perm (lists.flatten ++ items) := by
  induction lists generalizing i with
  | nil => exact absurd within (Nat.not_lt_zero _)
  | cons first rest ih =>
    cases i with
    | zero =>
      rw [set_cons_zero, flatten_cons, flatten_cons, getD_cons_zero]
      calc
        (items ++ rest.flatten ++ first).Perm (first ++ (items ++ rest.flatten)) :=
          perm_append_comm
        List.Perm _ (first ++ (rest.flatten ++ items)) :=
          perm_append_comm.append_left first
        _ = first ++ rest.flatten ++ items := (append_assoc _ _ _).symm
    | succ i =>
      rw [set_cons_succ, flatten_cons, flatten_cons, getD_cons_succ,
        append_assoc, append_assoc]
      exact (ih (Nat.lt_of_succ_lt_succ within)).append_left first

/-- Elements are taken out of a list when the rest of it no longer has them. -/
theorem append_filter_subperm {taken items : List α} {p : α → Bool} (sub : taken.Sublist items)
    (dropped : ∀ item ∈ taken, p item = false) : (taken ++ items.filter p).Subperm items := by
  have kept : taken.filter (fun item => !p item) = taken := by
    apply filter_eq_self.mpr
    intro item mem
    rw [dropped item mem]
    rfl
  have takenSub : taken.Sublist (items.filter fun item => !p item) := by
    rw [← kept]
    exact sub.filter _
  apply (takenSub.append_right (items.filter p)).subperm.trans
  exact (perm_append_comm.trans (filter_append_perm p items)).subperm

/-- One part of the elements is exchanged for another, of which some is kept. -/
theorem subperm_of_exchange {before after old kept taken extra : List α}
    (exchanged : (after ++ old).Perm (before ++ (kept ++ extra)))
    (took : (taken ++ kept).Subperm old) : (taken ++ after).Subperm (before ++ extra) := by
  apply (subperm_append_right kept).mp
  have grouped : ((taken ++ after) ++ kept).Perm (after ++ (taken ++ kept)) := by
    rw [append_assoc]
    exact perm_append_comm_assoc taken after kept
  have back : (before ++ (kept ++ extra)).Perm (before ++ extra ++ kept) := by
    rw [append_assoc]
    exact perm_append_comm.append_left before
  apply grouped.subperm.trans
  apply ((subperm_append_left after).mpr took).trans
  exact (exchanged.trans back).subperm

theorem subperm_flatMap {first second : List α} (sub : first.Subperm second) (f : α → List β) :
    (first.flatMap f).Subperm (second.flatMap f) := by
  rcases sub with ⟨ordered, perm, sublist⟩
  exact ⟨ordered.flatMap f, perm.flatMap_right f, sublist.flatMap f⟩

end Theseon.Lib
