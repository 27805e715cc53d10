import Theseon.Lib.KeyedMap

/-!
# Sums over maps

The sum of a measure over the entries of a map, and what adding or erasing an entry does
to it.
-/

namespace Theseon.Lib

open Std

universe u v w

variable {α : Type u} {β : Type v} [Ord α] [TransOrd α] [LawfulEqOrd α] {measure : β → Nat}
  {map : ExtTreeMap α β} {k : α}

/-- The sum of a measure over the entries. -/
def totalOf (measure : β → Nat) (map : ExtTreeMap α β) : Nat :=
  map.toList.foldl (fun total entry => total + measure entry.2) 0

omit [LawfulEqOrd α] in
theorem nodup_toList : map.toList.Nodup := by
  apply ExtTreeMap.distinct_keys_toList.imp
  rintro first second different rfl
  exact different ReflOrd.compare_self

/-- The entries after one has been added. -/
theorem toList_insert_perm (new : k ∉ map) (value : β) :
    (map.insert k value).toList.Perm ((k, value) :: map.toList) := by
  have notListed (other : β) : (k, other) ∉ map.toList := by
    intro mem
    exact new (mem_iff_get?.mpr ⟨other, ExtTreeMap.mem_toList_iff_getElem?_eq_some.mp mem⟩)
  rw [List.perm_ext_iff_of_nodup nodup_toList (List.nodup_cons.mpr ⟨notListed value, nodup_toList⟩)]
  rintro ⟨key, other⟩
  rw [ExtTreeMap.mem_toList_iff_getElem?_eq_some, ExtTreeMap.getElem?_insert, List.mem_cons,
    Prod.mk.injEq, ExtTreeMap.mem_toList_iff_getElem?_eq_some]
  by_cases same : k = key
  · subst same
    rw [if_pos ReflOrd.compare_self, Option.some.injEq]
    constructor
    · exact fun equal => .inl ⟨rfl, equal.symm⟩
    · rintro (⟨_, rfl⟩ | old)
      · rfl
      · exact absurd (ExtTreeMap.mem_toList_iff_getElem?_eq_some.mpr old) (notListed other)
  rw [if_neg fun equal => same (LawfulEqCmp.eq_of_compare equal)]
  constructor
  · exact .inr
  · rintro (⟨rfl, _⟩ | old)
    · exact absurd rfl same
    · exact old

theorem foldl_add_eq {γ : Type w} (measure : γ → Nat) (entries : List γ) (total : Nat) :
    entries.foldl (fun total entry => total + measure entry) total =
      entries.foldl (fun total entry => total + measure entry) 0 + total := by
  induction entries generalizing total with
  | nil => exact (Nat.zero_add total).symm
  | cons entry rest ih =>
    rw [List.foldl_cons, List.foldl_cons, ih, ih (0 + measure entry)]
    omega

theorem totalOf_insert (new : k ∉ map) (value : β) :
    totalOf measure (map.insert k value) = totalOf measure map + measure value := by
  have same : totalOf measure (map.insert k value) =
      ((k, value) :: map.toList).foldl (fun total entry => total + measure entry.2) 0 := by
    apply (toList_insert_perm new value).foldl_eq'
    intro first _ second _ total
    exact Nat.add_right_comm _ _ _
  rw [same, List.foldl_cons, foldl_add_eq, Nat.zero_add]
  rfl

theorem totalOf_erase {value : β} (found : map[k]? = some value) :
    totalOf measure map = totalOf measure (map.erase k) + measure value := by
  have back : (map.erase k).insert k value = map := by
    apply ExtTreeMap.ext_getElem?
    intro other
    rw [ExtTreeMap.getElem?_insert, ExtTreeMap.getElem?_erase]
    split
    · rename_i same
      rw [← LawfulEqCmp.eq_of_compare same, found]
    · rfl
  have absent : k ∉ map.erase k := by
    rw [ExtTreeMap.mem_erase]
    exact fun both => both.1 ReflOrd.compare_self
  rw [← totalOf_insert absent, back]

omit [LawfulEqOrd α] in
theorem totalOf_map {γ : Type w} (measure : γ → Nat) (f : β → γ) :
    totalOf measure (map.map fun _ value => f value) =
      totalOf (fun value => measure (f value)) map := by
  rw [totalOf, ExtTreeMap.toList_map, List.foldl_map]
  rfl

end Theseon.Lib
