import Mathlib.Data.List.Nodup
import Mathlib.Tactic.Linarith

/-!
# Maps whose values carry their key

Maps from a key to a value that names the key itself.  Such a map can be rebuilt
from its values, in whatever order they are listed.
-/

namespace Theseon.Lib

open Std List

universe u v

variable {α : Type u} {β : Type v} [Ord α] [TransOrd α] [LawfulEqOrd α] (key : β → α)

variable {map : ExtTreeMap α β} {k : α} {values : List β}

omit [LawfulEqOrd α] in
theorem mem_iff_get? : k ∈ map ↔ ∃ value, map[k]? = some value := by
  rw [ExtTreeMap.mem_iff_isSome_getElem?, Option.isSome_iff_exists]

/-- What holds of all entries of a map holds after an entry is inserted. -/
theorem forall_insert {holds : α → β → Prop}
    (all : ∀ k value, map[k]? = some value → holds k value) {value : β} (new : holds k value) :
    ∀ other found, (map.insert k value)[other]? = some found → holds other found := by
  intro other found isFound
  rw [ExtTreeMap.getElem?_insert] at isFound
  split at isFound
  · rename_i same
    cases isFound
    exact LawfulEqCmp.eq_of_compare same ▸ new
  · exact all other found isFound

omit [LawfulEqOrd α] in
theorem forall_erase {holds : α → β → Prop}
    (all : ∀ k value, map[k]? = some value → holds k value) (k : α) :
    ∀ other found, (map.erase k)[other]? = some found → holds other found := by
  intro other found isFound
  rw [ExtTreeMap.getElem?_erase] at isFound
  split at isFound
  · cases isFound
  · exact all other found isFound

section

variable {value : β} {other : α}

theorem mem_insert_key : other ∈ map.insert k value ↔ k = other ∨ other ∈ map := by
  rw [ExtTreeMap.mem_insert, LawfulEqCmp.compare_eq_iff_eq]

theorem mem_erase_key : other ∈ map.erase k ↔ k ≠ other ∧ other ∈ map := by
  rw [ExtTreeMap.mem_erase, Ne, Ne, LawfulEqCmp.compare_eq_iff_eq]

theorem getElem?_insert_if [DecidableEq α] :
    (map.insert k value)[other]? = if k = other then some value else map[other]? := by
  simp only [ExtTreeMap.getElem?_insert, LawfulEqCmp.compare_eq_iff_eq]

theorem getElem?_erase_if [DecidableEq α] :
    (map.erase k)[other]? = if k = other then none else map[other]? := by
  simp only [ExtTreeMap.getElem?_erase, LawfulEqCmp.compare_eq_iff_eq]

end

/-- Every value is stored under its own key. -/
def Keyed (map : ExtTreeMap α β) : Prop :=
  ∀ k value, map[k]? = some value → key value = k

/-- The map with the values inserted in turn. -/
def insertAll (map : ExtTreeMap α β) (values : List β) : ExtTreeMap α β :=
  values.foldl (fun map value => map.insert (key value) value) map

variable {key}

omit [LawfulEqOrd α] in
theorem keyed_empty : Keyed key (∅ : ExtTreeMap α β) := by
  intro k value found
  simp at found

theorem Keyed.insert (keyed : Keyed key map) (value : β) :
    Keyed key (map.insert (key value) value) :=
  forall_insert keyed rfl

omit [LawfulEqOrd α] in
theorem Keyed.erase (keyed : Keyed key map) (k : α) : Keyed key (map.erase k) :=
  forall_erase keyed k

theorem forall_insertAll {holds : α → β → Prop}
    (all : ∀ k value, map[k]? = some value → holds k value)
    (new : ∀ value ∈ values, holds (key value) value) :
    ∀ k found, (insertAll key map values)[k]? = some found → holds k found := by
  induction values generalizing map with
  | nil => exact all
  | cons value rest ih =>
    exact ih (forall_insert all (new value mem_cons_self)) fun later mem =>
      new later (mem_cons_of_mem _ mem)

theorem Keyed.insertAll (keyed : Keyed key map) (values : List β) :
    Keyed key (insertAll key map values) :=
  forall_insertAll keyed fun _ _ => rfl

theorem mem_insertAll :
    k ∈ insertAll key map values ↔ k ∈ map ∨ ∃ value ∈ values, key value = k := by
  induction values generalizing map with
  | nil => simp [insertAll]
  | cons value rest ih =>
    have unfolded : insertAll key map (value :: rest) =
        insertAll key (map.insert (key value) value) rest := rfl
    rw [unfolded, ih, mem_insert_key, or_assoc, or_left_comm]
    simp only [mem_cons, exists_eq_or_imp]

theorem mem_values_iff (keyed : Keyed key map) {value : β} :
    value ∈ map.toList.map Prod.snd ↔ map[key value]? = some value := by
  rw [mem_map]
  constructor
  · rintro ⟨⟨k, stored⟩, mem, rfl⟩
    have found := ExtTreeMap.mem_toList_iff_getElem?_eq_some.mp mem
    rwa [keyed k stored found]
  · intro found
    exact ⟨(key value, value), ExtTreeMap.mem_toList_iff_getElem?_eq_some.mpr found, rfl⟩

/-- The values of a keyed map are listed in the order of their keys. -/
theorem Keyed.pairwise_values (keyed : Keyed key map) :
    (map.toList.map Prod.snd).Pairwise fun first second =>
      compare (key first) (key second) = .lt := by
  rw [pairwise_map]
  apply ExtTreeMap.ordered_keys_toList.imp_of_mem
  intro first second firstMem secondMem less
  rw [keyed first.1 first.2 (ExtTreeMap.mem_toList_iff_getElem?_eq_some.mp firstMem),
    keyed second.1 second.2 (ExtTreeMap.mem_toList_iff_getElem?_eq_some.mp secondMem)]
  exact less

theorem Keyed.nodup_keys (keyed : Keyed key map) : ((map.toList.map Prod.snd).map key).Nodup := by
  rw [List.Nodup, pairwise_map]
  apply keyed.pairwise_values.imp
  intro first second less same
  have self : compare (key second) (key second) = .eq := ReflOrd.compare_self
  rw [same, self] at less
  cases less

/-- Keys that are not inserted keep their value. -/
theorem getElem?_insertAll_of_absent (absent : ∀ value ∈ values, key value ≠ k) :
    (insertAll key map values)[k]? = map[k]? := by
  induction values generalizing map with
  | nil => rfl
  | cons value rest ih =>
    have step : insertAll key map (value :: rest) =
        insertAll key (map.insert (key value) value) rest := rfl
    have other : key value ≠ k := absent value (by simp)
    rw [step, ih fun later mem => absent later (mem_cons_of_mem _ mem),
      ExtTreeMap.getElem?_insert]
    simp [other]

theorem getElem?_insertAll_of_mem (distinct : (values.map key).Nodup) {value : β}
    (mem : value ∈ values) : (insertAll key map values)[key value]? = some value := by
  induction values generalizing map with
  | nil => cases mem
  | cons first rest ih =>
    rcases nodup_cons.mp distinct with ⟨fresh, restDistinct⟩
    have step : insertAll key map (first :: rest) =
        insertAll key (map.insert (key first) first) rest := rfl
    rw [step]
    rcases mem_cons.mp mem with rfl | inRest
    · have absent : ∀ later ∈ rest, key later ≠ key value := by
        intro later laterMem same
        apply fresh
        rw [← same]
        exact mem_map_of_mem laterMem
      rw [getElem?_insertAll_of_absent absent, ExtTreeMap.getElem?_insert_self]
    · exact ih restDistinct inRest

/-- A keyed map is rebuilt from its values, however they are listed. -/
theorem insertAll_values (keyed : Keyed key map) (listing : values.Perm (map.toList.map Prod.snd)) :
    insertAll key ∅ values = map := by
  have distinct : (values.map key).Nodup := by
    rw [(listing.map key).nodup_iff]
    exact keyed.nodup_keys
  apply ExtTreeMap.ext_getElem?
  intro k
  cases found : map[k]? with
  | some value =>
    have valueKey := keyed k value found
    have listed : value ∈ values := by
      rw [listing.mem_iff, mem_values_iff keyed, valueKey]
      exact found
    rw [← valueKey]
    exact getElem?_insertAll_of_mem distinct listed
  | none =>
    have absent : ∀ value ∈ values, key value ≠ k := by
      intro value mem same
      rw [listing.mem_iff, mem_values_iff keyed, same, found] at mem
      cases mem
    rw [getElem?_insertAll_of_absent absent, ExtTreeMap.getElem?_empty]

/-- A map is rebuilt from its entries. -/
theorem insertMany_toList [BEq α] [LawfulBEq α] (map : ExtTreeMap α β) :
    (∅ : ExtTreeMap α β).insertMany map.toList = map := by
  rw [← ExtTreeMap.ofList_eq_insertMany_empty]
  apply ExtTreeMap.ext_getElem?
  intro k
  cases found : map[k]? with
  | some value =>
    have listed := ExtTreeMap.mem_toList_iff_getElem?_eq_some.mpr found
    exact ExtTreeMap.getElem?_ofList_of_mem ReflOrd.compare_self
      ExtTreeMap.distinct_keys_toList listed
  | none =>
    apply ExtTreeMap.getElem?_ofList_of_contains_eq_false
    rw [← Bool.not_eq_true, contains_iff_mem, mem_map]
    rintro ⟨⟨other, value⟩, mem, rfl⟩
    rw [ExtTreeMap.mem_toList_iff_getElem?_eq_some.mp mem] at found
    cases found

end Theseon.Lib
