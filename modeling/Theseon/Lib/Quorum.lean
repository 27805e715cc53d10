import Mathlib.Data.List.Perm.Subperm

/-!
# Quorums

Two sets of members that together are larger than the whole group have a member in
common.  A collector takes replies in the order of their arrival until it has the
quorum or knows that it cannot reach it.
-/

namespace Theseon.Lib

open List

universe u

variable {α : Type u}

/-- Two quorums of one group meet. -/
theorem exists_mem_of_quorums {group first second : List α} (firstNodup : first.Nodup)
    (secondNodup : second.Nodup) (firstSubset : first ⊆ group) (secondSubset : second ⊆ group)
    (large : group.length < first.length + second.length) : ∃ x ∈ first, x ∈ second := by
  by_contra apart
  have nodup : (first ++ second).Nodup := by
    rw [nodup_append]
    apply And.intro firstNodup
    apply And.intro secondNodup
    rintro x mem _ mem' rfl
    exact apart ⟨x, mem, mem'⟩
  have within : (first ++ second).Subperm group :=
    subperm_of_subset nodup (append_subset.mpr ⟨firstSubset, secondSubset⟩)
  have bound := within.length_le
  rw [length_append] at bound
  exact absurd large (Nat.not_lt.mpr bound)

/-- Take replies until there are `quorum` successes or `maxFailures` failures.  A
failure is `none`.  The result is `none` as long as more replies are needed. -/
def collectQuorum (quorum maxFailures : Nat) :
    List α → Nat → List (Option α) → Option (List α × Nat)
  | got, failures, [] =>
    if got.length < quorum ∧ failures < maxFailures then none else some (got, failures)
  | got, failures, reply :: rest =>
    if got.length < quorum ∧ failures < maxFailures then
      match reply with
      | some success => collectQuorum quorum maxFailures (got ++ [success]) failures rest
      | none => collectQuorum quorum maxFailures got (failures + 1) rest
    else some (got, failures)

section

variable {quorum maxFailures failures failures' : Nat} {got all : List α}
  {replies : List (Option α)}

theorem collectQuorum_of_ended (ended : ¬ (got.length < quorum ∧ failures < maxFailures)) :
    collectQuorum quorum maxFailures got failures replies = some (got, failures) := by
  rcases replies with _ | ⟨_ | _, rest⟩ <;> exact if_neg ended

/-- The replies are taken up to some point: when the quorum has been reached, or too
many of them have failed. -/
theorem collectQuorum_eq_some (within : got.length ≤ quorum)
    (collected : collectQuorum quorum maxFailures got failures replies = some (all, failures')) :
    ∃ heard rest, replies = heard ++ rest ∧ all = got ++ heard.filterMap id ∧
      failures' = failures + heard.countP Option.isNone ∧ all.length ≤ quorum ∧
      (all.length < quorum → maxFailures ≤ failures') := by
  induction replies generalizing got failures with
  | nil =>
    rcases Option.ite_none_left_eq_some.mp collected with ⟨_, ⟨⟩⟩
    exact ⟨[], [], by simp; omega⟩
  | cons reply rest ih =>
    by_cases unfinished : got.length < quorum ∧ failures < maxFailures
    · cases reply with
      | some success =>
        rw [collectQuorum, if_pos unfinished] at collected
        rcases ih (by simp; omega) collected with ⟨heard, later, rfl, rfl, rfl, ends⟩
        exact ⟨some success :: heard, later, by simpa using ends⟩
      | none =>
        rw [collectQuorum, if_pos unfinished] at collected
        rcases ih within collected with ⟨heard, later, rfl, rfl, rfl, ends⟩
        refine ⟨none :: heard, later, rfl, rfl, ?_, ends⟩
        simp [Nat.add_assoc, Nat.add_comm 1]
    rw [collectQuorum_of_ended unfinished] at collected
    cases collected
    exact ⟨[], reply :: rest, by simp; omega⟩

/-- The replies of the whole group are enough. -/
theorem collectQuorum_total
    (enough : quorum + maxFailures ≤ got.length + failures + replies.length + 1) :
    ∃ result, collectQuorum quorum maxFailures got failures replies = some result := by
  induction replies generalizing got failures with
  | nil =>
    rw [length_nil] at enough
    exact ⟨_, if_neg (by omega)⟩
  | cons reply rest ih =>
    rw [length_cons] at enough
    by_cases unfinished : got.length < quorum ∧ failures < maxFailures
    · cases reply with
      | some success =>
        rw [collectQuorum, if_pos unfinished]
        exact ih (by simp; omega)
      | none =>
        rw [collectQuorum, if_pos unfinished]
        exact ih (by omega)
    · exact ⟨_, collectQuorum_of_ended unfinished⟩

end

end Theseon.Lib
