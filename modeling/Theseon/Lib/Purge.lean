import Mathlib.Data.List.Basic
import Mathlib.Data.Option.Basic

/-!
# Runs without some of their actions

A machine takes actions that may have an outcome.  If the other actions leave alone
what the visible ones depend on, then a run without them has the same visible outcomes.
-/

namespace Theseon.Lib

open List

universe u v w

variable {σ : Type u} {α : Type v} {ω : Type w}

/-- The outcomes of a run; nothing if an action is not possible. -/
def trace (perform : σ → α → Option (Option ω × σ)) : σ → List α → Option (List ω)
  | _, [] => some []
  | state, action :: rest =>
    (perform state action).bind fun result =>
      (trace perform result.2 rest).map fun outcomes => result.1.toList ++ outcomes

/-- The states are related as long as the second run takes the visible actions only.
Nothing that is hidden has a visible outcome. -/
structure Unwinds (perform : σ → α → Option (Option ω × σ)) (allowed : α → Prop)
    (visible : α → Bool) (shown : ω → Bool) (related : σ → σ → Prop) : Prop where
  hidden : ∀ {s t next : σ} {action : α} {outcome : Option ω}, related s t → allowed action →
    visible action = false → perform s action = some (outcome, next) →
      related next t ∧ ∀ o ∈ outcome, shown o = false
  seen : ∀ {s t next : σ} {action : α} {outcome : Option ω}, related s t → allowed action →
    visible action = true → perform s action = some (outcome, next) →
      (∃ next', perform t action = some (outcome, next') ∧ related next next') ∧
        ∀ o ∈ outcome, shown o = true

namespace Unwinds

variable {perform : σ → α → Option (Option ω × σ)} {allowed : α → Prop} {visible : α → Bool}
  {shown : ω → Bool} {related : σ → σ → Prop}

theorem filter_outcome {keep : ω → Bool} {outcome : Option ω} (all : ∀ o ∈ outcome, keep o = true) :
    outcome.toList.filter keep = outcome.toList := by
  apply filter_eq_self.mpr
  intro o mem
  exact all o (Option.mem_toList.mp mem)

/-- The visible actions alone have the visible outcomes. -/
theorem trace_eq (unwinds : Unwinds perform allowed visible shown related) {s t : σ}
    (rel : related s t) {actions : List α} (ok : ∀ action ∈ actions, allowed action)
    {outcomes : List ω} (ran : trace perform s actions = some outcomes) :
    trace perform t (actions.filter visible) = some (outcomes.filter shown) := by
  induction actions generalizing s t outcomes with
  | nil =>
    cases ran
    rfl
  | cons action rest ih =>
    rcases Option.bind_eq_some_iff.mp ran with ⟨⟨outcome, next⟩, performed, ran⟩
    rcases Option.map_eq_some_iff.mp ran with ⟨others, restRan, rfl⟩
    have restOk : ∀ action ∈ rest, allowed action := fun action mem => ok action (.tail _ mem)
    rw [filter_append]
    cases isVisible : visible action with
    | false =>
      rcases unwinds.hidden rel (ok _ (.head _)) isVisible performed with ⟨nextRel, none⟩
      have nothing : outcome.toList.filter shown = [] := by
        apply filter_eq_nil_iff.mpr
        intro o mem
        rw [none o (Option.mem_toList.mp mem)]
        exact Bool.false_ne_true
      rw [filter_cons_of_neg (by simp [isVisible]), nothing, nil_append]
      exact ih nextRel restOk restRan
    | true =>
      rcases unwinds.seen rel (ok _ (.head _)) isVisible performed with
        ⟨⟨next', performed', nextRel⟩, all⟩
      rw [filter_cons_of_pos isVisible, filter_outcome all, trace, performed']
      exact Option.map_eq_some_iff.mpr ⟨_, ih nextRel restOk restRan, rfl⟩

/-- If hidden actions are always possible, and visible ones in the second run only where
they are in the first, then the runs without them are possible together. -/
theorem trace_eq_none (unwinds : Unwinds perform allowed visible shown related)
    (hiddenRuns : ∀ (s : σ) (action : α), visible action = false → perform s action ≠ none)
    (seenStops : ∀ {s t : σ} {action : α}, related s t → visible action = true →
      perform s action = none → perform t action = none)
    {s t : σ} (rel : related s t) {actions : List α} (ok : ∀ action ∈ actions, allowed action)
    (stops : trace perform s actions = none) :
    trace perform t (actions.filter visible) = none := by
  induction actions generalizing s t with
  | nil => cases stops
  | cons action rest ih =>
    have restOk : ∀ action ∈ rest, allowed action := fun action mem => ok action (.tail _ mem)
    cases performed : perform s action with
    | none =>
      cases isVisible : visible action with
      | false => exact absurd performed (hiddenRuns s action isVisible)
      | true =>
        rw [filter_cons_of_pos isVisible, trace, seenStops rel isVisible performed]
        rfl
    | some result =>
      rcases result with ⟨outcome, next⟩
      rw [trace, performed, Option.bind_some, Option.map_eq_none_iff] at stops
      cases isVisible : visible action with
      | false =>
        rw [filter_cons_of_neg (by simp [isVisible])]
        exact ih (unwinds.hidden rel (ok _ (.head _)) isVisible performed).1 restOk stops
      | true =>
        rcases unwinds.seen rel (ok _ (.head _)) isVisible performed with
          ⟨⟨next', performed', nextRel⟩, _⟩
        rw [filter_cons_of_pos isVisible, trace, performed', Option.bind_some,
          Option.map_eq_none_iff]
        exact ih nextRel restOk stops

end Unwinds

end Theseon.Lib
