import Theseon.Lib.Outcome

/-!
# Machines with labelled steps

A machine takes actions one after the other; an action that is not possible has
no next state.  `Reached` collects the states of all runs whose actions meet a
condition, and an invariant of the steps holds in all of them.
-/

namespace Theseon.Lib

universe u v

variable {σ : Type u} {α : Type v}

/-- The states that are reached from `start` by allowed actions. -/
inductive Reached (step : σ → α → Option σ) (allowed : σ → α → Prop) (start : σ) : σ → Prop where
  | start : Reached step allowed start start
  | step {state next : σ} {action : α} (reached : Reached step allowed start state)
      (ok : allowed state action) (stepped : step state action = some next) :
      Reached step allowed start next

/-- What holds at the start and is kept by every allowed step holds in every
reached state. -/
theorem Reached.invariant {step : σ → α → Option σ} {allowed : σ → α → Prop} {start state : σ}
    (reached : Reached step allowed start state) (holds : σ → Prop) (initially : holds start)
    (kept : ∀ {state next : σ} {action : α}, holds state → allowed state action →
      step state action = some next → holds next) : holds state := by
  induction reached with
  | start => exact initially
  | step _ ok stepped ih => exact kept ih ok stepped

/-- Run the actions in order. -/
def run (step : σ → α → Option σ) : σ → List α → Option σ
  | state, [] => some state
  | state, action :: rest => (step state action).bind fun next => run step next rest

variable {actions : List α}

/-- Where every action is allowed, every run is. -/
theorem Reached.run {step : σ → α → Option σ} {start state final : σ}
    (reached : Reached step (fun _ _ => True) start state)
    (ran : Lib.run step state actions = some final) :
    Reached step (fun _ _ => True) start final := by
  induction actions generalizing state with
  | nil =>
    cases ran
    exact reached
  | cons action rest ih =>
    rcases Option.bind_eq_some_iff.mp ran with ⟨next, stepped, rest⟩
    exact ih (reached.step trivial stepped) rest

section

variable (step : σ → α → Option σ) (allowed : σ → α → Prop)
  [∀ state action, Decidable (allowed state action)]

/-- Run the actions in order, as long as they are allowed. -/
def runAllowed : σ → List α → Option σ
  | state, [] => some state
  | state, action :: rest =>
    if allowed state action then (step state action).bind fun next => runAllowed next rest
    else none

variable {step allowed}

theorem Reached.runAllowed {start state final : σ} (reached : Reached step allowed start state)
    (ran : Lib.runAllowed step allowed state actions = some final) :
    Reached step allowed start final := by
  induction actions generalizing state with
  | nil =>
    cases ran
    exact reached
  | cons action rest ih =>
    rw [Lib.runAllowed] at ran
    split at ran
    · rename_i ok
      rcases Option.bind_eq_some_iff.mp ran with ⟨next, stepped, rest⟩
      exact ih (reached.step ok stepped) rest
    · cases ran

/-- A run that is evaluated reaches its last state. -/
theorem Reached.of_evaluated {start : σ} {p : σ → Prop}
    (evaluated : ∃ final ∈ Lib.runAllowed step allowed start actions, p final) :
    ∃ final, Reached step allowed start final ∧ p final := by
  rcases evaluated with ⟨final, ran, holds⟩
  exact ⟨final, Reached.start.runAllowed ran, holds⟩

end

end Theseon.Lib
