import Mathlib.Data.Option.Basic

/-!
# Computations that may fail

When a computation of several steps succeeds, each of its steps does.
-/

namespace Theseon.Lib

variable {ε : Type u}

@[simp]
theorem ok_bind {α β : Type v} (value : α) (next : α → Except ε β) :
    ((Except.ok value : Except ε α) >>= next) = next value :=
  rfl

theorem bind_eq_ok {α β : Type v} {first : Except ε α} {next : α → Except ε β} {result : β} :
    first >>= next = .ok result ↔ ∃ value, first = .ok value ∧ next value = .ok result := by
  cases first with
  | error err => exact ⟨nofun, nofun⟩
  | ok value => simp

theorem map_eq_ok {α β : Type v} {first : Except ε α} {f : α → β} {result : β} :
    first.map f = .ok result ↔ ∃ value, first = .ok value ∧ f value = result := by
  cases first with
  | error err => exact ⟨nofun, nofun⟩
  | ok value => simp [Except.map]

/-- For a run that is evaluated. -/
theorem eq_ok_of_toOption {α : Type} {result : Except ε α} {value : α}
    (isSome : result.toOption = some value) : result = .ok value := by
  cases result with
  | error err => cases isSome
  | ok got =>
    cases isSome
    rfl

end Theseon.Lib
