import Theseon.Iterator.MergeCorrectness

/-!
# Which errors a merge reports

The merge asks a child for its error only after it has advanced that child.  A
child that is not valid when the merge is constructed is never advanced, so its
error is lost unless another child fails later.
-/

namespace Theseon.Iterator

open Lib
open Iter

universe u v

variable {σ : Type u} {ε : Type v} [Iter σ ε]

namespace MergeIterator

/-- The merge after `n` calls of `Next`. -/
def after (n : Nat) (m : MergeIterator σ ε) : MergeIterator σ ε :=
  step^[n] m

@[simp]
theorem after_zero (m : MergeIterator σ ε) : m.after 0 = m :=
  rfl

theorem after_succ (n : Nat) (m : MergeIterator σ ε) : m.after (n + 1) = (m.after n).step :=
  Function.iterate_succ_apply' step n m

theorem after_succ' (n : Nat) (m : MergeIterator σ ε) : m.after (n + 1) = m.step.after n :=
  Function.iterate_succ_apply step n m

variable {m : MergeIterator σ ε} {n : Nat}

theorem step_of_invalid (invalid : isValid m = false) : m.step = m := by
  have stopped : m.valid = false := invalid
  unfold step
  cases current : m.cur with
  | none => rfl
  | some item =>
    cases failure : m.err with
    | none => simp [valid, current, failure] at stopped
    | some e => simp

theorem after_of_invalid (invalid : isValid m = false) (n : Nat) : m.after n = m := by
  induction n with
  | zero => rfl
  | succ n ih => rw [after_succ, ih, step_of_invalid invalid]

/-- The end of a merge: it is reached after as many steps as there are pairs. -/
theorem after_of_drains {emitted : List (Bytes × Option Bytes)} {final : Option ε}
    (drains : Drains m emitted final) :
    isValid (m.after emitted.length) = false ∧ (m.after emitted.length).err = final := by
  induction drains with
  | stop invalid => exact ⟨invalid, rfl⟩
  | step _ _ ih =>
    rw [List.length_cons, after_succ']
    exact ih

theorem err_of_invalid_after {emitted : List (Bytes × Option Bytes)} {final : Option ε}
    (drains : Drains m emitted final) (invalid : isValid (m.after n) = false) :
    (m.after n).err = final := by
  induction drains generalizing n with
  | stop stopped =>
    rw [after_of_invalid stopped]
    rfl
  | step valid _ ih =>
    cases n with
    | zero => exact absurd valid (by simpa using invalid)
    | succ n =>
      rw [after_succ'] at invalid ⊢
      exact ih invalid

theorem step_err_of_err {e : ε} (failed : m.err = some e) : m.step.err = some e := by
  rw [step_of_invalid (invalid_of_err m (by change m.err ≠ none; simp [failed])), failed]

/-- An error is kept. -/
theorem err_eq_none_of_le {k : Nat} (le : k ≤ n) (noError : (m.after n).err = none) :
    (m.after k).err = none := by
  induction n with
  | zero => rwa [Nat.le_zero.mp le]
  | succ n ih =>
    rcases Nat.lt_or_eq_of_le le with lt | rfl
    · refine ih (Nat.le_of_lt_succ lt) ?_
      cases failed : (m.after n).err with
      | none => rfl
      | some e =>
        rw [after_succ, step_err_of_err failed] at noError
        contradiction
    · exact noError

variable {failedAtStart : Nat → Prop} {fins : Nat → Option ε}
  {outs : Nat → List (Bytes × Option Bytes)}

/-- Until it has an error a merge is under way. -/
theorem Running.after (running : Running failedAtStart fins outs m)
    (noError : (m.after n).err = none) : ∃ outs', Running failedAtStart fins outs' (m.after n) := by
  induction n with
  | zero => exact ⟨outs, running⟩
  | succ n ih =>
    obtain ⟨outs', running'⟩ := ih (err_eq_none_of_le (Nat.le_succ n) noError)
    cases current : (m.after n).cur with
    | none =>
      have same : (m.after (n + 1)) = m.after n := by
        rw [after_succ]
        refine step_of_invalid ?_
        change MergeIterator.valid _ = false
        simp [MergeIterator.valid, current]
      exact ⟨outs', same ▸ running'⟩
    | some item =>
      obtain ⟨tail, _, _, ⟨running'', _⟩ | ⟨e, _, _, failed⟩⟩ := running'.step current
      · exact ⟨_, after_succ n m ▸ running''⟩
      · rw [after_succ, failed] at noError
        contradiction

/-- Once the merge is exhausted it reports an error if any child reported one,
at construction or later. -/
def ReportsErrors (start : List σ) : Prop :=
  ∀ n, isValid ((new start : MergeIterator σ ε).after n) = false →
    (∃ k ≤ n, ∃ it ∈ ((new start : MergeIterator σ ε).after k).iters, Iter.err it ≠ none) →
    ((new start : MergeIterator σ ε).after n).err ≠ none

/-- A child that has entries and ends with an error. -/
def FailsLater (it : σ) : Prop :=
  isValid it = true ∧ ∃ out e, Drains it out (some e)

/-- The merge of iterators that come to an end reports every error exactly when
no child has one at construction, or some other child fails later. -/
theorem reportsErrors_iff {start : List σ} (ends : ∀ it ∈ start, ∃ out final, Drains it out final) :
    ReportsErrors start ↔
      (∀ it ∈ start, Iter.err it = none) ∨ ∃ it ∈ start, FailsLater it := by
  have perIndex : ∀ i : Nat, ∃ out final, (∀ it, start[i]? = some it → Drains it out final) ∧
      (start[i]? = none → final = none) := by
    intro i
    cases found : start[i]? with
    | none => exact ⟨[], none, by simp, fun _ => rfl⟩
    | some it =>
      obtain ⟨out, final, drains⟩ := ends it (List.mem_of_getElem? found)
      refine ⟨out, final, ?_, by simp⟩
      rintro it' sameIt
      rwa [← Option.some.inj sameIt]
  choose outs fins childDrains outside using perIndex
  have running := new_running childDrains
  obtain ⟨emitted, final, drains, _, complete, blamed⟩ := running.drains
  constructor
  · intro reports
    by_contra neither
    push Not at neither
    obtain ⟨⟨bad, badMem, badErr⟩, noneLater⟩ := neither
    obtain ⟨invalid, errEq⟩ := after_of_drains drains
    have failed := reports _ invalid ⟨0, Nat.zero_le _, bad, by simpa using badMem, badErr⟩
    rw [errEq] at failed
    obtain ⟨e, rfl⟩ := Option.ne_none_iff_exists'.mp failed
    obtain ⟨i, notFailed, finEq⟩ := blamed e rfl
    cases found : start[i]? with
    | none => rw [outside i found] at finEq; contradiction
    | some it =>
      have itDrains := childDrains i it found
      refine noneLater it (List.mem_of_getElem? found) ⟨?_, outs i, e, finEq ▸ itDrains⟩
      by_contra stuck
      have stopped := itDrains.of_invalid (by simpa using stuck)
      exact notFailed ⟨it, found, by rw [← stopped.2, finEq]; simp⟩
  · intro condition n invalid seen noError
    have finalEq := err_of_invalid_after drains invalid
    rw [noError] at finalEq
    obtain ⟨_, ended⟩ := complete finalEq.symm
    rw [new_iters] at ended
    rcases condition with clean | ⟨it, itMem, valid, out, e, itDrains⟩
    · obtain ⟨k, kLe, it, itMem, itErr⟩ := seen
      obtain ⟨outs', running'⟩ := running.after (err_eq_none_of_le kLe noError)
      obtain ⟨i, found⟩ := List.mem_iff_getElem?.mp itMem
      refine itErr (running'.err_eq_none found ?_)
      rintro ⟨it', found', failed'⟩
      exact failed' (clean it' (List.mem_of_getElem? found'))
    obtain ⟨i, found⟩ := List.mem_iff_getElem?.mp itMem
    have inRange : i < start.length := (List.getElem?_eq_some_iff.mp found).1
    have finNone := ended i inRange (by
      rintro ⟨it', found', failed'⟩
      obtain rfl : it = it' := Option.some.inj (found.symm.trans found')
      exact absurd valid (by simp [invalid_of_err it failed']))
    have same := (itDrains.unique (childDrains i it found)).2
    rw [finNone] at same
    contradiction

end MergeIterator

end Theseon.Iterator
