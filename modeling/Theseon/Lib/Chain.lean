import Mathlib.Data.List.Basic
import Mathlib.Data.List.TakeWhile

/-!
# Linked chains

A chain is the sequence of cells met by following a partial `next` pointer from
a start cell until it is nil.  Splicing a fresh cell into a chain changes the
pointer of exactly one old cell.
-/

namespace Theseon.Lib

open List

universe u

variable {α : Type u}

/-- Following `next` from `x` meets exactly the listed cells. -/
def Chain (next : α → Option α) : α → List α → Prop
  | x, [] => next x = none
  | x, y :: ys => next x = some y ∧ Chain next y ys

/-- Follow `next` while the cell ahead satisfies `ahead`, at most `fuel` times. -/
def advanceWhile (next : α → Option α) (ahead : α → Bool) : Nat → α → α
  | 0, x => x
  | fuel + 1, x =>
    match next x with
    | none => x
    | some y => if ahead y then advanceWhile next ahead fuel y else x

namespace Chain

variable {next next' : α → Option α}

variable {x : α} {ys : List α}

theorem next_eq_head? (chain : Chain next x ys) : next x = ys.head? := by
  cases ys with
  | nil => exact chain
  | cons y ys => exact chain.1

/-- The part of a chain behind its last cell of a front. -/
theorem drop_front {front back : List α} (chain : Chain next x (front ++ back)) :
    Chain next (front.getLastD x) back := by
  induction front generalizing x with
  | nil => exact chain
  | cons y front ih =>
    rw [getLastD_cons]
    exact ih chain.2

/-- A chain depends only on the pointers of its own cells. -/
theorem congr (agree : ∀ y ∈ x :: ys, next' y = next y) (chain : Chain next x ys) :
    Chain next' x ys := by
  induction ys generalizing x with
  | nil => exact (agree x (by simp)).trans chain
  | cons y ys ih =>
    refine ⟨(agree x (by simp)).trans chain.1, ih ?_ chain.2⟩
    intro z zMem
    exact agree z (mem_cons_of_mem x zMem)

theorem getLastD_mem (x : α) (front : List α) : front.getLastD x ∈ x :: front := by
  induction front generalizing x with
  | nil => simp
  | cons y front ih =>
    rw [getLastD_cons]
    exact mem_cons_of_mem x (ih y)

/-- Splicing `fresh` behind the last cell of a front. -/
theorem insert {fresh : α} {front back : List α} (chain : Chain next x (front ++ back))
    (nodup : (x :: (front ++ back)).Nodup) (linked : next' (front.getLastD x) = some fresh)
    (inherited : next' fresh = next (front.getLastD x))
    (frame : ∀ y ∈ x :: (front ++ back), y ≠ front.getLastD x → next' y = next y) :
    Chain next' x (front ++ fresh :: back) := by
  induction front generalizing x with
  | nil =>
    simp only [getLastD_nil, nil_append] at *
    obtain ⟨notMem, _⟩ := nodup_cons.mp nodup
    refine ⟨linked, ?_⟩
    cases back with
    | nil => exact inherited.trans chain
    | cons y back =>
      refine ⟨inherited.trans chain.1, congr ?_ chain.2⟩
      intro z zMem
      refine frame z (mem_cons_of_mem x zMem) ?_
      rintro rfl
      exact notMem zMem
  | cons y front ih =>
    rw [getLastD_cons] at linked inherited
    obtain ⟨notMem, restNodup⟩ := nodup_cons.mp nodup
    have headFrame : next' x = next x := by
      refine frame x (by simp) ?_
      rw [getLastD_cons]
      rintro equal
      apply notMem
      rw [equal]
      exact mem_append_left back (getLastD_mem y front)
    refine ⟨headFrame.trans chain.1, ih chain.2 restNodup linked inherited ?_⟩
    intro z zMem distinct
    refine frame z (mem_cons_of_mem x zMem) ?_
    rwa [getLastD_cons]

/-- Advancing along a chain stops at the last cell of the longest front whose
cells all satisfy the test. -/
theorem advanceWhile_eq (chain : Chain next x ys) (ahead : α → Bool) {fuel : Nat}
    (enough : ys.length ≤ fuel) :
    advanceWhile next ahead fuel x = (ys.takeWhile ahead).getLastD x := by
  induction ys generalizing x fuel with
  | nil =>
    cases fuel with
    | zero => rfl
    | succ fuel =>
      have stop : next x = none := chain
      simp [advanceWhile, stop]
  | cons y ys ih =>
    cases fuel with
    | zero => simp at enough
    | succ fuel =>
      rw [advanceWhile, chain.1]
      by_cases test : ahead y
      · simp only [test, if_true, takeWhile_cons, getLastD_cons]
        exact ih chain.2 (by simpa using enough)
      · simp [test]

end Chain

end Theseon.Lib
