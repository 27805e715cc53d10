import Mathlib.Order.Lattice
import Mathlib.Data.List.Basic

/-!
# A last-writer-wins register without memory of deletions

A register holds a value with its version, or nothing.  A write that is not newer than
what is held is stale and skipped.  A deletion is compared in the same way, but it
leaves nothing behind, its version is forgotten.  One version, `unversioned`, is not
compared at all.
-/

namespace Theseon.Lib.Register

open List

variable {V : Type u} {α : Type v}

inductive Op (V : Type u) (α : Type v) where
  | put (version : V) (value : α)
  | delete (version : V)

namespace Op

def version : Op V α → V
  | put version _ => version
  | delete version => version

/-- What the register would hold if this were the only operation. -/
def outcome : Op V α → Option (V × α)
  | put version value => some (version, value)
  | delete _ => none

end Op

variable [LinearOrder V]

/-- The version is compared and is not newer than what is held. -/
def stale (unversioned : V) (version : V) : Option (V × α) → Bool
  | none => false
  | some held => version ≠ unversioned ∧ version ≤ held.1

def apply (unversioned : V) (held : Option (V × α)) (op : Op V α) : Option (V × α) :=
  if stale unversioned op.version held then held else op.outcome

def applyAll (unversioned : V) (held : Option (V × α)) (ops : List (Op V α)) : Option (V × α) :=
  ops.foldl (apply unversioned) held

/-- Every write is followed by a newer deletion. -/
def Outlived : List (Op V α) → Prop
  | [] => True
  | .put version _ :: ops => (∃ newer, .delete newer ∈ ops ∧ version < newer) ∧ Outlived ops
  | .delete _ :: ops => Outlived ops

/-- The operation is the first of the greatest version. -/
def FirstGreatest (ops : List (Op V α)) (op : Op V α) : Prop :=
  ∃ before after, ops = before ++ op :: after ∧
    (∀ other ∈ before, other.version < op.version) ∧ ∀ other ∈ after, other.version ≤ op.version

/-- The operations from the last unversioned one on. -/
def sinceUnversioned (unversioned : V) : List (Op V α) → List (Op V α)
  | [] => []
  | op :: ops =>
    if ∃ later ∈ ops, later.version = unversioned then sinceUnversioned unversioned ops
    else op :: ops

variable {unversioned : V} {held : Option (V × α)} {op : Op V α} {ops : List (Op V α)}

@[simp]
theorem stale_none (version : V) : stale unversioned version (none : Option (V × α)) = false :=
  rfl

variable {version : V}

theorem stale_iff :
    stale unversioned version held = true ↔
      version ≠ unversioned ∧ ∃ own, held = some own ∧ version ≤ own.1 := by
  cases held with
  | none => simp
  | some own => simp [stale]

@[simp]
theorem applyAll_nil : applyAll unversioned held [] = held :=
  rfl

@[simp]
theorem applyAll_cons :
    applyAll unversioned held (op :: ops) = applyAll unversioned (apply unversioned held op) ops :=
  rfl

theorem applyAll_append {first second : List (Op V α)} :
    applyAll unversioned held (first ++ second) =
      applyAll unversioned (applyAll unversioned held first) second :=
  foldl_append

theorem apply_of_stale (isStale : stale unversioned op.version held = true) :
    apply unversioned held op = held := by
  rw [apply, if_pos isStale]

theorem apply_of_not_stale (notStale : ¬ stale unversioned op.version held = true) :
    apply unversioned held op = op.outcome := by
  rw [apply, if_neg notStale]

/-! ## The greatest version -/

/-- What is held after operations that are all older than a version is older too. -/
theorem lt_of_applyAll_eq_some {bound : V}
    (older : ∀ own, held = some own → own.1 < bound) (olderOps : ∀ op ∈ ops, op.version < bound)
    {own : V × α} (holds : applyAll unversioned held ops = some own) : own.1 < bound := by
  induction ops generalizing held with
  | nil => exact older own holds
  | cons op ops ih =>
    apply ih _ (fun other mem => olderOps other (mem_cons_of_mem _ mem)) holds
    intro next isNext
    by_cases isStale : stale unversioned op.version held = true
    · rw [apply_of_stale isStale] at isNext
      exact older next isNext
    rw [apply_of_not_stale isStale] at isNext
    have opOlder := olderOps op mem_cons_self
    cases op with
    | put version value =>
      cases isNext
      exact opOlder
    | delete version => cases isNext

/-- A value stays as long as nothing newer and nothing unversioned comes. -/
theorem applyAll_eq_self {own : V × α}
    (older : ∀ op ∈ ops, op.version ≠ unversioned ∧ op.version ≤ own.1) :
    applyAll unversioned (some own) ops = some own := by
  induction ops with
  | nil => rfl
  | cons op ops ih =>
    have isStale : stale unversioned op.version (some own) = true := by
      rcases older op mem_cons_self with ⟨versioned, le⟩
      exact stale_iff.mpr ⟨versioned, own, rfl, le⟩
    rw [applyAll_cons, apply_of_stale isStale]
    exact ih fun other mem => older other (mem_cons_of_mem _ mem)

/-- The first write of the greatest version stays, if nothing unversioned follows it. -/
theorem applyAll_of_firstGreatest_put {value : α} (older : ∀ own, held = some own → own.1 < version)
    {before after : List (Op V α)} (olderBefore : ∀ op ∈ before, op.version < version)
    (olderAfter : ∀ op ∈ after, op.version ≠ unversioned ∧ op.version ≤ version) :
    applyAll unversioned held (before ++ .put version value :: after) = some (version, value) := by
  rw [applyAll_append, applyAll_cons, apply_of_not_stale, Op.outcome]
  · exact applyAll_eq_self olderAfter
  intro isStale
  rcases stale_iff.mp isStale with ⟨_, own, holds, le⟩
  exact absurd (lt_of_applyAll_eq_some older olderBefore holds) (not_lt_of_ge le)

theorem FirstGreatest.mem (greatest : FirstGreatest ops op) : op ∈ ops := by
  rcases greatest with ⟨before, after, rfl, _, _⟩
  exact mem_append_right _ mem_cons_self

theorem FirstGreatest.le (greatest : FirstGreatest ops op) {other : Op V α} (mem : other ∈ ops) :
    other.version ≤ op.version := by
  rcases greatest with ⟨before, after, rfl, lower, upper⟩
  rcases mem_append.mp mem with inBefore | inAfter
  · exact (lower other inBefore).le
  rcases mem_cons.mp inAfter with rfl | later
  · exact le_rfl
  · exact upper other later

theorem exists_firstGreatest (nonempty : ops ≠ []) : ∃ op, FirstGreatest ops op := by
  induction ops with
  | nil => exact absurd rfl nonempty
  | cons op ops ih =>
    by_cases above : ∀ other ∈ ops, other.version ≤ op.version
    · exact ⟨op, [], ops, rfl, forall_mem_nil _, above⟩
    have notNil : ops ≠ [] := by
      rintro rfl
      exact above (forall_mem_nil _)
    rcases ih notNil with ⟨greatest, before, after, rfl, lower, upper⟩
    -- `op` is below some operation, hence below the greatest of the rest.
    have below : op.version < greatest.version := by
      push Not at above
      rcases above with ⟨other, mem, lt⟩
      exact lt.trans_le (FirstGreatest.le ⟨before, after, rfl, lower, upper⟩ mem)
    exact ⟨greatest, op :: before, after, rfl, forall_mem_cons.mpr ⟨below, lower⟩, upper⟩

/-! ## Deletions -/

/-- Nothing is left exactly when what was held and every write is followed by a newer
deletion. -/
theorem applyAll_eq_none_iff (versioned : ∀ op ∈ ops, op.version ≠ unversioned) :
    applyAll unversioned held ops = none ↔
      (∀ own, held = some own → ∃ newer, .delete newer ∈ ops ∧ own.1 < newer) ∧ Outlived ops := by
  induction ops generalizing held with
  | nil => cases held <;> simp [Outlived]
  | cons op ops ih =>
    rw [applyAll_cons,
      ih fun other mem => versioned other (mem_cons_of_mem _ mem)]
    have opVersioned := versioned op mem_cons_self
    by_cases isStale : stale unversioned op.version held = true
    · rw [apply_of_stale isStale]
      rcases stale_iff.mp isStale with ⟨_, own, rfl, le⟩
      cases op with
      | put version value =>
        -- A deletion that outlives what is held outlives the stale write.
        simp only [Option.some.injEq, forall_eq', mem_cons, reduceCtorEq, false_or,
          Outlived]
        constructor
        · rintro ⟨⟨newer, mem, lt⟩, outlived⟩
          exact ⟨⟨newer, mem, lt⟩, ⟨newer, mem, le.trans_lt lt⟩, outlived⟩
        · rintro ⟨covered, _, outlived⟩
          exact ⟨covered, outlived⟩
      | delete version =>
        have notNewer : ¬ own.1 < version := not_lt_of_ge le
        simp only [Option.some.injEq, forall_eq', mem_cons, Op.delete.injEq, Outlived]
        constructor
        · rintro ⟨⟨newer, mem, lt⟩, outlived⟩
          exact ⟨⟨newer, .inr mem, lt⟩, outlived⟩
        · rintro ⟨⟨newer, rfl | mem, lt⟩, outlived⟩
          · exact absurd lt notNewer
          · exact ⟨⟨newer, mem, lt⟩, outlived⟩
    · rw [apply_of_not_stale isStale]
      have older : ∀ own, held = some own → own.1 < op.version := by
        intro own holds
        by_contra notLt
        exact isStale (stale_iff.mpr ⟨opVersioned, own, holds, not_lt.mp notLt⟩)
      cases op with
      | put version value =>
        simp only [Op.outcome, Option.some.injEq, forall_eq', mem_cons, reduceCtorEq,
          false_or, Outlived]
        constructor
        · rintro ⟨⟨newer, mem, lt⟩, outlived⟩
          exact ⟨fun own holds => ⟨newer, mem, (older own holds).trans lt⟩,
            ⟨newer, mem, lt⟩, outlived⟩
        · rintro ⟨_, covered, outlived⟩
          exact ⟨covered, outlived⟩
      | delete version =>
        simp only [Op.outcome, reduceCtorEq, false_implies, implies_true, true_and, Outlived]
        constructor
        · intro outlived
          exact ⟨fun own holds => ⟨version, mem_cons_self, older own holds⟩, outlived⟩
        · rintro ⟨_, outlived⟩
          exact outlived

/-! ## Unversioned operations -/

theorem apply_of_unversioned (isUnversioned : op.version = unversioned) :
    apply unversioned held op = op.outcome := by
  apply apply_of_not_stale
  intro isStale
  exact (stale_iff.mp isStale).1 isUnversioned

/-- Of the operations from the last unversioned one on, only the first can be
unversioned, and it is, if there are operations before it. -/
theorem sinceUnversioned_spec (nonempty : ops ≠ []) :
    ∃ dropped first rest, ops = dropped ++ first :: rest ∧
      sinceUnversioned unversioned ops = first :: rest ∧
      (∀ later ∈ rest, later.version ≠ unversioned) ∧
      (dropped = [] ∨ first.version = unversioned) := by
  induction ops with
  | nil => exact absurd rfl nonempty
  | cons op ops ih =>
    rw [sinceUnversioned]
    split
    · rename_i reset
      rcases reset with ⟨later, mem, isUnversioned⟩
      rcases ih (ne_nil_of_mem mem) with ⟨dropped, first, rest, rfl, since, versioned, isFirst⟩
      refine ⟨op :: dropped, first, rest, rfl, since, versioned, .inr ?_⟩
      rcases isFirst with rfl | isFirst
      · rcases mem_cons.mp mem with rfl | inRest
        · exact isUnversioned
        · exact absurd isUnversioned (versioned later inRest)
      · exact isFirst
    · rename_i noReset
      exact ⟨[], op, ops, rfl, rfl, fun later mem same => noReset ⟨later, mem, same⟩, .inl rfl⟩

/-- Writes only: the register ends with the first write of the greatest version since
the last unversioned one. -/
theorem applyAll_eq_of_firstGreatest {value : α}
    (greatest : FirstGreatest (sinceUnversioned unversioned ops) (.put version value)) :
    applyAll unversioned none ops = some (version, value) := by
  rcases greatest with ⟨before, after, split, lower, upper⟩
  have nonempty : ops ≠ [] := by
    rintro rfl
    cases before <;> cases split
  rcases @sinceUnversioned_spec _ _ _ unversioned _ nonempty with
    ⟨dropped, first, rest, rfl, since, versioned, isFirst⟩
  have forgotten : applyAll unversioned none (dropped ++ first :: rest) =
      applyAll unversioned none (first :: rest) := by
    rcases isFirst with rfl | isFirst
    · rfl
    · rw [applyAll_append, applyAll_cons, applyAll_cons, apply_of_unversioned isFirst,
        apply_of_unversioned isFirst]
  rw [since] at split
  rw [forgotten, split]
  apply applyAll_of_firstGreatest_put _ lower
  · intro other mem
    refine ⟨versioned other ?_, upper other mem⟩
    cases before with
    | nil => exact (cons.inj split).2 ▸ mem
    | cons head before => exact (cons.inj split).2 ▸ mem_append_right _ (mem_cons_of_mem _ mem)
  · rintro own ⟨⟩

end Theseon.Lib.Register
