import Theseon.Iterator.Merge

/-!
# Correctness of the merge iterator

While no child has failed, the items of the merge iterator stand for the
children that still have entries.  One step emits the smallest of their keys, so
a merge that ends without an error has emitted exactly what its children hold,
in key order.

An error that a child reports after one of the merge's own steps is kept.  An
error that a child already has when the merge is constructed is not looked at.
-/

namespace Theseon.Iterator

open Lib List
open Iter

universe u v

/-! ## The priority queue -/

namespace HeapItem

/-- Not behind. -/
def Le (a b : HeapItem) : Prop :=
  ¬ b.Less a

variable {a b : HeapItem}

theorem Less.le (less : a.Less b) : a.Le b := by
  rintro (back | ⟨same, backIdx⟩) <;> rcases less with fwd | ⟨sameKey, fwdIdx⟩
  · exact lt_asymm back fwd
  · exact back.ne sameKey.symm
  · exact fwd.ne same.symm
  · exact lt_asymm fwdIdx backIdx

theorem Le.key_le (le : a.Le b) : a.key ≤ b.key :=
  not_lt.mp fun below => le (.inl below)

theorem Le.trans {c : HeapItem} (ab : a.Le b) (bc : b.Le c) : a.Le c := by
  rintro (below | ⟨same, idx⟩)
  · exact absurd (ab.key_le.trans bc.key_le) (not_le.mpr below)
  · have keys : a.key = b.key := le_antisymm ab.key_le (same ▸ bc.key_le)
    have keys' : b.key = c.key := keys.symm.trans same.symm
    rcases Nat.lt_or_ge b.idx a.idx with lt | ge
    · exact ab (.inr ⟨keys.symm, lt⟩)
    · exact bc (.inr ⟨keys'.symm, idx.trans_le ge⟩)

end HeapItem

/-- The queue is in popping order. -/
def HeapSorted (heap : List HeapItem) : Prop :=
  heap.Pairwise HeapItem.Le

theorem heapPush_perm (item : HeapItem) (heap : List HeapItem) :
    (heapPush item heap).Perm (item :: heap) := by
  induction heap with
  | nil => exact List.Perm.refl _
  | cons first rest ih =>
    rw [heapPush]
    split
    · exact List.Perm.refl _
    · exact (ih.cons first).trans (List.Perm.swap item first rest)

theorem HeapSorted.push {heap : List HeapItem} (sorted : HeapSorted heap) (item : HeapItem) :
    HeapSorted (heapPush item heap) := by
  induction heap with
  | nil => exact pairwise_singleton _ _
  | cons first rest ih =>
    obtain ⟨firstLe, restSorted⟩ := pairwise_cons.mp sorted
    rw [heapPush]
    split
    · rename_i less
      refine pairwise_cons.mpr ⟨?_, sorted⟩
      intro other otherMem
      rcases mem_cons.mp otherMem with rfl | inRest
      · exact less.le
      · exact less.le.trans (firstLe other inRest)
    rename_i notLess
    refine pairwise_cons.mpr ⟨?_, ih restSorted⟩
    intro other otherMem
    rcases mem_cons.mp ((heapPush_perm item rest).subset otherMem) with rfl | inRest
    · exact notLess
    · exact firstLe other inRest

/-! ## Draining -/

variable {σ : Type u} {ε : Type v} [Iter σ ε]

variable {it : σ} {out : List (Bytes × Option Bytes)} {final : Option ε}

theorem Drains.unique {out' : List (Bytes × Option Bytes)} {final' : Option ε}
    (first : Drains it out final) (second : Drains it out' final') :
    out = out' ∧ final = final' := by
  induction first generalizing out' with
  | stop invalid =>
    cases second with
    | stop => exact ⟨rfl, rfl⟩
    | step valid => exact absurd valid (by simp [invalid])
  | step valid rest ih =>
    cases second with
    | stop invalid => exact absurd valid (by simp [invalid])
    | step _ rest' =>
      obtain ⟨outEq, finalEq⟩ := ih rest'
      exact ⟨by rw [outEq], finalEq⟩

theorem Drains.of_valid (drains : Drains it out final) (valid : isValid it = true) :
    ∃ tail, out = (key it, value it) :: tail ∧ Drains (next it) tail final := by
  cases drains with
  | stop invalid => exact absurd valid (by simp [invalid])
  | step _ rest => exact ⟨_, rfl, rest⟩

theorem Drains.of_invalid (drains : Drains it out final) (invalid : isValid it = false) :
    out = [] ∧ final = err it := by
  cases drains with
  | stop _ => exact ⟨rfl, rfl⟩
  | step valid _ => exact absurd valid (by simp [invalid])

theorem flatMap_range_getElem? {α : Type u} {β : Type v} (xs : List α) (f : α → List β) :
    ((List.range xs.length).flatMap fun i => (xs[i]?).elim [] f) = xs.flatMap f := by
  induction xs with
  | nil => rfl
  | cons x xs ih =>
    rw [length_cons, range_succ_eq_map, flatMap_cons, flatMap_cons,
      flatMap_map, ← ih]
    rfl

theorem flatMap_filter_of_nil {α : Type u} {β : Type v} {xs : List α} {p : α → Bool}
    {f : α → List β} (empty : ∀ x ∈ xs, p x = false → f x = []) :
    (xs.filter p).flatMap f = xs.flatMap f := by
  induction xs with
  | nil => rfl
  | cons x xs ih =>
    rcases forall_mem_cons.mp empty with ⟨here, later⟩
    cases test : p x with
    | true => rw [filter_cons_of_pos test, flatMap_cons, flatMap_cons, ih later]
    | false =>
      rw [filter_cons_of_neg (by simp [test]), flatMap_cons, here test, ih later, nil_append]

namespace MergeIterator

section Items

omit [Iter σ ε]

/-- The items of the children that still have entries, the current one first. -/
def items (m : MergeIterator σ ε) : List HeapItem :=
  m.cur.toList ++ m.heap

theorem items_advance (m : MergeIterator σ ε) : m.advance.items = m.heap := by
  unfold advance
  cases m.heap <;> simp [items]

@[simp]
theorem advance_iters (m : MergeIterator σ ε) : m.advance.iters = m.iters := by
  unfold advance
  cases m.heap <;> rfl

@[simp]
theorem advance_err (m : MergeIterator σ ε) : m.advance.err = m.err := by
  unfold advance
  cases m.heap <;> rfl

theorem advance_front (m : MergeIterator σ ε) : m.advance.cur = none → m.advance.heap = [] := by
  cases heap : m.heap with
  | nil => simp [advance, heap]
  | cons item rest => simp [advance, heap]

end Items

variable {item : HeapItem} {it : σ}

/-- A step of a merge without error, by what its current child does next. -/
theorem step_eq {m : MergeIterator σ ε} (noError : m.err = none) (current : m.cur = some item)
    (found : m.iters[item.idx]? = some it) :
    m.step =
      let moved := { m with iters := m.iters.set item.idx (next it) }
      match Iter.err (next it) with
      | some e => { moved with err := some e }
      | none =>
        if isValid (next it) then
          advance { moved with heap := heapPush ⟨key (next it), item.idx⟩ m.heap }
        else advance moved := by
  simp only [step, current, noError, Option.isSome_none, Bool.false_eq_true, if_false, pushNext,
    found]
  cases failure : Iter.err (next it) with
  | some e => simp
  | none =>
    by_cases valid : isValid (next it) = true <;> simp [valid]

@[simp]
theorem length_step (m : MergeIterator σ ε) : m.step.iters.length = m.iters.length := by
  have pushed : ∀ idx, (m.pushNext idx).iters.length = m.iters.length := by
    intro idx
    unfold pushNext
    cases m.iters[idx]? with
    | none => rfl
    | some it =>
      dsimp only
      cases Iter.err (next it) with
      | some e => simp
      | none => by_cases valid : isValid (next it) = true <;> simp [valid]
  unfold step
  cases m.cur with
  | none => rfl
  | some item =>
    dsimp only
    split
    · rfl
    split
    · exact pushed _
    · rw [advance_iters, pushed]

/-- The merge is under way.  `outs` is what the children of the items have left,
`fins` is the error each child ends with, and `failedAtStart` are the children
that had an error from the start. -/
structure Running (failedAtStart : Nat → Prop) (fins : Nat → Option ε)
    (outs : Nat → List (Bytes × Option Bytes)) (m : MergeIterator σ ε) : Prop where
  noError : m.err = none
  front : m.cur = none → m.heap = []
  sorted : HeapSorted m.items
  nodup : (m.items.map HeapItem.idx).Nodup
  started : ∀ item ∈ m.items, ¬ failedAtStart item.idx
  standing : ∀ item ∈ m.items, ∃ it, m.iters[item.idx]? = some it ∧ isValid it = true ∧
    Iter.key it = item.key ∧ Drains it (outs item.idx) (fins item.idx)
  idle : ∀ i it, m.iters[i]? = some it → (∀ item ∈ m.items, item.idx ≠ i) →
    isValid it = false ∧ fins i = Iter.err it ∧ (Iter.err it = none ∨ failedAtStart i)

variable {failedAtStart : Nat → Prop} {fins : Nat → Option ε}
  {outs : Nat → List (Bytes × Option Bytes)} {m : MergeIterator σ ε}

/-- What the items have left, in the order of the items. -/
def pending (outs : Nat → List (Bytes × Option Bytes)) (items : List HeapItem) :
    List (Bytes × Option Bytes) :=
  items.flatMap fun item => outs item.idx

/-- Only children that failed at the start report an error while the merge is
under way. -/
theorem Running.err_eq_none (running : Running failedAtStart fins outs m) {i : Nat}
    (found : m.iters[i]? = some it) (started : ¬ failedAtStart i) : Iter.err it = none := by
  by_cases active : ∃ item ∈ m.items, item.idx = i
  · obtain ⟨item, itemMem, rfl⟩ := active
    obtain ⟨it', found', valid, _⟩ := running.standing item itemMem
    obtain rfl : it = it' := Option.some.inj (found.symm.trans found')
    by_contra failed
    exact absurd valid (by simp [invalid_of_err it failed])
  · push Not at active
    exact ((running.idle i it found active).2.2).resolve_right started

/-- The item of a child that has just been advanced, if it is valid. -/
def freshItem (it : σ) (idx : Nat) : List HeapItem :=
  if isValid it then [⟨key it, idx⟩] else []

theorem mem_freshItem {idx : Nat} :
    item ∈ freshItem it idx ↔ isValid it = true ∧ item = ⟨key it, idx⟩ := by
  rw [freshItem]
  split <;> simp [*]

/-- Replacing the current item by that of its advanced child. -/
theorem Running.replace (running : Running failedAtStart fins outs m) {heap : List HeapItem}
    (itemsEq : m.items = item :: heap) (inRange : item.idx < m.iters.length)
    {tail : List (Bytes × Option Bytes)} (noError : Iter.err it = none)
    (drains : Drains it tail (fins item.idx)) (m' : MergeIterator σ ε)
    (iters' : m'.iters = m.iters.set item.idx it) (err' : m'.err = none)
    (front' : m'.cur = none → m'.heap = []) (sorted' : HeapSorted m'.items)
    (perm' : m'.items.Perm (freshItem it item.idx ++ heap)) :
    Running failedAtStart fins (Function.update outs item.idx tail) m' ∧
      (tail ++ pending outs heap).Perm
        (pending (Function.update outs item.idx tail) m'.items) := by
  have nodup := running.nodup
  rw [itemsEq, map_cons, nodup_cons] at nodup
  have distinct : ∀ other ∈ heap, other.idx ≠ item.idx := by
    intro other otherMem same
    exact nodup.1 (same ▸ mem_map_of_mem otherMem)
  have self : m'.iters[item.idx]? = some it := by
    rw [iters', getElem?_set_self inRange]
  have others : ∀ i, i ≠ item.idx → m'.iters[i]? = m.iters[i]? := by
    intro i different
    rw [iters', getElem?_set_ne (Ne.symm different)]
  refine ⟨⟨err', front', sorted', ?_, ?_, ?_, ?_⟩, ?_⟩
  · refine (perm'.map HeapItem.idx).nodup_iff.mpr ?_
    by_cases valid : isValid it = true
    · simpa [freshItem, valid] using nodup
    · simpa [freshItem, valid] using nodup.2
  · intro other otherMem
    rcases mem_append.mp (perm'.subset otherMem) with isFresh | inHeap
    · obtain ⟨_, rfl⟩ := mem_freshItem.mp isFresh
      exact running.started item (by simp [itemsEq])
    · exact running.started other (itemsEq ▸ mem_cons_of_mem item inHeap)
  · intro other otherMem
    rcases mem_append.mp (perm'.subset otherMem) with isFresh | inHeap
    · obtain ⟨valid, rfl⟩ := mem_freshItem.mp isFresh
      exact ⟨it, self, valid, rfl, by simpa using drains⟩
    obtain ⟨it', found', rest⟩ := running.standing other
      (itemsEq ▸ mem_cons_of_mem item inHeap)
    refine ⟨it', by rw [others _ (distinct other inHeap), found'], ?_⟩
    rwa [Function.update_of_ne (distinct other inHeap)]
  · intro i it' found' inactive
    by_cases same : i = item.idx
    · subst same
      obtain rfl : it = it' := Option.some.inj (self.symm.trans found')
      have invalid : isValid it = false := by
        by_contra valid
        refine inactive ⟨key it, item.idx⟩ (perm'.symm.subset (mem_append_left _ ?_)) rfl
        exact mem_freshItem.mpr ⟨Bool.eq_true_of_not_eq_false valid, rfl⟩
      exact ⟨invalid, (drains.of_invalid invalid).2, .inl noError⟩
    rw [others i same] at found'
    refine running.idle i it' found' ?_
    intro other otherMem
    rw [itemsEq] at otherMem
    rcases mem_cons.mp otherMem with rfl | inHeap
    · exact Ne.symm same
    · exact inactive other (perm'.symm.subset (mem_append_right _ inHeap))
  · refine List.Perm.trans (List.Perm.of_eq ?_) (perm'.symm.flatMap_right _)
    have heapEq : pending (Function.update outs item.idx tail) heap = pending outs heap := by
      refine flatMap_congr fun other otherMem => ?_
      rw [Function.update_of_ne (distinct other otherMem)]
    rw [flatMap_append]
    refine congrArg₂ _ ?_ heapEq.symm
    by_cases valid : isValid it = true
    · simp [freshItem, valid]
    · have empty := (drains.of_invalid (by simpa using valid)).1
      simp [freshItem, valid, empty]

/-- A step whose child does not fail replaces the current item by that of the
advanced child. -/
theorem step_items_perm (noError : m.err = none) (current : m.cur = some item)
    (found : m.iters[item.idx]? = some it) (fine : Iter.err (next it) = none) :
    m.step.items.Perm (freshItem (next it) item.idx ++ m.heap) := by
  have stepEq := step_eq noError current found
  simp only [fine] at stepEq
  rw [stepEq, freshItem]
  split
  · rw [items_advance]
    exact heapPush_perm _ _
  · rw [items_advance]
    exact List.Perm.refl _

section

variable (running : Running failedAtStart fins outs m)

include running

/-- One step of a merge under way: it stands on the first pair its current child
has left, and either goes on without it or keeps the error the child ends with. -/
theorem Running.step (current : m.cur = some item) :
    ∃ tail, outs item.idx = (Iter.key m, Iter.value m) :: tail ∧ Iter.key m = item.key ∧
      (Running failedAtStart fins (Function.update outs item.idx tail) m.step ∧
          (pending outs m.items).Perm
            ((Iter.key m, Iter.value m) ::
              pending (Function.update outs item.idx tail) m.step.items) ∨
        ∃ e, fins item.idx = some e ∧ tail = [] ∧ m.step.err = some e) := by
  have itemsEq : m.items = item :: m.heap := by simp [items, current]
  obtain ⟨it, found, valid, keyEq, drains⟩ := running.standing item (by simp [itemsEq])
  have inRange : item.idx < m.iters.length := (List.getElem?_eq_some_iff.mp found).1
  have currentEq : m.current = some it := by simp [MergeIterator.current, current, found]
  have keyM : Iter.key m = Iter.key it := by
    change (m.current).elim [] Iter.key = _
    rw [currentEq]
    rfl
  have valueM : Iter.value m = Iter.value it := by
    change (m.current).bind Iter.value = _
    rw [currentEq]
    rfl
  obtain ⟨tail, outsEq, rest⟩ := drains.of_valid valid
  refine ⟨tail, by rw [keyM, valueM, outsEq], by rw [keyM, keyEq], ?_⟩
  have stepEq := step_eq running.noError current found
  have heapSorted : HeapSorted m.heap := (pairwise_cons.mp (itemsEq ▸ running.sorted)).2
  have pendingEq : pending outs m.items =
      (Iter.key m, Iter.value m) :: (tail ++ pending outs m.heap) := by
    rw [pending, itemsEq, flatMap_cons, outsEq, keyM, valueM]
    rfl
  cases failure : Iter.err (next it) with
  | some e =>
    right
    obtain ⟨tailEq, finEq⟩ := rest.of_invalid (invalid_of_err _ (by simp [failure]))
    refine ⟨e, by rw [finEq, failure], tailEq, ?_⟩
    simp [stepEq, failure]
  | none =>
    left
    have itemsPerm := step_items_perm running.noError current found failure
    simp only [failure] at stepEq
    have advanced : m.step.iters = m.iters.set item.idx (next it) ∧ m.step.err = none ∧
        (m.step.cur = none → m.step.heap = []) ∧ HeapSorted m.step.items := by
      rw [stepEq]
      split
      · rw [advance_iters, advance_err, items_advance]
        exact ⟨rfl, running.noError, advance_front _, heapSorted.push _⟩
      · rw [advance_iters, advance_err, items_advance]
        exact ⟨rfl, running.noError, advance_front _, heapSorted⟩
    obtain ⟨running', perm⟩ := running.replace itemsEq inRange failure rest m.step advanced.1
      advanced.2.1 advanced.2.2.1 advanced.2.2.2 itemsPerm
    exact ⟨running', pendingEq ▸ perm.cons _⟩

/-- A merge without a current item is at its end. -/
theorem Running.drains_of_idle (current : m.cur = none) :
    m.items = [] ∧ Drains m [] none ∧ ∀ i < m.iters.length, ¬ failedAtStart i → fins i = none := by
  have idleAll : m.items = [] := by simp [items, current, running.front current]
  have stopped : Drains m [] m.err := Drains.stop (by change valid m = false; simp [valid, current])
  rw [running.noError] at stopped
  refine ⟨idleAll, stopped, ?_⟩
  intro i inRange started
  have idle := running.idle i _ (getElem?_eq_getElem inRange) (by simp [idleAll])
  rw [idle.2.1]
  exact idle.2.2.resolve_right started

theorem Running.valid_of_current (current : m.cur = some item) : isValid m = true := by
  change valid m = true
  simp [valid, current, running.noError]

/-- A merge under way comes to an end.  If it ends without an error it has
emitted everything, and no child that took part ends with an error; an error it
ends with is that of a child that took part. -/
theorem Running.drains :
    ∃ emitted final, Drains m emitted final ∧ emitted.Subperm (pending outs m.items) ∧
      (final = none → emitted.Perm (pending outs m.items) ∧
        ∀ i < m.iters.length, ¬ failedAtStart i → fins i = none) ∧
      ∀ e, final = some e → ∃ i, ¬ failedAtStart i ∧ fins i = some e := by
  generalize size : (pending outs m.items).length = n
  induction n generalizing m outs with
  | zero =>
    cases current : m.cur with
    | none =>
      obtain ⟨idle, drains, ended⟩ := running.drains_of_idle current
      rw [idle]
      exact ⟨[], none, drains, nil_subperm, fun _ => ⟨List.Perm.nil, ended⟩, by simp⟩
    | some item =>
      obtain ⟨tail, outsEq, _⟩ := running.step current
      simp [pending, items, current, outsEq] at size
  | succ n ih =>
    cases current : m.cur with
    | none =>
      have idle := (running.drains_of_idle current).1
      simp [idle, pending] at size
    | some item =>
      have valid := running.valid_of_current current
      obtain ⟨tail, outsEq, _, ⟨running', perm⟩ | ⟨e, finEq, tailEq, failed⟩⟩ :=
        running.step current
      · have size' := perm.length_eq
        rw [size, length_cons, Nat.succ_inj] at size'
        obtain ⟨emitted, final, drains, sub, complete, blamed⟩ := ih running' size'.symm
        refine ⟨_, final, Drains.step valid drains, ?_, ?_, blamed⟩
        · exact ((subperm_cons _).mpr sub).trans perm.symm.subperm
        intro noError
        obtain ⟨emittedPerm, ended⟩ := complete noError
        refine ⟨(emittedPerm.cons _).trans perm.symm, ?_⟩
        rwa [length_step] at ended
      have stopped : Drains m.step [] m.step.err :=
        Drains.stop (invalid_of_err m.step (by change m.step.err ≠ none; simp [failed]))
      rw [failed] at stopped
      refine ⟨_, some e, Drains.step valid stopped, ?_, by simp, ?_⟩
      · refine singleton_subperm_iff.mpr (mem_flatMap.mpr ⟨item, ?_, ?_⟩)
        · simp [items, current]
        · simp [outsEq]
      intro e' sameError
      refine ⟨item.idx, running.started item (by simp [items, current]), ?_⟩
      rw [finEq, sameError]

/-- The keys that are still to come are not below the current one. -/
theorem Running.key_le (ascending : ∀ i, (outs i).Pairwise fun first second => first.1 < second.1)
    (current : m.cur = some item) {pair : Bytes × Option Bytes}
    (mem : pair ∈ pending outs m.items) : item.key ≤ pair.1 := by
  obtain ⟨other, otherMem, pairMem⟩ := mem_flatMap.mp mem
  obtain ⟨it, _, valid, keyEq, drains⟩ := running.standing other otherMem
  obtain ⟨tail, outsEq, _⟩ := drains.of_valid valid
  have otherLe : other.key ≤ pair.1 := by
    have sorted := ascending other.idx
    rw [outsEq] at sorted pairMem
    rcases mem_cons.mp pairMem with rfl | inTail
    · exact keyEq.ge
    · exact keyEq ▸ ((pairwise_cons.mp sorted).1 pair inTail).le
  have itemsEq : m.items = item :: m.heap := by simp [items, current]
  have sorted := running.sorted
  rw [itemsEq] at otherMem sorted
  rcases mem_cons.mp otherMem with rfl | inHeap
  · exact otherLe
  · exact ((pairwise_cons.mp sorted).1 other inHeap).key_le.trans otherLe

/-- A merge of ascending children emits its keys in order. -/
theorem Running.emitted_sorted
    (ascending : ∀ i, (outs i).Pairwise fun first second => first.1 < second.1)
    {emitted : List (Bytes × Option Bytes)} {final : Option ε} (drains : Drains m emitted final) :
    emitted.Pairwise fun first second => first.1 ≤ second.1 := by
  induction drains generalizing outs with
  | stop _ => exact List.Pairwise.nil
  | @step m rest final valid drains ih =>
    cases current : m.cur with
    | none =>
      have invalid : isValid m = false := by
        change MergeIterator.valid m = false
        simp [MergeIterator.valid, current]
      exact absurd valid (by simp [invalid])
    | some item =>
      obtain ⟨tail, outsEq, keyEq, ⟨running', perm⟩ | ⟨e, _, _, failed⟩⟩ :=
        running.step current
      · have ascending' : ∀ i, (Function.update outs item.idx tail i).Pairwise
            fun first second => first.1 < second.1 := by
          intro i
          by_cases same : i = item.idx
          · subst same
            rw [Function.update_self]
            exact (pairwise_cons.mp (outsEq ▸ ascending item.idx)).2
          · rw [Function.update_of_ne same]
            exact ascending i
        refine pairwise_cons.mpr ⟨?_, ih running' ascending'⟩
        intro pair pairMem
        obtain ⟨emitted', final', drains', sub, _⟩ := running'.drains
        obtain ⟨rfl, rfl⟩ := drains.unique drains'
        rw [keyEq]
        exact running.key_le ascending current
          (perm.symm.subset (mem_cons_of_mem _ (sub.subset pairMem)))
      · have invalid : isValid m.step = false :=
          invalid_of_err m.step (by change m.step.err ≠ none; simp [failed])
        rw [(drains.of_invalid invalid).1]
        exact pairwise_singleton _ _

end

/-! ## Construction -/

/-- The first items are those of the valid children. -/
theorem initialHeap_perm (idx : Nat) (iters : List σ) :
    (initialHeap idx iters).Perm
      (((iters.zipIdx idx).filter fun p => isValid p.1).map fun p => ⟨key p.1, p.2⟩) := by
  induction iters generalizing idx with
  | nil => exact List.Perm.refl _
  | cons first rest ih =>
    rw [initialHeap, zipIdx_cons, filter_cons]
    split
    · exact (heapPush_perm _ _).trans ((ih (idx + 1)).cons _)
    · exact ih (idx + 1)

theorem mem_initialHeap {iters : List σ} :
    item ∈ initialHeap 0 iters ↔
      ∃ it j, iters[j]? = some it ∧ isValid it = true ∧ item = ⟨key it, j⟩ := by
  simp [(initialHeap_perm 0 iters).mem_iff, mem_zipIdx_iff_getElem?, and_assoc,
    @eq_comm _ item]

theorem initialHeap_sorted (idx : Nat) (iters : List σ) : HeapSorted (initialHeap idx iters) := by
  induction iters generalizing idx with
  | nil => exact List.Pairwise.nil
  | cons first rest ih =>
    rw [initialHeap]
    split
    · exact (ih (idx + 1)).push _
    · exact ih (idx + 1)

theorem initialHeap_nodup (idx : Nat) (iters : List σ) :
    ((initialHeap idx iters).map HeapItem.idx).Nodup := by
  rw [((initialHeap_perm idx iters).map _).nodup_iff, map_map]
  have indices : ((iters.zipIdx idx).map Prod.snd).Nodup := by
    rw [zipIdx_map_snd]
    exact nodup_range' 1
  exact indices.sublist (filter_sublist.map Prod.snd)

/-- The children that report an error when the merge is constructed. -/
def FailedAtStart (start : List σ) (i : Nat) : Prop :=
  ∃ it, start[i]? = some it ∧ Iter.err it ≠ none

@[simp]
theorem new_iters (start : List σ) : (new start : MergeIterator σ ε).iters = start := by
  simp [new]

/-- A new merge has everything still to emit. -/
theorem new_pending {start : List σ}
    (drains : ∀ i it, start[i]? = some it → Drains it (outs i) (fins i)) :
    (pending outs (new start : MergeIterator σ ε).items).Perm
      ((List.range start.length).flatMap outs) := by
  have itemsEq : (new start : MergeIterator σ ε).items = initialHeap 0 start := items_advance _
  rw [itemsEq, range_eq_range', ← zipIdx_map_snd, flatMap_map]
  apply ((initialHeap_perm 0 start).flatMap_right _).trans
  rw [flatMap_map, flatMap_filter_of_nil]
  rintro ⟨it, i⟩ mem invalid
  exact ((drains i it (mem_zipIdx_iff_getElem?.mp mem)).of_invalid invalid).1

/-- A new merge is under way. -/
theorem new_running {start : List σ}
    (drains : ∀ i it, start[i]? = some it → Drains it (outs i) (fins i)) :
    Running (FailedAtStart start) fins outs (new start) := by
  have itemsEq : (new start : MergeIterator σ ε).items = initialHeap 0 start := items_advance _
  refine ⟨by simp [new], advance_front _, ?_, ?_, ?_, ?_, ?_⟩
  · rw [itemsEq]
    exact initialHeap_sorted 0 start
  · rw [itemsEq]
    exact initialHeap_nodup 0 start
  · rw [itemsEq]
    rintro item itemMem ⟨it, found, failed⟩
    obtain ⟨it', j, found', valid, rfl⟩ := mem_initialHeap.mp itemMem
    obtain rfl : it' = it := Option.some.inj (found'.symm.trans found)
    exact absurd valid (by simp [invalid_of_err it' failed])
  · rw [itemsEq, new_iters]
    intro item itemMem
    obtain ⟨it, j, found, valid, rfl⟩ := mem_initialHeap.mp itemMem
    exact ⟨it, found, valid, rfl, drains j it found⟩
  · rw [itemsEq, new_iters]
    intro i it found inactive
    have invalid : isValid it = false := by
      by_contra valid
      refine inactive ⟨key it, i⟩ (mem_initialHeap.mpr ⟨it, i, found, ?_, rfl⟩) rfl
      simpa using valid
    refine ⟨invalid, ((drains i it found).of_invalid invalid).2, ?_⟩
    by_cases failed : Iter.err it = none
    · exact .inl failed
    · exact .inr ⟨it, found, failed⟩

end MergeIterator

end Theseon.Iterator
