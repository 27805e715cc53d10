import Theseon.Memtable.Search

/-!
# Inserting into the skip list

Insertion splices one node into each level of its tower and so keeps the
representation invariant.  Read through the invariant, `put` is insertion into a
sorted list of entries, whatever the tower height is.
-/

namespace Theseon.Memtable

open Lib KV List

namespace SkipList

variable {s : SkipList} {order : List Nat}

/-! ## Splicing a node into the arena -/

/-- The arena after one pointer assignment of `put`. -/
def linked (s : SkipList) (prev level fresh : Nat) : SkipList :=
  { s with nodes := link s.nodes prev level fresh }

/-- The arena after the pointer assignments of `put` on the lowest `h` levels. -/
def spliced (s : SkipList) (prev : Nat → Nat) (h : Nat) : SkipList :=
  { s with
    nodes := (List.range h).foldl (fun nodes i => link nodes (prev i) i s.nodes.length) s.nodes }

theorem linked_getElem? (s : SkipList) (prev level fresh x : Nat) :
    (s.linked prev level fresh).nodes[x]? =
      (s.nodes[x]?).map fun old =>
        if prev = x then { old with next := old.next.set level (some fresh) } else old := by
  rw [linked, link, getElem?_modify]
  split <;> rfl

@[simp]
theorem length_linked (s : SkipList) (prev level fresh : Nat) :
    (s.linked prev level fresh).nodes.length = s.nodes.length := by
  simp [linked, link]

theorem spliced_succ (s : SkipList) (prev : Nat → Nat) (h : Nat) :
    s.spliced prev (h + 1) = (s.spliced prev h).linked (prev h) h s.nodes.length := by
  simp only [spliced, linked, range_succ, foldl_append, foldl_cons, foldl_nil]

@[simp]
theorem length_spliced (s : SkipList) (prev : Nat → Nat) (h : Nat) :
    (s.spliced prev h).nodes.length = s.nodes.length := by
  induction h with
  | zero => rfl
  | succ h ih => rw [spliced_succ, length_linked, ih]

/-- The assignments of `put` change pointers only, one on each level of the new tower. -/
theorem spliced_getElem? (s : SkipList) (prev : Nat → Nat) (h x : Nat) :
    (s.spliced prev h).nodes[x]? =
      (s.nodes[x]?).map fun old =>
        { old with
          next := old.next.mapIdx fun level pointer =>
            if level < h ∧ x = prev level then some s.nodes.length else pointer } := by
  induction h with
  | zero =>
    have same (old : Node) : old.next.mapIdx (fun _ pointer => pointer) = old.next :=
      List.ext_getElem? (by simp)
    simp [spliced, same]
  | succ h ih =>
    rw [spliced_succ, linked_getElem?, ih, Option.map_map]
    congr 1
    funext old
    have levels : ∀ level, level < h + 1 ∧ x = prev level ↔
        level < h ∧ x = prev level ∨ h = level ∧ prev h = x := by grind
    simp only [Function.comp_apply]
    split
    · congr 1
      apply List.ext_getElem?
      intro level
      simp only [getElem?_set, getElem?_mapIdx, length_mapIdx, levels]
      grind
    · rename_i other
      simp only [levels, other, and_false, or_false]

@[simp]
theorem entryAt_spliced (s : SkipList) (prev : Nat → Nat) (h x : Nat) :
    (s.spliced prev h).entryAt x = s.entryAt x := by
  simp only [entryAt, keyAt, valueAt, spliced_getElem?]
  cases s.nodes[x]? <;> rfl

@[simp]
theorem heightAt_spliced (s : SkipList) (prev : Nat → Nat) (h x : Nat) :
    (s.spliced prev h).heightAt x = s.heightAt x := by
  simp only [heightAt, spliced_getElem?]
  cases s.nodes[x]? <;> simp

theorem nextAt_spliced (s : SkipList) (prev : Nat → Nat) (h : Nat)
    (tall : ∀ level < h, level < s.heightAt (prev level)) (level x : Nat) :
    (s.spliced prev h).nextAt level x =
      if level < h ∧ x = prev level then some s.nodes.length else s.nextAt level x := by
  simp only [nextAt, spliced_getElem?]
  by_cases changed : level < h ∧ x = prev level
  · have room := tall level changed.1
    rw [← changed.2, heightAt] at room
    cases found : s.nodes[x]? with
    | none => simp [found] at room
    | some node => simp_all
  · cases s.nodes[x]? <;> simp [changed]

/-- The arena with one more node. -/
def pushed (s : SkipList) (node : Node) : SkipList :=
  { s with nodes := s.nodes ++ [node] }

section Pushed

variable {node : Node} {x : Nat}

theorem pushed_getElem?_of_lt (inArena : x < s.nodes.length) :
    (s.pushed node).nodes[x]? = s.nodes[x]? :=
  getElem?_append_left inArena

theorem pushed_getElem?_fresh : (s.pushed node).nodes[s.nodes.length]? = some node := by
  simp [pushed]

end Pushed

/-! ## Insertion -/

section Put

variable {key : Bytes} {value : Value} {h : Nat}

/-- The order of the nodes after an insertion. -/
def orderAfter (s : SkipList) (order : List Nat) (key : Bytes) : List Nat :=
  order.takeWhile (s.below key) ++ s.nodes.length :: order.dropWhile (s.below key)

theorem mem_orderAfter {x : Nat} :
    x ∈ s.orderAfter order key ↔ x = s.nodes.length ∨ x ∈ order := by
  conv_rhs => rw [← takeWhile_append_dropWhile (p := s.below key) (l := order)]
  simp only [orderAfter, mem_append, mem_cons]
  tauto

theorem length_orderAfter : (s.orderAfter order key).length = order.length + 1 := by
  conv_rhs => rw [← takeWhile_append_dropWhile (p := s.below key) (l := order)]
  simp only [orderAfter, length_append, length_cons]
  omega

theorem put_nodes (ordered : Ordered s order) :
    (s.put key value h).nodes =
      ((s.spliced (s.lastBelow order key) h).pushed
        { key := key
          value := value
          next := (List.range h).map fun i => s.nextAt i (s.lastBelow order key i) }).nodes := by
  simp only [put, ordered.predecessors_getD]
  rfl

theorem Ordered.lastBelow_mem (s : SkipList) (order : List Nat) (level : Nat) :
    s.lastBelow order key level ∈ head :: s.levelOf order level := by
  rcases mem_cons.mp (Chain.getLastD_mem head
    ((s.levelOf order level).takeWhile (s.below key))) with isHead | inFront
  · exact mem_cons.mpr (Or.inl isHead)
  · exact mem_cons_of_mem _ (( takeWhile_prefix _).subset inFront)

theorem Ordered.lastBelow_tall (ordered : Ordered s order) {level : Nat}
    (levelLt : level < maxHeight) : level < s.heightAt (s.lastBelow order key level) := by
  rcases mem_cons.mp (lastBelow_mem s order level) with isHead | inLevel
  · rwa [isHead, ordered.headTower]
  · simpa using (mem_filter.mp inLevel).2

theorem Ordered.length_pos (ordered : Ordered s order) : head < s.nodes.length := by
  have := ordered.count
  simp only [head]
  omega

section Old

variable {x : Nat} (ordered : Ordered s order) (inArena : x < s.nodes.length)
include ordered inArena

theorem put_getElem?_old :
    (s.put key value h).nodes[x]? = (s.spliced (s.lastBelow order key) h).nodes[x]? := by
  rw [put_nodes ordered]
  exact pushed_getElem?_of_lt (by simpa using inArena)

theorem entryAt_put_old : (s.put key value h).entryAt x = s.entryAt x := by
  rw [← entryAt_spliced s (s.lastBelow order key) h]
  simp only [entryAt, keyAt, valueAt, put_getElem?_old ordered inArena]

theorem heightAt_put_old : (s.put key value h).heightAt x = s.heightAt x := by
  rw [← heightAt_spliced s (s.lastBelow order key) h]
  simp only [heightAt, put_getElem?_old ordered inArena]

theorem nextAt_put_old (hLe : h ≤ maxHeight) (level : Nat) :
    (s.put key value h).nextAt level x =
      if level < h ∧ x = s.lastBelow order key level then some s.nodes.length
      else s.nextAt level x := by
  rw [← nextAt_spliced s (s.lastBelow order key) h
    fun level levelLt => ordered.lastBelow_tall (levelLt.trans_le hLe)]
  simp only [nextAt, put_getElem?_old ordered inArena]

end Old

variable (ordered : Ordered s order)
include ordered

theorem put_getElem?_fresh :
    (s.put key value h).nodes[s.nodes.length]? =
      some { key := key
             value := value
             next := (List.range h).map fun i => s.nextAt i (s.lastBelow order key i) } := by
  rw [put_nodes ordered, ← length_spliced s (s.lastBelow order key) h]
  exact pushed_getElem?_fresh

theorem entryAt_put_fresh : (s.put key value h).entryAt s.nodes.length = ⟨key, value⟩ := by
  simp only [entryAt, keyAt, valueAt, put_getElem?_fresh ordered, Option.elim]

theorem heightAt_put_fresh : (s.put key value h).heightAt s.nodes.length = h := by
  simp [heightAt, put_getElem?_fresh ordered]

theorem nextAt_put_fresh {level : Nat} (levelLt : level < h) :
    (s.put key value h).nextAt level s.nodes.length =
      s.nextAt level (s.lastBelow order key level) := by
  simp [nextAt, put_getElem?_fresh ordered, levelLt]

theorem length_put : (s.put key value h).nodes.length = s.nodes.length + 1 := by
  rw [put_nodes ordered]
  simp [pushed]

theorem levelOf_put (level : Nat) :
    (s.put key value h).levelOf (s.orderAfter order key) level =
      (s.levelOf order level).takeWhile (s.below key) ++
        ((if level < h then [s.nodes.length] else []) ++
          (s.levelOf order level).dropWhile (s.below key)) := by
  have old : ∀ part : List Nat, (∀ x ∈ part, x ∈ order) →
      (part.filter fun x => level < (s.put key value h).heightAt x) =
        part.filter fun x => level < s.heightAt x := by
    intro part inOrder
    refine filter_congr fun x xMem => ?_
    rw [heightAt_put_old ordered (ordered.inArena x (inOrder x xMem))]
  have down := ordered.downward key
  simp only [levelOf, orderAfter, filter_append, filter_cons,
    heightAt_put_fresh ordered, down.takeWhile_filter, down.dropWhile_filter,
    old _ fun x xMem => ( takeWhile_prefix _).subset xMem,
    old _ fun x xMem => (dropWhile_suffix _).subset xMem]
  by_cases tall : level < h <;> simp [tall]

theorem keyAt_put_old {x : Nat} (inArena : x < s.nodes.length) :
    (s.put key value h).keyAt x = s.keyAt x :=
  congrArg Entry.key (entryAt_put_old ordered inArena)

theorem keyAt_put_fresh : (s.put key value h).keyAt s.nodes.length = key :=
  congrArg Entry.key (entryAt_put_fresh ordered)

theorem orderAfter_sorted :
    (s.orderAfter order key).Pairwise
      fun x y => (s.put key value h).keyAt x ≤ (s.put key value h).keyAt y := by
  have oldKey : ∀ x ∈ order, (s.put key value h).keyAt x = s.keyAt x := fun x xMem =>
    keyAt_put_old ordered (ordered.inArena x xMem)
  have frontMem : ∀ x ∈ order.takeWhile (s.below key), x ∈ order ∧ s.keyAt x < key :=
    fun x xMem => ⟨( takeWhile_prefix _).subset xMem,
      by simpa [below] using mem_takeWhile_imp xMem⟩
  have backMem : ∀ x ∈ order.dropWhile (s.below key), x ∈ order ∧ key ≤ s.keyAt x := by
    intro x xMem
    rw [(ordered.downward key).dropWhile_eq_filter_not, mem_filter] at xMem
    exact ⟨xMem.1, by simpa [below] using xMem.2⟩
  refine pairwise_append.mpr ⟨?_, pairwise_cons.mpr ⟨?_, ?_⟩, ?_⟩
  · refine (ordered.sorted.sublist (takeWhile_sublist _)).imp_of_mem ?_
    intro x y xMem yMem keyLe
    rwa [oldKey x (frontMem x xMem).1, oldKey y (frontMem y yMem).1]
  · intro y yMem
    rw [keyAt_put_fresh ordered, oldKey y (backMem y yMem).1]
    exact (backMem y yMem).2
  · refine (ordered.sorted.sublist (dropWhile_sublist _)).imp_of_mem ?_
    intro x y xMem yMem keyLe
    rwa [oldKey x (backMem x xMem).1, oldKey y (backMem y yMem).1]
  · intro x xMem y yMem
    rw [oldKey x (frontMem x xMem).1]
    rcases mem_cons.mp yMem with rfl | yBack
    · rw [keyAt_put_fresh ordered]
      exact (frontMem x xMem).2.le
    · rw [oldKey y (backMem y yBack).1]
      exact (frontMem x xMem).2.le.trans (backMem y yBack).2

/-- The chain of a level after an insertion: spliced on the levels of the new
tower, untouched above. -/
theorem chain_put (hLe : h ≤ maxHeight) {level : Nat} (levelLt : level < maxHeight) :
    Chain ((s.put key value h).nextAt level) head
      ((s.put key value h).levelOf (s.orderAfter order key) level) := by
  have chain := ordered.chain level levelLt
  have inArena : ∀ x ∈ head :: s.levelOf order level, x < s.nodes.length := by
    intro x xMem
    rcases mem_cons.mp xMem with rfl | inLevel
    · exact ordered.length_pos
    · exact ordered.inArena x (mem_filter.mp inLevel).1
  have nodup : (head :: s.levelOf order level).Nodup :=
    ordered.nodup.sublist (filter_sublist.cons_cons head)
  have next := fun x xMem =>
    @nextAt_put_old s order key value h x ordered (inArena x xMem) hLe level
  rw [levelOf_put ordered]
  by_cases tall : level < h
  · simp only [tall, if_true, singleton_append]
    rw [← takeWhile_append_dropWhile (p := s.below key) (l := s.levelOf order level)]
      at chain nodup next
    refine chain.insert nodup ?_ (nextAt_put_fresh ordered tall) ?_
    · refine (next _ ?_).trans (if_pos ⟨tall, rfl⟩)
      rw [takeWhile_append_dropWhile]
      exact Ordered.lastBelow_mem s order level
    · intro y yMem distinct
      exact (next y yMem).trans (if_neg fun both => distinct both.2)
  · simp only [tall, if_false, nil_append, takeWhile_append_dropWhile]
    refine chain.congr fun y yMem => (next y yMem).trans (if_neg fun both => tall both.1)

/-- `put` keeps the representation invariant. -/
theorem Ordered.put (hPos : 1 ≤ h) (hLe : h ≤ maxHeight) :
    Ordered (s.put key value h) (s.orderAfter order key) where
  count := by rw [length_orderAfter, length_put ordered, ordered.count]
  inArena := by
    intro x xMem
    rw [length_put ordered]
    rcases mem_orderAfter.mp xMem with rfl | old
    · exact Nat.lt_succ_self _
    · exact Nat.lt_succ_of_lt (ordered.inArena x old)
  nodup := by
    have fresh : s.nodes.length ∉ head :: order := by
      intro freshMem
      rcases mem_cons.mp freshMem with isHead | inOrder
      · exact (ordered.length_pos).ne' isHead
      · exact lt_irrefl _ (ordered.inArena _ inOrder)
    have together := nodup_cons.mpr ⟨fresh, ordered.nodup⟩
    refine together.perm (((List.Perm.swap head s.nodes.length order).trans ?_))
    refine List.Perm.cons head ?_
    conv_lhs => rw [← takeWhile_append_dropWhile (p := s.below key) (l := order)]
    exact perm_middle.symm
  sorted := orderAfter_sorted ordered
  chain := fun level levelLt => chain_put ordered hLe levelLt
  towers := by
    intro x xMem
    rcases mem_orderAfter.mp xMem with rfl | old
    · rw [heightAt_put_fresh ordered]
      exact ⟨hPos, le_max_right _ _⟩
    · rw [heightAt_put_old ordered (ordered.inArena x old)]
      exact ⟨(ordered.towers x old).1, (ordered.towers x old).2.trans (le_max_left _ _)⟩
  headTower := by
    rw [heightAt_put_old ordered ordered.length_pos, ordered.headTower]
  height := ⟨ordered.height.1.trans (le_max_left _ _), max_le ordered.height.2 hLe⟩
  size := by
    rw [length_orderAfter, ← ordered.size]
    rfl

theorem entriesOf_put :
    (s.put key value h).entriesOf (s.orderAfter order key) =
      insertEntry ⟨key, value⟩ (s.entriesOf order) := by
  have old : ∀ part : List Nat, (∀ x ∈ part, x ∈ order) →
      part.map (s.put key value h).entryAt = part.map s.entryAt := by
    intro part inOrder
    refine map_congr_left fun x xMem => ?_
    exact entryAt_put_old ordered (ordered.inArena x (inOrder x xMem))
  simp only [entriesOf, orderAfter, map_append, map_cons,
    entryAt_put_fresh ordered,
    old _ fun x xMem => ( takeWhile_prefix _).subset xMem,
    old _ fun x xMem => (dropWhile_suffix _).subset xMem]
  rw [insertEntry, seek, takeWhile_map, dropWhile_map]
  rfl

end Put

end SkipList

end Theseon.Memtable
