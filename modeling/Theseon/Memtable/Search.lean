import Theseon.Memtable.SkipList

/-!
# Searching the skip list

On every level the search stops behind the last node below its target.  Reading
goes on along the bottom level, so `getAt` is `lookupAt` on the stored entries
in key order.
-/

namespace Theseon.Memtable

open Lib KV List

namespace SkipList

variable {s : SkipList} {order : List Nat}

/-- The test of the search loop. -/
def below (s : SkipList) (target : Bytes) (x : Nat) : Bool :=
  s.keyAt x < target

/-- The last node of a level that lies below the target, or the head. -/
def lastBelow (s : SkipList) (order : List Nat) (target : Bytes) (level : Nat) : Nat :=
  ((s.levelOf order level).takeWhile (s.below target)).getLastD head

namespace Ordered

theorem downward (ordered : Ordered s order) (target : Bytes) :
    Downward (s.below target) order := by
  refine ordered.sorted.imp ?_
  intro x y keyLe yBelow
  simp only [below, decide_eq_true_eq] at yBelow ⊢
  exact lt_of_le_of_lt keyLe yBelow

theorem levelOf_zero (ordered : Ordered s order) : s.levelOf order 0 = order := by
  refine filter_eq_self.mpr ?_
  intro x xMem
  exact decide_eq_true (ordered.towers x xMem).1

variable {level : Nat}

section

variable (ordered : Ordered s order)

include ordered

theorem levelOf_eq_nil (high : s.height ≤ level) : s.levelOf order level = [] := by
  refine filter_eq_nil_iff.mpr ?_
  intro x xMem
  have bounded := (ordered.towers x xMem).2
  simp only [decide_eq_true_eq]
  omega

theorem lastBelow_eq_head (high : s.height ≤ level) (target : Bytes) :
    s.lastBelow order target level = head := by
  rw [lastBelow, ordered.levelOf_eq_nil high]
  rfl

/-- The node reached on the level above splits the current level, and everything
up to it is below the target. -/
theorem exists_split (target : Bytes) (level : Nat) :
    ∃ front back, s.levelOf order level = front ++ back ∧
      front.getLastD head = s.lastBelow order target (level + 1) ∧
      ∀ x ∈ front, s.below target x := by
  set upper := (s.levelOf order (level + 1)).takeWhile (s.below target) with upperEq
  rcases eq_nil_or_concat upper with empty | ⟨init, x, split⟩
  · refine ⟨[], s.levelOf order level, rfl, ?_, by simp⟩
    simp only [lastBelow, ← upperEq, empty, getLastD_nil]
  have xMem : x ∈ upper := by simp [split]
  have xBelow : s.below target x := mem_takeWhile_imp (upperEq ▸ xMem)
  have xUpper : x ∈ s.levelOf order (level + 1) :=
    ( takeWhile_prefix _).subset (upperEq ▸ xMem)
  obtain ⟨xOrder, xTall⟩ := mem_filter.mp xUpper
  have xLevel : x ∈ s.levelOf order level := by
    refine mem_filter.mpr ⟨xOrder, ?_⟩
    simp only [decide_eq_true_eq] at xTall ⊢
    omega
  obtain ⟨front, back, levelEq⟩ := append_of_mem xLevel
  have down : Downward (s.below target) (s.levelOf order level) :=
    (ordered.downward target).filter _
  refine ⟨front ++ [x], back, by simp [levelEq], ?_, ?_⟩
  · simp only [lastBelow, ← upperEq, split, concat_eq_append, getLastD_concat]
  intro y yMem
  rcases mem_append.mp yMem with yFront | yLast
  · rw [levelEq] at down
    exact (pairwise_append.mp down).2.2 y yFront x (by simp) xBelow
  · rwa [mem_singleton.mp yLast]

/-- One level of the search loop. -/
theorem advance_lastBelow (target : Bytes) (levelLt : level < maxHeight) :
    advanceWhile (s.nextAt level) (s.below target) s.nodes.length
        (s.lastBelow order target (level + 1)) =
      s.lastBelow order target level := by
  obtain ⟨front, back, levelEq, lastEq, frontBelow⟩ := ordered.exists_split target level
  have chain := ordered.chain level levelLt
  rw [levelEq] at chain
  have short : back.length ≤ s.nodes.length := by
    have bound : (s.levelOf order level).length ≤ order.length := length_filter_le _ _
    rw [levelEq, length_append] at bound
    have := ordered.count
    omega
  rw [← lastEq, chain.drop_front.advanceWhile_eq _ short, lastBelow, levelEq,
    takeWhile_append_of_pos frontBelow, getLastD_append]

/-- The search loop records the last node below the target on every level. -/
theorem descend_eq (target : Bytes) {levels : Nat} (levelsLe : levels ≤ maxHeight)
    (prev : List Nat) :
    s.descend target levels (s.lastBelow order target levels) prev =
      (s.lastBelow order target 0,
        (List.range levels).map (s.lastBelow order target) ++ prev) := by
  induction levels generalizing prev with
  | zero => rfl
  | succ level ih =>
    have step := ordered.advance_lastBelow target (Nat.lt_of_succ_le levelsLe)
    calc
      _ = s.descend target level (s.lastBelow order target level)
            (s.lastBelow order target level :: prev) := by rw [← step]; rfl
      _ = _ := by rw [ih (Nat.le_of_succ_le levelsLe), range_succ]; simp

theorem findGreaterOrEqual_eq (target : Bytes) :
    s.findGreaterOrEqual target =
      ((order.dropWhile (s.below target)).head?,
        (List.range s.height).map (s.lastBelow order target)) := by
  have chain := ordered.chain 0 (by decide)
  rw [ordered.levelOf_zero,
    ← takeWhile_append_dropWhile (p := s.below target) (l := order)] at chain
  have first : s.nextAt 0 (s.lastBelow order target 0) =
      (order.dropWhile (s.below target)).head? := by
    rw [lastBelow, ordered.levelOf_zero]
    exact chain.drop_front.next_eq_head?
  rw [findGreaterOrEqual]
  conv_lhs =>
    rw [← ordered.lastBelow_eq_head le_rfl target, ordered.descend_eq target ordered.height.2]
  simp [first]

/-- On every level of its tower an insertion finds the node to splice behind. -/
theorem predecessors_getD (key : Bytes) (h level : Nat) :
    (s.predecessors key h).getD level head = s.lastBelow order key level := by
  rw [predecessors, ordered.findGreaterOrEqual_eq, getD_eq_getElem?_getD]
  by_cases used : level < s.height
  · rw [getElem?_append_left (by simpa using used)]
    simp [used]
  rw [ordered.lastBelow_eq_head (Nat.le_of_not_lt used),
    getElem?_append_right (by simpa using used), getElem?_replicate]
  split <;> rfl

end

end Ordered

/-! ## Reading -/

/-- The entries in the order of the bottom level. -/
def entriesOf (s : SkipList) (order : List Nat) : List Entry :=
  order.map s.entryAt

theorem seek_entriesOf (s : SkipList) (order : List Nat) (target : Bytes) :
    seek target (s.entriesOf order) = s.entriesOf (order.dropWhile (s.below target)) := by
  rw [seek, entriesOf, entriesOf, dropWhile_map]
  rfl

theorem getAtFrom_eq (s : SkipList) (user : Bytes) (maxSeq : Nat) {x : Nat} {rest : List Nat}
    (chain : Chain (s.nextAt 0) x rest) {fuel : Nat} (enough : rest.length ≤ fuel) :
    s.getAtFrom user maxSeq fuel (s.nextAt 0 x) =
      walkVersions user maxSeq (s.entriesOf rest) := by
  induction rest generalizing x fuel with
  | nil =>
    rw [show s.nextAt 0 x = none from chain]
    cases fuel <;> rfl
  | cons y rest ih =>
    rw [chain.1]
    cases fuel with
    | zero => simp at enough
    | succ fuel =>
      rw [getAtFrom, ih chain.2 (by simpa using enough)]
      rfl

/-- `getAt` is the lookup in the sorted run of stored entries. -/
theorem Ordered.getAt_eq (ordered : Ordered s order) (user : Bytes) (maxSeq : Nat) :
    s.getAt user maxSeq = lookupAt (s.entriesOf order) user maxSeq := by
  have chain := ordered.chain 0 (by decide)
  rw [ordered.levelOf_zero, ← takeWhile_append_dropWhile
    (p := s.below (makeSearchKey user)) (l := order)] at chain
  have short : (order.dropWhile (s.below (makeSearchKey user))).length ≤ s.nodes.length := by
    have bound := (dropWhile_suffix (s.below (makeSearchKey user)) (l := order)).length_le
    have := ordered.count
    omega
  rw [getAt, ordered.findGreaterOrEqual_eq, ← chain.drop_front.next_eq_head?,
    getAtFrom_eq s user maxSeq chain.drop_front short, lookupAt, seek_entriesOf]

/-- `getNewest` looks at the first version the search meets. -/
theorem Ordered.getNewest_eq (ordered : Ordered s order) (user : Bytes) :
    s.getNewest user =
      ((seek (makeSearchKey user) (s.entriesOf order)).head?).bind fun entry =>
        if entry.user = user then some (entry.value, entry.seq) else none := by
  rw [getNewest, ordered.findGreaterOrEqual_eq, seek_entriesOf, entriesOf, head?_map]
  cases (order.dropWhile (s.below (makeSearchKey user))).head? <;> rfl

theorem Ordered.get_eq (ordered : Ordered s order) (user : Bytes) :
    s.get user =
      ((seek (makeSearchKey user) (s.entriesOf order)).head?).bind fun entry =>
        if entry.user = user then some entry.value else none := by
  rw [get, ordered.findGreaterOrEqual_eq, seek_entriesOf, entriesOf, head?_map]
  cases (order.dropWhile (s.below (makeSearchKey user))).head? <;> rfl

end SkipList

end Theseon.Memtable
