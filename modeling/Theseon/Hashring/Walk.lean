import Theseon.Hashring.Ring
import Theseon.Lib.Circular

/-!
# The walk around the ring

A walk from a hash meets the points at or behind the hash and then, past the end of the
ring, those before it.  The replicas of a key are the first owners that the walk from
its hash meets.
-/

namespace Theseon.Hashring

open Lib List
open Std (ExtTreeMap ExtTreeSet)

attribute [ext] Ring Vnode

/-- The owners of some points, each of them where it is met first. -/
def owners (points : List Vnode) : List Bytes :=
  (points.map Vnode.nodeID).eraseDups

variable {points : List Vnode}

theorem mem_owners {id : Bytes} :
    id ∈ owners points ↔ ∃ v ∈ points, v.nodeID = id := by
  rw [owners, mem_eraseDups, mem_map]

theorem nodup_owners (points : List Vnode) : (owners points).Nodup :=
  nodup_eraseDups _

theorem head?_owners (points : List Vnode) :
    (owners points).head? = points.head?.map Vnode.nodeID := by
  cases points <;> simp [owners, eraseDups_cons]

theorem owners_append (front back : List Vnode) :
    ∃ later, owners (front ++ back) = owners front ++ later := by
  rw [owners, map_append, eraseDups_append]
  exact ⟨_, rfl⟩

namespace Ring

variable {r : Ring} {n : Nat}

theorem mem_nodes_of_owners (onRing : ∀ v ∈ points, v ∈ r.vnodes) {id : Bytes}
    (mem : id ∈ owners points) : id ∈ r.nodes := by
  rcases mem_owners.mp mem with ⟨v, vMem, rfl⟩
  exact r.owned v (onRing v vMem)

theorem length_owners_le (onRing : ∀ v ∈ points, v ∈ r.vnodes) :
    (owners points).length ≤ r.nodes.size := by
  rw [← ExtTreeMap.length_keys]
  apply (nodup_owners points).length_le_of_subset
  exact fun id mem => ExtTreeMap.mem_keys.mpr (mem_nodes_of_owners onRing mem)

/-- A walk collects the owners of the points that it meets. -/
theorem walk_eq {steps idx : Nat} {done : List Vnode} {seen : List Bytes} {result : List Node}
    (inside : idx < r.vnodes.length) (within : steps ≤ r.vnodes.length)
    (isSeen : ∀ id, id ∈ seen ↔ id ∈ done.map Vnode.nodeID)
    (isResult : result = (owners done).map r.member) (room : result.length < n) :
    r.walk n steps idx seen result =
      ((owners (done ++ (r.vnodes.rotate idx).take steps)).take n).map r.member := by
  induction steps generalizing idx done seen result with
  | zero =>
    rw [isResult, length_map] at room
    rw [walk, isResult, take_zero, append_nil, take_of_length_le room.le]
  | succ steps ih =>
    have inside' := Nat.mod_lt (idx + 1) (Nat.zero_lt_of_lt inside)
    have next : owners (done ++ [r.vnodes[idx]]) = owners done ++
        if r.vnodes[idx].nodeID ∈ done.map Vnode.nodeID then [] else [r.vnodes[idx].nodeID] := by
      rw [owners, map_append]
      exact eraseDups_concat _ _
    rw [walk, getElem?_eq_getElem inside, take_rotate_succ inside within, append_cons]
    dsimp only
    split
    · rename_i old
      apply ih inside' (Nat.le_of_succ_le within) _ _ room
      · intro id
        grind
      · rw [next, if_pos ((isSeen _).mp old), append_nil, isResult]
    rename_i new
    have isNext : result ++ [r.owner r.vnodes[idx]] =
        (owners (done ++ [r.vnodes[idx]])).map r.member := by
      rw [next, if_neg fun mem => new ((isSeen _).mpr mem), isResult, map_append]
      rfl
    split
    · rename_i full
      -- the owners that are met later are behind those that have been met
      rw [isNext, length_map] at full
      rcases owners_append (done ++ [r.vnodes[idx]])
        ((r.vnodes.rotate ((idx + 1) % r.vnodes.length)).take steps) with ⟨later, split⟩
      rw [isNext, split, ← full, take_left]
    rename_i short
    apply ih inside' (Nat.le_of_succ_le within) _ isNext
    · rw [length_append] at short ⊢
      exact Nat.lt_of_le_of_ne room short
    · intro id
      grind

/-! ## The clockwise order -/

/-- The points in the order in which a walk from the hash meets them. -/
def clockwise (r : Ring) (h : UInt64) : List Vnode :=
  (r.vnodes.filter fun v => h ≤ v.hash) ++ r.vnodes.filter fun v => v.hash < h

theorem mem_clockwise {h : UInt64} {v : Vnode} : v ∈ r.clockwise h ↔ v ∈ r.vnodes := by
  rw [clockwise, mem_append, mem_filter, mem_filter, ← and_or_left]
  exact and_iff_left (by simp [← UInt64.not_lt, (Decidable.em _).symm])

/-- The points before the hash are a front of the ring. -/
theorem downward_before (r : Ring) (h : UInt64) : Downward (fun v => v.hash < h) r.vnodes := by
  apply r.sorted.imp
  intro first second le before
  simp only [decide_eq_true_eq, UInt64.lt_iff_toNat_lt] at before ⊢
  exact Nat.lt_of_le_of_lt le before

theorem searchPoint_eq (r : Ring) (h : UInt64) :
    r.searchPoint h = (r.vnodes.takeWhile fun v => v.hash < h).length := by
  have midRange (low high : Nat) (open_ : low < high) :
      low ≤ (low + high) / 2 ∧ (low + high) / 2 < high := by
    omega
  have tested (i : Nat) (inRange : i < r.vnodes.length) :
      (.ok (decide (∃ v ∈ r.vnodes[i]?, v.hash < h)) : Except Unit Bool) =
        .ok (decide (i < (r.vnodes.takeWhile fun v => v.hash < h).length)) := by
    rw [← (r.downward_before h).test_eq inRange]
    simp [inRange]
  rw [searchPoint, bisect_eq midRange tested (Nat.zero_le _) (length_takeWhile_le _ _)
    (Nat.sub_le _ _)]
  rfl

theorem rotate_search (r : Ring) (h : UInt64) : r.vnodes.rotate (r.search h) = r.clockwise h := by
  have down := r.downward_before h
  have behind : (r.vnodes.filter fun v => h ≤ v.hash) = r.vnodes.dropWhile fun v => v.hash < h := by
    rw [down.dropWhile_eq_filter_not]
    simp [← UInt64.not_lt]
  have whole := @takeWhile_append_dropWhile _ (fun v : Vnode => decide (v.hash < h)) r.vnodes
  rw [clockwise, behind, ← down.takeWhile_eq_filter, search, searchPoint_eq]
  split
  · rename_i past
    have none : r.vnodes.dropWhile (fun v => v.hash < h) = [] := by
      rw [← drop_length_takeWhile, past, drop_length]
    rw [none, append_nil] at whole
    rw [rotate_zero, none, nil_append, whole]
  have split := @rotate_append_length_eq _ (r.vnodes.takeWhile fun v => v.hash < h)
    (r.vnodes.dropWhile fun v => v.hash < h)
  rwa [whole] at split

theorem search_lt (r : Ring) (h : UInt64) (some : r.vnodes ≠ []) :
    r.search h < r.vnodes.length := by
  have le := length_takeWhile_le (fun v : Vnode => v.hash < h) r.vnodes
  rw [← searchPoint_eq] at le
  rw [search]
  split
  · exact length_pos_of_ne_nil some
  · rename_i before
    exact Nat.lt_of_le_of_ne le before

/-- A walk around the whole ring. -/
theorem walk_around {idx : Nat} (positive : n ≠ 0) (inside : idx < r.vnodes.length) :
    r.walk (min n r.nodes.size) r.vnodes.length idx [] [] =
      ((owners (r.vnodes.rotate idx)).take n).map r.member := by
  have bounded : (owners (r.vnodes.rotate idx)).length ≤ r.nodes.size :=
    length_owners_le fun v => mem_rotate.mp
  have inhabited : 0 < r.nodes.size := by
    have first : r.vnodes[idx] ∈ r.vnodes.rotate idx := mem_rotate.mpr (getElem_mem inside)
    exact (length_pos_of_mem (mem_owners.mpr ⟨_, first, rfl⟩)).trans_le bounded
  have room : ([] : List Node).length < min n r.nodes.size :=
    Nat.lt_min.mpr ⟨Nat.pos_of_ne_zero positive, inhabited⟩
  have walked := @walk_eq r _ _ _ [] [] [] inside le_rfl (by simp) rfl room
  rw [walked, nil_append, take_of_length_le (length_rotate _ _).le, ← take_take,
    take_of_length_le bounded]

/-- The replicas of a key are the first owners behind its hash. -/
theorem getNodes_eq (sum64 : Bytes → UInt64) (r : Ring) (key : Bytes) (n : Nat) :
    r.getNodes sum64 key n = ((owners (r.clockwise (sum64 key))).take n).map r.member := by
  rw [getNodes]
  split
  · rename_i none
    rcases none with none | rfl
    · simp [clockwise, owners, isEmpty_iff.mp none]
    · simp
  rename_i some
  rcases not_or.mp some with ⟨some, positive⟩
  rw [walk_around positive (r.search_lt _ (isEmpty_iff.not.mp some)), rotate_search]

theorem member_of_mem {id : Bytes} (mem : id ∈ r.nodes) :
    r.nodes[id]? = some (r.member id) ∧ (r.member id).id = id := by
  rcases mem_iff_get?.mp mem with ⟨node, found⟩
  have isNode : r.member id = node := by
    rw [member, ExtTreeMap.getD_eq_getD_getElem?, found]
    rfl
  rw [isNode]
  exact ⟨found, r.keyed _ _ found⟩

theorem map_id_take_owners (onRing : ∀ v ∈ points, v ∈ r.vnodes) :
    (((owners points).take n).map r.member).map Node.id = (owners points).take n := by
  rw [map_map]
  apply (map_congr_left _).trans (map_id' _)
  intro id mem
  exact (member_of_mem (mem_nodes_of_owners onRing (mem_of_mem_take mem))).2

theorem length_getNodes_le (sum64 : Bytes → UInt64) (r : Ring) (key : Bytes) (n : Nat) :
    (r.getNodes sum64 key n).length ≤ n := by
  rw [getNodes_eq, length_map]
  exact length_take_le _ _

theorem map_id_getNodes (sum64 : Bytes → UInt64) (r : Ring) (key : Bytes) (n : Nat) :
    (r.getNodes sum64 key n).map Node.id = (owners (r.clockwise (sum64 key))).take n := by
  rw [getNodes_eq, map_id_take_owners fun v => mem_clockwise.mp]

/-! ## Co-replicas -/

theorem window_eq_walk {steps idx : Nat} {seen : List Bytes} {result : List Node} :
    r.window n steps idx seen (result.map Node.id) =
      (r.walk n steps idx seen result).map Node.id := by
  induction steps generalizing idx seen result with
  | zero => rfl
  | succ steps ih =>
    rw [window, walk]
    cases at_idx : r.vnodes[idx]? with
    | none => rfl
    | some vn =>
      have named : vn.nodeID = (r.owner vn).id :=
        (member_of_mem (r.owned vn (mem_of_getElem? at_idx))).2.symm
      have appended : result.map Node.id ++ [vn.nodeID] = (result ++ [r.owner vn]).map Node.id := by
        rw [map_append, named]
        rfl
      dsimp only
      rw [appended, length_map]
      split
      · exact ih
      split
      · rfl
      · exact ih

/-- Two nodes are co-replicas if a walk from one of the points meets both in time. -/
theorem mem_coReplicas {a p : Bytes} : p ∈ r.coReplicas a n ↔ p ≠ a ∧ ∃ idx < r.vnodes.length,
    a ∈ (owners (r.vnodes.rotate idx)).take n ∧ p ∈ (owners (r.vnodes.rotate idx)).take n := by
  rw [coReplicas]
  split
  · rename_i none
    rcases none with none | rfl
    · simp [isEmpty_iff.mp none]
    · simp
  rename_i some
  have isWindow {idx : Nat} (inside : idx < r.vnodes.length) :
      r.window (min n r.nodes.size) r.vnodes.length idx [] [] =
        (owners (r.vnodes.rotate idx)).take n := by
    have walked := @window_eq_walk r (min n r.nodes.size) r.vnodes.length idx [] []
    rwa [walk_around (not_or.mp some).2 inside,
      map_id_take_owners fun v => mem_rotate.mp] at walked
  split
  · rename_i unknown
    simp only [not_mem_nil, false_iff]
    rintro ⟨_, idx, _, aMem, _⟩
    exact unknown (mem_nodes_of_owners (fun v => mem_rotate.mp) (mem_of_mem_take aMem))
  simp only [ExtTreeSet.mem_toList, ExtTreeSet.mem_ofList, contains_iff_mem, mem_flatMap,
    mem_range]
  constructor
  · rintro ⟨idx, inside, mem⟩
    rw [isWindow inside] at mem
    split at mem
    · rename_i aMem
      rcases mem_filter.mp mem with ⟨pMem, other⟩
      exact ⟨of_decide_eq_true other, idx, inside, aMem, pMem⟩
    · cases mem
  · rintro ⟨other, idx, inside, aMem, pMem⟩
    refine ⟨idx, inside, ?_⟩
    rw [isWindow inside, if_pos aMem]
    exact mem_filter.mpr ⟨pMem, decide_eq_true other⟩

/-- The replicas of a key are co-replicas of each other. -/
theorem mem_coReplicas_of_getNodes {sum64 : Bytes → UInt64} {key : Bytes} {a b : Node}
    (aMem : a ∈ r.getNodes sum64 key n) (bMem : b ∈ r.getNodes sum64 key n) (ne : a.id ≠ b.id) :
    b.id ∈ r.coReplicas a.id n := by
  have some : r.vnodes ≠ [] := by
    rintro none
    simp [getNodes, none] at aMem
  have aMem := mem_map_of_mem (f := Node.id) aMem
  have bMem := mem_map_of_mem (f := Node.id) bMem
  rw [map_id_getNodes, ← rotate_search] at aMem bMem
  exact mem_coReplicas.mpr ⟨ne.symm, _, r.search_lt _ some, aMem, bMem⟩

/-- If no two points share a hash, a walk from a point is the walk from its hash. -/
theorem rotate_eq_clockwise (distinct : (r.vnodes.map Vnode.hash).Nodup) {idx : Nat}
    (inside : idx < r.vnodes.length) :
    r.vnodes.rotate idx = r.clockwise r.vnodes[idx].hash := by
  have increasing : r.vnodes.Pairwise fun v w => v.hash < w.hash := by
    apply (r.sorted.and (pairwise_map.mp distinct)).imp
    rintro v w ⟨le, ne⟩
    exact UInt64.lt_of_le_of_ne le ne
  -- the points before the hash are those before the index
  have front {i : Nat} (inRange : i < r.vnodes.length) : decide (r.vnodes[i].hash <
      r.vnodes[idx].hash) = decide (i < r.searchPoint r.vnodes[idx].hash) := by
    rw [searchPoint_eq]
    exact (r.downward_before r.vnodes[idx].hash).test_eq inRange
  have found : r.searchPoint r.vnodes[idx].hash = idx := by
    have here := front inside
    simp only [UInt64.lt_irrefl, decide_false, Bool.false_eq, decide_eq_false_iff_not,
      Nat.not_lt] at here
    apply here.antisymm
    by_contra before
    have earlier := not_le.mp before
    have less := pairwise_iff_getElem.mp increasing _ idx (earlier.trans inside) inside earlier
    have test := front (earlier.trans inside)
    simp [less] at test
  rw [← rotate_search, search, found, if_neg inside.ne]

end Ring

end Theseon.Hashring
