import Theseon.Hashring.Walk

/-!
# Where keys are placed

A ring in which no two points share a hash is determined by its nodes, whatever changes
have led to it.  A new node takes its place among the replicas of a key and leaves the
order of the others as it is.
-/

namespace Theseon.Hashring

open Lib List
open Std (ExtTreeMap LawfulEqCmp)

namespace Ring

variable {r : Ring} {n : Nat}

/-! ## Adding and removing a node -/

section Changes

variable {sorter : Sorter Vnode.position} {sum64 : Bytes → UInt64} {x : Node}

theorem mem_addNode : x.id ∈ (r.addNode sorter sum64 x).nodes := by
  rw [addNode]
  split
  · assumption
  · exact mem_nodes_insert (.inl rfl)

theorem member_addNode_self (absent : x.id ∉ r.nodes) :
    (r.addNode sorter sum64 x).member x.id = x := by
  rw [addNode, if_neg absent, member, ExtTreeMap.getD_insert_self]

theorem member_addNode {id : Bytes} (other : id ≠ x.id) :
    (r.addNode sorter sum64 x).member id = r.member id := by
  rw [addNode]
  split
  · rfl
  · rw [member, member, ExtTreeMap.getD_insert, if_neg]
    exact fun same => other (LawfulEqCmp.eq_of_compare same).symm

section

variable (absent : x.id ∉ r.nodes)
  (distinct : ((r.addNode sorter sum64 x).vnodes.map Vnode.hash).Nodup)

include absent distinct

/-- Without the points of a new node the ring is as before. -/
theorem filter_addNode :
    ((r.addNode sorter sum64 x).vnodes.filter fun v => v.nodeID ≠ x.id) = r.vnodes := by
  have added : (r.addNode sorter sum64 x).vnodes =
      sorter.sort (r.vnodes ++ points sum64 r.vnodesPerNode x.id) := by
    rw [addNode, if_neg absent]
  rw [added] at distinct ⊢
  have perm := (sorter.perm (r.vnodes ++ points sum64 r.vnodesPerNode x.id)).filter
    fun v => decide (v.nodeID ≠ x.id)
  have old : (r.vnodes.filter fun v => v.nodeID ≠ x.id) = r.vnodes := by
    rw [filter_eq_self]
    intro v mem
    exact decide_eq_true fun same => absent (same ▸ r.owned v mem)
  have new : ((points sum64 r.vnodesPerNode x.id).filter fun v => v.nodeID ≠ x.id) = [] := by
    rw [filter_eq_nil_iff]
    intro v mem
    simp [nodeID_of_mem_points mem]
  rw [filter_append, old, new, append_nil] at perm
  apply perm.eq_of_pairwise _ ((sorter.sorted _).filter _) r.sorted
  intro v w vMem wMem le ge
  exact inj_on_of_nodup_map distinct (mem_filter.mp vMem).1
    (mem_filter.mp (perm.mem_iff.mpr wMem)).1 (UInt64.toNat_inj.mp (le.antisymm ge))

/-- A new node changes the walk only where it is met itself. -/
theorem filter_owners_addNode (h : UInt64) :
    ((owners ((r.addNode sorter sum64 x).clockwise h)).filter fun id => id ≠ x.id) =
      owners (r.clockwise h) := by
  have swap (p : Vnode → Bool) : (((r.addNode sorter sum64 x).vnodes.filter p).filter
      fun v => decide (v.nodeID ≠ x.id)) = r.vnodes.filter p := by
    rw [filter_filter]
    simp only [Bool.and_comm]
    rw [← filter_filter, filter_addNode absent distinct]
  rw [owners, filter_eraseDups, filter_map]
  have unfolded : ((r.addNode sorter sum64 x).clockwise h).filter
      ((fun id => decide (id ≠ x.id)) ∘ Vnode.nodeID) = r.clockwise h := by
    rw [clockwise, filter_append]
    exact congrArg₂ _ (swap _) (swap _)
  rw [unfolded, owners]

/-- Removing a new node restores the ring. -/
theorem removeNode_addNode : (r.addNode sorter sum64 x).removeNode x.id = r := by
  have vnodes := filter_addNode absent distinct
  have nodes : (r.nodes.insert x.id x).erase x.id = r.nodes := by
    apply ExtTreeMap.ext_getElem?
    intro id
    rw [getElem?_erase_if, getElem?_insert_if]
    split
    · rename_i same
      rw [← same, ExtTreeMap.getElem?_eq_none absent]
    · rfl
  rw [removeNode, if_pos mem_addNode]
  apply Ring.ext
  · exact vnodes
  · simpa only [addNode, if_neg absent] using nodes
  · simp only [addNode, if_neg absent]

end

/-- A new node is inserted among the replicas of a key, or leaves them as they are. -/
theorem minimal_disruption (sorter : Sorter Vnode.position) (sum64 : Bytes → UInt64) (r : Ring)
    (x : Node) (absent : x.id ∉ r.nodes)
    (distinct : ((r.addNode sorter sum64 x).vnodes.map Vnode.hash).Nodup) (key : Bytes) (n : Nat) :
    ((((r.addNode sorter sum64 x).getNodes sum64 key n).filter fun node => node.id ≠ x.id) <+:
      r.getNodes sum64 key n) ∧
    (x ∉ (r.addNode sorter sum64 x).getNodes sum64 key n →
      (r.addNode sorter sum64 x).getNodes sum64 key n = r.getNodes sum64 key n) ∧
    ((r.addNode sorter sum64 x).removeNode x.id).getNodes sum64 key n = r.getNodes sum64 key n := by
  have others := filter_owners_addNode absent distinct (sum64 key)
  have sameMembers {ids : List Bytes} (without : ∀ id ∈ ids, id ≠ x.id) :
      ids.map (r.addNode sorter sum64 x).member = ids.map r.member :=
    map_congr_left fun id mem => member_addNode (without id mem)
  refine ⟨?_, ?_, by rw [removeNode_addNode absent distinct]⟩
  · have named : ∀ id ∈ (owners ((r.addNode sorter sum64 x).clockwise (sum64 key))).take n,
        ((fun node : Node => decide (node.id ≠ x.id)) ∘ (r.addNode sorter sum64 x).member) id =
          decide (id ≠ x.id) := by
      intro id mem
      rw [Function.comp_apply, (member_of_mem (mem_nodes_of_owners (fun _ => mem_clockwise.mp)
        (mem_of_mem_take mem))).2]
    rw [getNodes_eq, getNodes_eq, filter_map, ← others, filter_congr named, sameMembers]
    · exact ( filter_take_prefix _ n _).map r.member
    · exact fun id mem => of_decide_eq_true (mem_filter.mp mem).2
  intro unaffected
  have front : ∀ id ∈ (owners ((r.addNode sorter sum64 x).clockwise (sum64 key))).take n,
      decide (id ≠ x.id) = true := by
    refine fun id mem => decide_eq_true ?_
    rintro rfl
    apply unaffected
    rw [getNodes_eq]
    exact mem_map.mpr ⟨_, mem, member_addNode_self absent⟩
  rw [getNodes_eq, getNodes_eq, ← others, take_filter_eq front,
    sameMembers fun id mem => of_decide_eq_true (front id mem)]

end Changes

/-! ## Every history of changes -/

/-- A change of the members.  The sorts need not be stable. -/
inductive Change where
  | addNode (sorter : Sorter Vnode.position) (node : Node)
  | removeNode (nodeID : Bytes)
  | replaceMembers (sorter : Sorter Vnode.position) (nodes : List Node)

/-- The nodes of a new ring have different identifiers. -/
def Change.Distinct : Change → Prop
  | .replaceMembers _ nodes => (nodes.map Node.id).Nodup
  | _ => True

def change (sum64 : Bytes → UInt64) (r : Ring) : Change → Ring
  | .addNode sorter node => r.addNode sorter sum64 node
  | .removeNode nodeID => r.removeNode nodeID
  | .replaceMembers sorter nodes => r.replaceMembers sorter sum64 nodes

/-- The points of a ring are those of its nodes. -/
structure Complete (sum64 : Bytes → UInt64) (r : Ring) : Prop where
  positive : 0 < r.vnodesPerNode
  count : ∀ v, r.vnodes.count v =
    if v.nodeID ∈ r.nodes then (points sum64 r.vnodesPerNode v.nodeID).count v else 0

variable {sum64 : Bytes → UInt64}

theorem complete_new (count : Nat) : (new count).Complete sum64 := by
  constructor
  · rw [new]
    dsimp only
    split
    · decide
    · rename_i ne
      exact Nat.pos_of_ne_zero ne
  · intro v
    simp [new]

theorem count_points_other {count : Nat} {nodeID : Bytes} {v : Vnode} (other : v.nodeID ≠ nodeID) :
    (points sum64 count nodeID).count v = 0 :=
  count_eq_zero.mpr fun mem => other (nodeID_of_mem_points mem)

theorem count_flatMap_points {count : Nat} {nodes : List Node}
    (distinct : (nodes.map Node.id).Nodup)
    (v : Vnode) : (nodes.flatMap fun n => points sum64 count n.id).count v =
      if v.nodeID ∈ nodes.map Node.id then (points sum64 count v.nodeID).count v else 0 := by
  induction nodes with
  | nil => simp
  | cons node nodes ih =>
    rcases nodup_cons.mp distinct with ⟨new, distinct⟩
    rw [flatMap_cons, count_append, ih distinct]
    by_cases same : v.nodeID = node.id
    · simp only [same, new, map_cons, mem_cons_self, if_true, if_false, Nat.add_zero]
    · simp [count_points_other same, same]

theorem Complete.change (complete : r.Complete sum64) {c : Change} (distinct : c.Distinct) :
    (r.change sum64 c).Complete sum64 := by
  cases c with
  | addNode sorter node =>
    rw [Ring.change, Ring.addNode]
    split
    · exact complete
    rename_i absent
    refine ⟨complete.positive, fun v => ?_⟩
    rw [(sorter.perm _).count_eq, count_append, complete.count]
    by_cases same : v.nodeID = node.id
    · simp [same, absent]
    · simp [count_points_other same, Ne.symm same]
  | removeNode nodeID =>
    rw [Ring.change, Ring.removeNode]
    split
    · refine ⟨complete.positive, fun v => ?_⟩
      by_cases same : v.nodeID = nodeID
      · simp [count_eq_zero, same]
      dsimp only
      rw [count_filter (by simpa using same), complete.count]
      simp [Ne.symm same]
    · exact complete
  | replaceMembers sorter nodes =>
    refine ⟨complete.positive, fun v => ?_⟩
    rw [Ring.change, Ring.replaceMembers, (sorter.perm _).count_eq, count_flatMap_points distinct]
    simp [mem_insertAll]

theorem complete_history {count : Nat} {changes : List Change}
    (distinct : ∀ c ∈ changes, c.Distinct) :
    (changes.foldl (Ring.change sum64) (new count)).Complete sum64 ∧
      (changes.foldl (Ring.change sum64) (new count)).vnodesPerNode =
        (new count).vnodesPerNode := by
  induction changes using List.reverseRecOn with
  | nil => exact ⟨complete_new count, rfl⟩
  | append_singleton changes c ih =>
    rw [foldl_concat]
    rcases ih fun c mem => distinct c (mem_append_left _ mem) with ⟨complete, same⟩
    refine ⟨complete.change (distinct c (by simp)), Eq.trans ?_ same⟩
    cases c with
    | addNode sorter node =>
      rw [change, Ring.addNode]
      split <;> rfl
    | removeNode nodeID =>
      rw [change, Ring.removeNode]
      split <;> rfl
    | replaceMembers sorter nodes => rfl

theorem Complete.mem_vnodes (complete : r.Complete sum64) {v : Vnode} : v ∈ r.vnodes ↔
    v.nodeID ∈ r.nodes ∧ ∃ i < r.vnodesPerNode, v.hash = hashVnode sum64 v.nodeID i := by
  rw [← count_pos_iff, complete.count]
  split
  · rename_i mem
    simp [mem, count_pos_iff, points, Vnode.ext_iff, eq_comm]
  · rename_i absent
    simp [absent]

/-- The points of different nodes, and of different indices, have different hashes. -/
def HashesApart (sum64 : Bytes → UInt64) (vnodesPerNode : Nat) (ids : List Bytes) : Prop :=
  ∀ a ∈ ids, ∀ b ∈ ids, ∀ i < vnodesPerNode, ∀ j < vnodesPerNode,
    hashVnode sum64 a i = hashVnode sum64 b j → a = b ∧ i = j

/-- A ring is determined by its nodes. -/
theorem Complete.eq_of_nodes {s : Ring} (complete : r.Complete sum64) (complete' : s.Complete sum64)
    (nodes : r.nodes = s.nodes) (perNode : r.vnodesPerNode = s.vnodesPerNode) {ids : List Bytes}
    (apart : HashesApart sum64 r.vnodesPerNode ids) (known : ∀ id ∈ r.nodes, id ∈ ids) : r = s := by
  have perm : r.vnodes.Perm s.vnodes := by
    rw [perm_iff_count]
    intro v
    rw [complete.count, complete'.count, nodes, perNode]
  refine Ring.ext (perm.eq_of_pairwise ?_ r.sorted s.sorted) nodes perNode
  intro v w vMem wMem le ge
  rcases complete.mem_vnodes.mp vMem with ⟨vKnown, i, iLt, vHash⟩
  rcases complete.mem_vnodes.mp (perm.mem_iff.mpr wMem) with ⟨wKnown, j, jLt, wHash⟩
  have sameHash : v.hash = w.hash := UInt64.toNat_inj.mp (le.antisymm ge)
  have samePoint := vHash ▸ wHash ▸ sameHash
  exact Vnode.ext sameHash (apart _ (known _ vKnown) _ (known _ wKnown) i iLt j jLt samePoint).1

theorem head?_getNodes {key : Bytes} (positive : 0 < n) :
    ∀ first ∈ (r.getNodes sum64 key n).head?, r.getNode sum64 key = first := by
  intro first isFirst
  have some : r.vnodes ≠ [] := by
    rintro none
    simp [getNodes, none] at isFirst
  rw [getNodes_eq, ← rotate_search, head?_map, head?_take, if_neg positive.ne',
    head?_owners, head?_rotate (r.search_lt _ some)] at isFirst
  rcases Option.map_eq_some_iff.mp isFirst with ⟨id, isID, rfl⟩
  rcases Option.map_eq_some_iff.mp isID with ⟨v, found, rfl⟩
  rw [getNode, if_neg (isEmpty_iff.not.mpr some), found]
  rfl

theorem Complete.owners_perm (complete : r.Complete sum64) (h : UInt64) :
    (owners (r.clockwise h)).Perm r.nodes.keys := by
  rw [perm_ext_iff_of_nodup (nodup_owners _) ExtTreeMap.nodup_keys]
  intro id
  rw [ExtTreeMap.mem_keys]
  constructor
  · exact mem_nodes_of_owners fun v => mem_clockwise.mp
  · intro known
    have isPoint : (⟨hashVnode sum64 id 0, id⟩ : Vnode) ∈ r.vnodes :=
      complete.mem_vnodes.mpr ⟨known, 0, complete.positive, rfl⟩
    exact mem_owners.mpr ⟨_, mem_clockwise.mpr isPoint, rfl⟩

/-- A hash that tells the points of the nodes `a` and `b` apart. -/
def lastBytes (bytes : Bytes) : UInt64 :=
  bytes.foldl (fun sum (b : UInt8) => sum * 256 + b.toUInt64) 0

def nodeA : Node := ⟨[97], [1]⟩
def nodeB : Node := ⟨[98], [2]⟩

def twoChanges : List Change :=
  [.addNode (.insertion _) nodeB, .addNode (.insertion _) nodeA, .removeNode nodeB.id,
    .replaceMembers (.insertion _) [nodeA, nodeB]]

theorem second_member_disrupts_minimally :
    ((((new 2).addNode (.insertion _) lastBytes nodeA).addNode (.insertion _) lastBytes
      nodeB).removeNode nodeB.id).getNodes lastBytes [0] 3 =
      ((new 2).addNode (.insertion _) lastBytes nodeA).getNodes lastBytes [0] 3 :=
  (minimal_disruption (.insertion _) lastBytes ((new 2).addNode (.insertion _) lastBytes nodeA)
    nodeB (by decide +kernel) (by decide +kernel) [0] 3).2.2

end Ring

end Theseon.Hashring
