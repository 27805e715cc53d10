import Theseon.KV.Layers
import Theseon.SSTable.Builder

/-!
# Point lookups in an SSTable

`Reader.getAt` checks the Bloom filter, finds the first block whose last key is
at or above the search key, looks the key up in that block and goes on to the
next one while the versions of the key run over the end of the block.

On a healthy well-formed table this returns the newest visible version of every
user key none of whose versions is shadowed.
-/

namespace Theseon.SSTable

open Lib KV List

/-- A decoded `Block`, with the entries of it that do not decode. -/
structure Block where
  index : Nat
  entries : List Entry
  damage : Nat → Option ReadError

namespace Block

def readEntry (b : Block) (i : Nat) : Except ReadError Entry :=
  match b.entries[i]? with
  | none => .error (.corruptEntry b.index i)
  | some entry =>
    match b.damage i with
    | some err => .error err
    | none => .ok entry

/-- `low + (high-low)/2`. -/
def midpoint (low high : Nat) : Nat :=
  low + (high - low) / 2

/-- The binary search of `Block.GetAt`: the first entry at or above `target`. -/
def search (b : Block) (target : Bytes) : Except ReadError Nat :=
  bisect midpoint (fun i => (b.readEntry i).map fun entry => entry.key < target)
    b.entries.length 0 b.entries.length

/-- The walk of `Block.GetAt`, with `fuel` the number of entries not yet visited. -/
def walkFrom (b : Block) (user : Bytes) (maxSeq : Nat) :
    Nat → Nat → Except ReadError (Option Value)
  | 0, _ => .ok none
  | fuel + 1, i =>
    match b.readEntry i with
    | .error err => .error err
    | .ok entry =>
      if userKey entry.key = user then
        if seqNum entry.key ≤ maxSeq then .ok (some entry.value)
        else b.walkFrom user maxSeq fuel (i + 1)
      else .ok none

def getAt (b : Block) (user : Bytes) (maxSeq : Nat) : Except ReadError (Option Value) :=
  match b.search (makeSearchKey user) with
  | .error err => .error err
  | .ok low => b.walkFrom user maxSeq (b.entries.length - low) low

def lastKey (b : Block) : Except ReadError Bytes :=
  (b.readEntry (b.entries.length - 1)).map Entry.key

end Block

namespace Reader

def readBlock (r : Reader) (i : Nat) : Except ReadError Block :=
  match r.blocks[i]? with
  | none => .error (.corruptBlock i)
  | some entries =>
    match r.damage.block i with
    | some err => .error err
    | none => .ok ⟨i, entries, r.damage.entry i⟩

def mayContain (r : Reader) (user : Bytes) : Bool :=
  bloomMayContain r.bloom user

/-- The last key of a block as the index records it. -/
def blockLastKey (r : Reader) (i : Nat) : Bytes :=
  r.lastKeys.getD i []

/-- The probe of `findBlock`, whose upper bound is inclusive in the source. -/
def blockMidpoint (low high : Nat) : Nat :=
  low + (high - 1 - low) / 2

/-- `findBlock`: the first block whose last key is at or above the target. -/
def findBlock (r : Reader) (target : Bytes) : Option Nat :=
  let found : Except Empty Nat :=
    bisect blockMidpoint (fun i => .ok (r.blockLastKey i < target))
      r.blocks.length 0 r.blocks.length
  match found with
  | .error err => nomatch err
  | .ok low => if r.blocks.length ≤ low then none else some low

/-- The loop of `Reader.GetAt`, with `fuel` the number of blocks not yet visited. -/
def getAtFrom (r : Reader) (user : Bytes) (maxSeq : Nat) :
    Nat → Nat → Except ReadError (Option Value)
  | 0, _ => .ok none
  | fuel + 1, i =>
    match r.readBlock i with
    | .error err => .error err
    | .ok block =>
      match block.getAt user maxSeq with
      | .error err => .error err
      | .ok (some value) => .ok (some value)
      | .ok none =>
        match block.lastKey with
        | .error err => .error err
        | .ok lastKey =>
          if userKey lastKey = user then r.getAtFrom user maxSeq fuel (i + 1)
          else .ok none

def getAt (r : Reader) (user : Bytes) (maxSeq : Nat) : Except ReadError (Option Value) :=
  if r.mayContain user then
    match r.findBlock (makeSearchKey user) with
    | none => .ok none
    | some i => r.getAtFrom user maxSeq (r.blocks.length - i) i
  else .ok none

end Reader

/-! ## Blocks -/

namespace Block

variable {b : Block}

theorem midpoint_inRange (low high : Nat) (open_ : low < high) :
    low ≤ midpoint low high ∧ midpoint low high < high := by
  simp only [midpoint]
  omega

section

variable (healthy : ∀ i, b.damage i = none)

include healthy

theorem readEntry_eq {i : Nat} (inRange : i < b.entries.length) :
    b.readEntry i = .ok b.entries[i] := by
  rw [readEntry, getElem?_eq_getElem inRange]
  simp [healthy]

theorem search_eq (sorted : Sorted b.entries) (target : Bytes) :
    b.search target =
      .ok (b.entries.takeWhile fun entry => entry.key < target).length := by
  refine bisect_eq midpoint_inRange ?_ (Nat.zero_le _) (length_takeWhile_le _ _) (by omega)
  intro i inRange
  rw [readEntry_eq healthy inRange, ← (sorted.downward target).test_eq inRange]
  rfl

theorem walkFrom_eq (user : Bytes) (maxSeq : Nat) {fuel i : Nat}
    (rest : fuel + i = b.entries.length) :
    b.walkFrom user maxSeq fuel i = .ok (walkVersions user maxSeq (b.entries.drop i)) := by
  induction fuel generalizing i with
  | zero =>
    rw [walkFrom, drop_eq_nil_of_le (by omega)]
    rfl
  | succ fuel ih =>
    have inRange : i < b.entries.length := by omega
    rw [walkFrom, readEntry_eq healthy inRange, drop_eq_getElem_cons inRange]
    simp only [walkVersions, ih (i := i + 1) (by omega)]
    split
    · split <;> rfl
    · rfl

/-- A lookup in a healthy block is the lookup in its entries. -/
theorem getAt_eq (sorted : Sorted b.entries) (user : Bytes) (maxSeq : Nat) :
    b.getAt user maxSeq = .ok (lookupAt b.entries user maxSeq) := by
  have bound := length_takeWhile_le (fun entry : Entry => decide (entry.key < makeSearchKey user))
    b.entries
  rw [getAt, search_eq healthy sorted]
  simp only
  rw [walkFrom_eq healthy user maxSeq (by omega), drop_length_takeWhile]
  rfl

theorem lastKey_eq (nonempty : b.entries ≠ []) : b.lastKey = .ok (lastKeyOf b.entries) := by
  have inRange : b.entries.length - 1 < b.entries.length := by
    have := length_pos_iff.mpr nonempty
    omega
  rw [lastKey, readEntry_eq healthy inRange, lastKeyOf, getLast?_eq_getElem?,
    getElem?_eq_getElem inRange]
  rfl

end

end Block

/-! ## Tables -/

namespace Reader

variable {r : Reader}

theorem blockMidpoint_inRange (low high : Nat) (open_ : low < high) :
    low ≤ blockMidpoint low high ∧ blockMidpoint low high < high := by
  simp only [blockMidpoint]
  omega

theorem readBlock_eq (healthy : r.Healthy) {i : Nat} (inRange : i < r.blocks.length) :
    r.readBlock i = .ok ⟨i, r.blocks[i], r.damage.entry i⟩ := by
  rw [readBlock, getElem?_eq_getElem inRange]
  simp [healthy.1]

theorem drop_flatten_sublist (r : Reader) (i : Nat) :
    (r.blocks.drop i).flatten.Sublist r.entries := by
  conv_rhs => rw [entries, ← take_append_drop i r.blocks, flatten_append]
  exact sublist_append_right _ _

theorem WellFormed.lastKeys_ascending (wf : r.WellFormed) :
    r.blocks.Pairwise fun first second => lastKeyOf first < lastKeyOf second := by
  have across := (pairwise_flatten.mp wf.ascending).2
  refine across.imp_of_mem ?_
  intro first second firstMem secondMem below
  obtain ⟨firstInit, firstLast, rfl⟩ := (eq_nil_or_concat' first).resolve_left
    (wf.blocksNonempty first firstMem)
  obtain ⟨secondInit, secondLast, rfl⟩ := (eq_nil_or_concat' second).resolve_left
    (wf.blocksNonempty second secondMem)
  rw [lastKeyOf_concat, lastKeyOf_concat]
  exact below firstLast (by simp) secondLast (by simp)

theorem WellFormed.lastKeys_downward (wf : r.WellFormed) (target : Bytes) :
    Downward (fun block : List Entry => decide (lastKeyOf block < target)) r.blocks :=
  wf.lastKeys_ascending.imp fun below secondBelow =>
    decide_eq_true (below.trans (of_decide_eq_true secondBelow))

theorem findBlock_eq (wf : r.WellFormed) (target : Bytes) :
    r.findBlock target =
      let front := r.blocks.takeWhile fun block => lastKeyOf block < target
      if r.blocks.length ≤ front.length then none else some front.length := by
  have down := wf.lastKeys_downward target
  have found : (bisect blockMidpoint
      (fun i => .ok (decide (r.blockLastKey i < target))) r.blocks.length 0 r.blocks.length :
        Except Empty Nat) =
      .ok (r.blocks.takeWhile fun block => lastKeyOf block < target).length := by
    refine bisect_eq blockMidpoint_inRange ?_ (Nat.zero_le _) (length_takeWhile_le _ _) (by omega)
    intro i inRange
    rw [← down.test_eq inRange, blockLastKey, wf.lastKeys, getD_eq_getElem?_getD, getElem?_map,
      getElem?_eq_getElem inRange]
    rfl
  simp only [findBlock, found]

theorem WellFormed.le_lastKeyOf (wf : r.WellFormed) {block : List Entry} (mem : block ∈ r.blocks)
    {entry : Entry} (entryMem : entry ∈ block) : entry.key ≤ lastKeyOf block :=
  SSTable.le_lastKeyOf (wf.ascending.sorted.sublist (sublist_flatten_of_mem mem)) entryMem

/-- The search over the blocks from `i` on. -/
theorem getAtFrom_newestAt (healthy : r.Healthy) (wf : r.WellFormed) {user : Bytes}
    (unshadowed : UnshadowedFor r.entries user) (maxSeq : Nat) {fuel i : Nat}
    (rest : fuel + i = r.blocks.length)
    (reached : ∀ block ∈ r.blocks.drop i, makeSearchKey user ≤ lastKeyOf block) :
    ∃ result, r.getAtFrom user maxSeq fuel i = .ok result ∧
      NewestAt (r.blocks.drop i).flatten user maxSeq result := by
  induction fuel generalizing i with
  | zero =>
    refine ⟨none, rfl, ?_⟩
    rw [drop_eq_nil_of_le (by omega)]
    simp [NewestAt]
  | succ fuel ih =>
    have inRange : i < r.blocks.length := by omega
    have dropEq := drop_eq_getElem_cons inRange
    have blockMem : r.blocks[i] ∈ r.blocks := getElem_mem inRange
    have readEq := readBlock_eq healthy inRange
    generalize r.blocks[i] = block at dropEq blockMem readEq
    have blockSub : block.Sublist r.entries := sublist_flatten_of_mem blockMem
    have blockSorted : Sorted block := wf.ascending.sorted.sublist blockSub
    have getEq := Block.getAt_eq (b := ⟨i, block, r.damage.entry i⟩) (healthy.2 i) blockSorted
      user maxSeq
    have lastEq := Block.lastKey_eq (b := ⟨i, block, r.damage.entry i⟩) (healthy.2 i)
      (wf.blocksNonempty block blockMem)
    have lookup := lookupAt_newestAt blockSorted
      (fun entry entryMem => wf.long entry (blockSub.subset entryMem))
      (unshadowed.mono blockSub.subset) maxSeq
    have ascending : Ascending (block ++ (r.blocks.drop (i + 1)).flatten) := by
      rw [← flatten_cons, ← dropEq]
      exact wf.ascending.sublist (r.drop_flatten_sublist i)
    have behind := (pairwise_append.mp ascending).2.2
    have restSub : (r.blocks.drop (i + 1)).flatten ⊆ r.entries :=
      (r.drop_flatten_sublist (i + 1)).subset
    rw [getAtFrom, readEq, dropEq, flatten_cons]
    simp only [getEq, lastEq]
    cases found : lookupAt block user maxSeq with
    | some value =>
      rw [found] at lookup
      refine ⟨some value, rfl, lookup.append_some ?_⟩
      intro first firstMem second secondMem sameUser above
      have older := Entry.seq_le_of_key_le (wf.long first (blockSub.subset firstMem))
        (wf.long second (restSub secondMem)) sameUser.symm
        (behind first firstMem second secondMem).le
      omega
    | none =>
      rw [found] at lookup
      by_cases sameUser : userKey (lastKeyOf block) = user
      · obtain ⟨result, resultEq, newest⟩ := ih (i := i + 1) (by omega) fun later laterMem =>
          reached later (dropEq ▸ mem_cons_of_mem block laterMem)
        exact ⟨result, by simp only [if_pos sameUser, resultEq], lookup.append_none newest⟩
      refine ⟨none, by simp only [if_neg sameUser], lookup.append_none ?_⟩
      intro entry entryMem entryUser
      -- a later version of `user` would be shadowed by the last entry of this block
      exfalso
      obtain ⟨init, last, rfl⟩ := (eq_nil_or_concat' block).resolve_left
        (wf.blocksNonempty block blockMem)
      rw [lastKeyOf_concat] at sameUser
      have lastMem : last ∈ r.entries := blockSub.subset (by simp)
      have above := reached (init ++ [last]) (dropEq ▸ mem_cons_self)
      rw [lastKeyOf_concat] at above
      refine unshadowed entry (restSub entryMem) entryUser last lastMem ⟨?_, ?_, ?_⟩
      · rw [entryUser]
        exact sameUser
      · rwa [(wf.long last lastMem).key_eq, entryUser]
      · rw [(wf.long last lastMem).key_eq, (wf.long entry (restSub entryMem)).key_eq]
        exact behind last (by simp) entry entryMem

/-- On a healthy table `getAt` returns the newest visible version of every user
key none of whose versions is shadowed. -/
theorem getAt_newestAt (healthy : r.Healthy) (wf : r.WellFormed) {user : Bytes}
    (unshadowed : UnshadowedFor r.entries user) (maxSeq : Nat) :
    ∃ result, r.getAt user maxSeq = .ok result ∧ NewestAt r.entries user maxSeq result := by
  by_cases present : r.mayContain user
  · have down := wf.lastKeys_downward (makeSearchKey user)
    set front := r.blocks.takeWhile fun block => lastKeyOf block < makeSearchKey user with frontEq
    have frontMiss : NewestAt front.flatten user maxSeq none := by
      intro entry entryMem entryUser
      exfalso
      obtain ⟨block, blockFront, entryBlock⟩ := mem_flatten.mp entryMem
      have blockMem : block ∈ r.blocks := ( takeWhile_prefix _).subset blockFront
      have lastBelow : lastKeyOf block < makeSearchKey user := by
        simpa using mem_takeWhile_imp blockFront
      have above := Entry.search_le (wf.long entry (mem_flatten.mpr ⟨block, blockMem, entryBlock⟩))
      rw [entryUser] at above
      exact absurd (above.trans (wf.le_lastKeyOf blockMem entryBlock)) (not_le.mpr lastBelow)
    have whole : r.entries = front.flatten ++ (r.blocks.drop front.length).flatten := by
      rw [← flatten_append, frontEq, drop_length_takeWhile, takeWhile_append_dropWhile]
      rfl
    rw [getAt, if_pos present, findBlock_eq wf]
    by_cases exhausted : r.blocks.length ≤ front.length
    · refine ⟨none, by simp only [← frontEq, if_pos exhausted], ?_⟩
      rw [whole, drop_eq_nil_of_le exhausted]
      simpa using frontMiss
    have reached : ∀ block ∈ r.blocks.drop front.length,
        makeSearchKey user ≤ lastKeyOf block := by
      intro block blockMem
      rw [frontEq, drop_length_takeWhile, down.dropWhile_eq_filter_not, mem_filter]
        at blockMem
      simpa using blockMem.2
    have rest : r.blocks.length - front.length + front.length = r.blocks.length := by omega
    obtain ⟨result, resultEq, newest⟩ :=
      getAtFrom_newestAt healthy wf unshadowed maxSeq rest reached
    refine ⟨result, by simpa only [← frontEq, if_neg exhausted] using resultEq, ?_⟩
    rw [whole]
    exact frontMiss.append_none newest
  · refine ⟨none, by rw [getAt, if_neg present], ?_⟩
    intro entry entryMem entryUser
    exact absurd (entryUser ▸ wf.bloomed entry entryMem) present

end Reader

end Theseon.SSTable
