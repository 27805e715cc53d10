import Theseon.KV.Range
import Theseon.SSTable.Iterator

/-!
# Range scans of an SSTable

`ScanRange` starts in the first block whose last key is not below the search key
of its start, walks to the first entry there that is not below it either, and
ends at the first entry that reaches the search key of its end.  On a healthy
well-formed table it yields the entries between the two search keys.
-/

namespace Theseon.SSTable

open Lib KV Iterator List

namespace SSTableIterator

/-- An iterator at entry `j` of block `i`. -/
def placed (r : Reader) (i j : Nat) (block : List Entry) (start stop : Option Bytes)
    (entry : Entry) : SSTableIterator where
  reader := r
  blockIdx := i
  entryIdx := j
  block := some ⟨i, block, r.damage.entry i⟩
  startKey := start
  endKey := stop
  curKey := entry.key
  curValue := entry.value
  err := none

section

variable {r : Reader} {i j : Nat} {block : List Entry} {later : List (List Entry)}
  {start stop : Option Bytes} {entry : Entry} {rest : List Entry}

section

variable (healthy : r.Healthy)

include healthy

theorem readEntry_of_drop (entries : block.drop j = entry :: rest) :
    (⟨i, block, r.damage.entry i⟩ : Block).readEntry j = .ok entry := by
  have inRange : j < block.length := by
    by_contra ended
    rw [drop_eq_nil_of_le (not_lt.mp ended)] at entries
    cases entries
  rw [drop_eq_getElem_cons inRange, cons.injEq] at entries
  have readable : ∀ n, (⟨i, block, r.damage.entry i⟩ : Block).damage n = none := healthy.2 i
  rw [Block.readEntry_eq readable inRange, entries.1]

/-- Loading an entry places the iterator there. -/
theorem loadEntry_eq (entries : block.drop j = entry :: rest) (curKey : Bytes) (curValue : Value) :
    loadEntry ⟨r, i, j, some ⟨i, block, r.damage.entry i⟩, start, stop, curKey, curValue, none⟩ =
      placed r i j block start stop entry := by
  simp only [loadEntry, readEntry_of_drop healthy entries]
  rfl

/-- Loading a block that exists. -/
theorem loadBlock_eq (blocks : r.blocks.drop i = block :: later) (oldBlock : Option Block)
    (curKey : Bytes) (curValue : Value) :
    loadBlock ⟨r, i, j, oldBlock, start, stop, curKey, curValue, none⟩ =
      ⟨r, i, 0, some ⟨i, block, r.damage.entry i⟩, start, stop, curKey, curValue, none⟩ := by
  have inRange : i < r.blocks.length := by
    by_contra ended
    rw [drop_eq_nil_of_le (not_lt.mp ended)] at blocks
    cases blocks
  rw [drop_eq_getElem_cons inRange, cons.injEq] at blocks
  simp only [loadBlock, if_neg (not_le.mpr inRange), Reader.readBlock_eq healthy inRange, blocks.1]

/-- Behind the last entry of a block the iterator enters the next block, if there
is one. -/
theorem enter_drains (nonempty : ∀ block ∈ r.blocks, block ≠ []) (blocks : r.blocks.drop i = later)
    {out : List (Bytes × Option Bytes)} (ended : later = [] → out = [])
    (entered : ∀ block others entry rest, later = block :: others → block = entry :: rest →
      Drains (placed r i 0 block start stop entry).checkEnd out none) (oldBlock : Option Block)
    (curKey : Bytes) (curValue : Value) :
    Drains (enter ⟨r, i, j, oldBlock, start, stop, curKey, curValue, none⟩) out none := by
  cases later with
  | nil =>
    have past : r.blocks.length ≤ i := drop_eq_nil_iff.mp blocks
    rw [ended rfl]
    simp only [enter, loadBlock, if_pos past]
    exact drains_of_done rfl rfl
  | cons block others =>
    have isBlock : block ∈ r.blocks := mem_of_mem_drop (blocks ▸ mem_cons_self)
    cases first : block with
    | nil => exact absurd first (nonempty block isBlock)
    | cons entry rest =>
      subst first
      have loaded := @loadEntry_eq r i 0 (entry :: rest) start stop entry rest healthy rfl
      simp only [enter, loadBlock_eq healthy blocks, loaded]
      exact entered (entry :: rest) others entry rest rfl rfl

theorem next_placed (entries : block.drop (j + 1) = rest) :
    (placed r i j block start stop entry).next =
      match rest with
      | [] => enter ⟨r, i + 1, j + 1, some ⟨i, block, r.damage.entry i⟩, start, stop, entry.key,
          entry.value, none⟩
      | second :: _ => (placed r i (j + 1) block start stop second).checkEnd := by
  set moved : SSTableIterator := ⟨r, i, j + 1, some ⟨i, block, r.damage.entry i⟩, start, stop,
    entry.key, entry.value, none⟩ with movedDef
  have nextEq : (placed r i j block start stop entry).next =
      if block.length ≤ j + 1 then { moved with blockIdx := i + 1 }.enter
      else if moved.loadEntry.err.isSome then moved.loadEntry else moved.loadEntry.checkEnd := rfl
  rw [nextEq]
  cases rest with
  | nil => exact if_pos (drop_eq_nil_iff.mp entries)
  | cons second rest =>
    have inside : ¬ block.length ≤ j + 1 := by
      intro ended
      rw [drop_eq_nil_of_le ended] at entries
      cases entries
    rw [if_neg inside, movedDef, loadEntry_eq healthy entries]
    rfl

/-- From an entry on: the entries in front of the end bound. -/
theorem placed_drains (nonempty : ∀ block ∈ r.blocks, block ≠ [])
    (blocks : r.blocks.drop i = block :: later) (entries : block.drop j = entry :: rest) :
    Drains (placed r i j block start stop entry).checkEnd
      (((entry :: rest ++ later.flatten).takeWhile (Entry.below stop)).map shown) none := by
  generalize size : (rest ++ later.flatten).length = n
  induction n using Nat.strong_induction_on generalizing i j block later entry rest with
  | h n ih =>
    by_cases below : entry.below stop = true
    · have stays : (placed r i j block start stop entry).checkEnd =
          placed r i j block start stop entry := by
        rcases stop with _ | stop
        · rfl
        · exact if_neg (not_le.mpr (of_decide_eq_true below))
      rw [stays, cons_append, takeWhile_cons_of_pos below, map_cons]
      apply Drains.step rfl
      have nextBlocks : r.blocks.drop (i + 1) = later := by
        rw [← tail_drop, blocks, tail_cons]
      have nextEntries : block.drop (j + 1) = rest := by
        rw [← tail_drop, entries, tail_cons]
      change Drains (placed r i j block start stop entry).next _ _
      rw [next_placed healthy nextEntries]
      cases rest with
      | nil =>
        apply enter_drains healthy nonempty nextBlocks
        · rintro rfl
          rfl
        rintro block' others first rest' rfl rfl
        apply ih _ _ nextBlocks rfl rfl
        simp only [← size, flatten_cons, nil_append, cons_append,
          length_cons]
        omega
      | cons second rest =>
        apply ih _ _ blocks nextEntries rfl
        simp only [← size, cons_append, length_cons]
        omega
    · rcases stop with _ | stop
      · exact absurd rfl below
      · have reached : stop ≤ entry.key := not_lt.mp fun less => below (decide_eq_true less)
        have ends : (placed r i j block start (some stop) entry).checkEnd =
            (placed r i j block start (some stop) entry).invalidate := if_pos reached
        rw [ends, cons_append, takeWhile_cons_of_neg below]
        exact drains_of_done rfl rfl

/-- The walk through a block stops at the first entry that is not below the start. -/
theorem seekInBlock_eq {front : List Entry} {target : Bytes}
    (entries : block.drop j = front ++ entry :: rest) (below : ∀ old ∈ front, old.key < target)
    (reached : target ≤ entry.key) {fuel : Nat} (enough : front.length < fuel) (curKey : Bytes)
    (curValue : Value) :
    seekInBlock target fuel
        ⟨r, i, j, some ⟨i, block, r.damage.entry i⟩, start, stop, curKey, curValue, none⟩ =
      (placed r i (j + front.length) block start stop entry, true) := by
  induction front generalizing j fuel curKey curValue with
  | nil =>
    cases fuel with
    | zero => cases enough
    | succ fuel =>
      simp only [seekInBlock, loadEntry_eq healthy entries]
      exact if_pos reached
  | cons old front ih =>
    cases fuel with
    | zero => cases enough
    | succ fuel =>
      have nextEntries : block.drop (j + 1) = front ++ entry :: rest := by
        rw [← tail_drop, entries, cons_append, tail_cons]
      rw [forall_mem_cons] at below
      simp only [seekInBlock, loadEntry_eq healthy entries, placed, Option.isSome_none,
        Bool.false_eq_true, if_false, if_neg (not_le.mpr below.1)]
      rw [ih nextEntries below.2 (Nat.lt_of_succ_lt_succ enough), length_cons,
        Nat.add_right_comm, Nat.add_assoc]
      rfl

end

end

end SSTableIterator

namespace Reader

variable {r : Reader}

/-- A scan that starts behind the last block. -/
theorem drains_of_empty {i : Nat} (past : r.blocks.length ≤ i) (stop : Option Bytes) :
    Drains (SSTableIterator.new r i none stop) [] none := by
  simp only [SSTableIterator.new, SSTableIterator.loadBlock, if_pos past]
  exact SSTableIterator.drains_of_done rfl rfl

theorem WellFormed.seek_of_blocks (wf : r.WellFormed) (target : Bytes)
    {front behind : List (List Entry)} (blocks : r.blocks = front ++ behind)
    (below : ∀ block ∈ front, lastKeyOf block < target) :
    seek target r.entries = seek target behind.flatten := by
  rw [seek, entries, blocks, flatten_append]
  apply dropWhile_append_of_pos
  intro entry entryMem
  rcases mem_flatten.mp entryMem with ⟨block, blockMem, inBlock⟩
  have isBlock : block ∈ r.blocks := blocks ▸ mem_append_left _ blockMem
  exact decide_eq_true (lt_of_le_of_lt (wf.le_lastKeyOf isBlock inBlock) (below block blockMem))

/-- A block that reaches the target holds the first entry that does. -/
theorem exists_seek_of_le_lastKeyOf {block : List Entry} (nonempty : block ≠ []) {target : Bytes}
    (reaches : target ≤ lastKeyOf block) :
    ∃ front entry rest, block = front ++ entry :: rest ∧ (∀ old ∈ front, old.key < target) ∧
      target ≤ entry.key := by
  rcases exists_takeWhile_split (fun entry : Entry => decide (entry.key < target)) block with
    ⟨behind, split, below, fails⟩
  cases behind with
  | nil =>
    rcases (eq_nil_or_concat' block).resolve_left nonempty with ⟨others, last, rfl⟩
    rw [lastKeyOf_concat] at reaches
    rw [append_nil] at split
    have lastBelow := below last (split ▸ mem_append_right _ mem_cons_self)
    exact absurd (of_decide_eq_true lastBelow) (not_lt.mpr reaches)
  | cons entry rest =>
    refine ⟨_, entry, rest, split, fun old oldMem => of_decide_eq_true (below old oldMem), ?_⟩
    exact not_lt.mp (of_decide_eq_false (fails entry rest rfl))

theorem scanRange_none_drains (healthy : r.Healthy) (nonempty : ∀ block ∈ r.blocks, block ≠ [])
    (stop : Option Bytes) :
    Drains (r.scanRange none stop)
      ((r.entries.takeWhile (Entry.below (stop.map makeSearchKey))).map shown) none := by
  rw [scanRange, entries]
  cases blocks : r.blocks with
  | nil => exact drains_of_empty (by simp [blocks]) _
  | cons block later =>
    cases first : block with
    | nil => exact absurd first (nonempty block (blocks ▸ mem_cons_self))
    | cons entry rest =>
      subst first
      have fromStart : r.blocks.drop 0 = (entry :: rest) :: later := blocks
      have loaded := @SSTableIterator.loadEntry_eq r 0 0 (entry :: rest) none
        (stop.map makeSearchKey) entry rest healthy rfl
      rw [flatten_cons]
      simp only [SSTableIterator.new, SSTableIterator.loadBlock_eq healthy fromStart, loaded]
      exact SSTableIterator.placed_drains healthy nonempty fromStart rfl

theorem scanRange_some_drains (wf : r.WellFormed) (healthy : r.Healthy) (start : Bytes)
    (stop : Option Bytes) :
    Drains (r.scanRange (some start) stop)
      (((seek (makeSearchKey start) r.entries).takeWhile
        (Entry.below (stop.map makeSearchKey))).map shown) none := by
  generalize targetEq : makeSearchKey start = target
  have found := findBlock_eq wf target
  rcases exists_takeWhile_split (fun block => decide (lastKeyOf block < target)) r.blocks with
    ⟨behind, split, frontBelow, fails⟩
  generalize r.blocks.takeWhile (fun block => decide (lastKeyOf block < target)) = front at *
  rw [wf.seek_of_blocks target split fun block blockMem =>
    of_decide_eq_true (frontBelow block blockMem), scanRange, targetEq, found]
  cases behind with
  | nil =>
    rw [append_nil] at split
    simp only [split, le_refl, if_true]
    exact drains_of_empty (by rw [split]) none
  | cons block later =>
    have reaches : target ≤ lastKeyOf block :=
      not_lt.mp (of_decide_eq_false (fails block later rfl))
    have isBlock : block ∈ r.blocks := by simp [split]
    have inRange : ¬ r.blocks.length ≤ front.length := by simp [split]
    have fromBlock : r.blocks.drop front.length = block :: later := by
      rw [split, drop_left]
    rcases exists_seek_of_le_lastKeyOf (wf.blocksNonempty block isBlock) reaches with
      ⟨inner, entry, rest, rfl, innerBelow, reached⟩
    have isSeek : seek target ((inner ++ entry :: rest) :: later).flatten =
        entry :: rest ++ later.flatten := by
      rw [seek, flatten_cons, append_assoc, dropWhile_append_of_pos,
        cons_append, dropWhile_cons_of_neg]
      · simpa using reached
      · exact fun old oldMem => decide_eq_true (innerBelow old oldMem)
    have sought := @SSTableIterator.seekInBlock_eq r front.length 0 (inner ++ entry :: rest)
      (some target) (stop.map makeSearchKey) entry rest healthy inner target drop_zero
      innerBelow reached (inner ++ entry :: rest).length (by simp)
    rw [isSeek]
    have remaining : r.blocks.length - front.length = later.length + 1 := by simp [split]
    have entered : (inner ++ entry :: rest).drop inner.length = entry :: rest := drop_left
    simp only [if_neg inRange, SSTableIterator.new,
      SSTableIterator.loadBlock_eq healthy fromBlock, Option.isSome_none, Bool.false_eq_true,
      if_false, remaining, SSTableIterator.seekToStart, Nat.sub_zero, sought, Nat.zero_add]
    exact SSTableIterator.placed_drains healthy wf.blocksNonempty fromBlock entered

/-- A range scan of a healthy table yields the entries between the search keys of
its bounds. -/
theorem scanRange_drains (wf : r.WellFormed) (healthy : r.Healthy) (start stop : Option Bytes) :
    Drains (r.scanRange start stop)
      ((window (start.map makeSearchKey) (stop.map makeSearchKey) r.entries).map shown) none := by
  cases start with
  | none => exact scanRange_none_drains healthy wf.blocksNonempty stop
  | some start => exact scanRange_some_drains wf healthy start stop

end Reader

end Theseon.SSTable
