import Theseon.Iterator.Merge
import Theseon.SSTable.Reader

/-!
# Iterating over an SSTable

`SSTableIterator` loads one block at a time and stops at the first block or
entry that it cannot read.  `readable` says what a full scan of a damaged table
yields: the entries in front of the first unreadable one, and the error there.
-/

namespace Theseon.SSTable

open Lib KV Iterator List

structure SSTableIterator where
  reader : Reader
  blockIdx : Nat
  entryIdx : Nat
  block : Option Block
  startKey : Option Bytes
  endKey : Option Bytes
  curKey : Bytes
  curValue : Value
  err : Option ReadError

namespace SSTableIterator

def invalidate (it : SSTableIterator) : SSTableIterator :=
  { it with block := none, curKey := [], curValue := ⟨none, false⟩ }

def loadBlock (it : SSTableIterator) : SSTableIterator :=
  if it.reader.blocks.length ≤ it.blockIdx then { it with block := none }
  else
    match it.reader.readBlock it.blockIdx with
    | .error err => { it with err := some err }.invalidate
    | .ok block => { it with block := some block, entryIdx := 0 }

def loadEntry (it : SSTableIterator) : SSTableIterator :=
  match it.block with
  | none => it
  | some block =>
    match block.readEntry it.entryIdx with
    | .error err => { it with err := some err }.invalidate
    | .ok entry => { it with curKey := entry.key, curValue := entry.value }

/-- The inner loop of `seekToStart`, over the entries of the current block: it
stops at the first entry at or above the start key, or with an error. -/
def seekInBlock (start : Bytes) : Nat → SSTableIterator → SSTableIterator × Bool
  | 0, it => (it, false)
  | fuel + 1, it =>
    let it := it.loadEntry
    if it.err.isSome then (it, true)
    else if start ≤ it.curKey then (it, true)
    else seekInBlock start fuel { it with entryIdx := it.entryIdx + 1 }

/-- `seekToStart`, with `fuel` the number of blocks not yet visited. -/
def seekToStart (start : Bytes) : Nat → SSTableIterator → SSTableIterator
  | 0, it => it
  | fuel + 1, it =>
    match it.block with
    | none => it
    | some block =>
      match seekInBlock start (block.entries.length - it.entryIdx) it with
      | (it, true) => it
      | (it, false) =>
        let it := { it with blockIdx := it.blockIdx + 1 }.loadBlock
        if it.err.isSome then it else seekToStart start fuel it

def checkEnd (it : SSTableIterator) : SSTableIterator :=
  match it.block, it.endKey with
  | some _, some endKey => if endKey ≤ it.curKey then it.invalidate else it
  | _, _ => it

def new (r : Reader) (startBlock : Nat) (startKey endKey : Option Bytes) : SSTableIterator :=
  let it : SSTableIterator :=
    { reader := r
      blockIdx := startBlock
      entryIdx := 0
      block := none
      startKey := startKey
      endKey := endKey
      curKey := []
      curValue := ⟨none, false⟩
      err := none }
  let it := it.loadBlock
  if it.err.isSome then it
  else
    match it.startKey with
    | some start => (seekToStart start (r.blocks.length - startBlock) it).checkEnd
    | none => it.loadEntry.checkEnd

def isValid (it : SSTableIterator) : Bool :=
  it.block.isSome && it.err.isNone

/-- `Value`: nil for a tombstone. -/
def value (it : SSTableIterator) : Option Bytes :=
  if it.curValue.tombstone then none else it.curValue.data

/-- The part of `Next` behind the end of a block. -/
def enter (it : SSTableIterator) : SSTableIterator :=
  let it := it.loadBlock
  if it.err.isSome || it.block.isNone then it
  else
    let it := it.loadEntry
    if it.err.isSome then it else it.checkEnd

def next (it : SSTableIterator) : SSTableIterator :=
  match it.block with
  | none => it
  | some block =>
    if it.err.isSome then it
    else
      let it := { it with entryIdx := it.entryIdx + 1 }
      if block.entries.length ≤ it.entryIdx then { it with blockIdx := it.blockIdx + 1 }.enter
      else
        let it := it.loadEntry
        if it.err.isSome then it else it.checkEnd

instance : Iter SSTableIterator ReadError where
  key := curKey
  value := value
  next := next
  isValid := isValid
  err := SSTableIterator.err
  invalid_of_err := by
    intro it failed
    cases failure : it.err with
    | none => exact absurd failure failed
    | some _ => simp [isValid, failure]

end SSTableIterator

namespace Reader

def scan (r : Reader) : SSTableIterator :=
  SSTableIterator.new r 0 none none

def scanRange (r : Reader) (start stop : Option Bytes) : SSTableIterator :=
  let endKey := stop.map makeSearchKey
  match start with
  | none => SSTableIterator.new r 0 none endKey
  | some start =>
    match r.findBlock (makeSearchKey start) with
    | none => SSTableIterator.new r r.blocks.length none none
    | some block => SSTableIterator.new r block (some (makeSearchKey start)) endKey

end Reader

/-! ## What a scan yields -/

/-- The entries in front of the first unreadable one, from entry `i` on. -/
def readableEntries (damage : Nat → Option ReadError) :
    Nat → List Entry → List Entry × Option ReadError
  | _, [] => ([], none)
  | i, entry :: rest =>
    match damage i with
    | some err => ([], some err)
    | none =>
      let later := readableEntries damage (i + 1) rest
      (entry :: later.1, later.2)

/-- The entries in front of the first unreadable block or entry, from block `i` on. -/
def readableBlocks (damage : Damage) : Nat → List (List Entry) → List Entry × Option ReadError
  | _, [] => ([], none)
  | i, block :: rest =>
    match damage.block i with
    | some err => ([], some err)
    | none =>
      match readableEntries (damage.entry i) 0 block with
      | (entries, some err) => (entries, some err)
      | (entries, none) =>
        let later := readableBlocks damage (i + 1) rest
        (entries ++ later.1, later.2)

/-- What can be read of a table before the first error, and that error. -/
def Reader.readable (r : Reader) : List Entry × Option ReadError :=
  readableBlocks r.damage 0 r.blocks

/-- The pair an iterator shows for an entry. -/
def shown (entry : Entry) : Bytes × Option Bytes :=
  (entry.key, if entry.value.tombstone then none else entry.value.data)

namespace SSTableIterator

/-- An iterator without an end bound that has not failed. -/
structure Plain (r : Reader) (it : SSTableIterator) : Prop where
  reader : it.reader = r
  endKey : it.endKey = none
  noError : it.err = none

variable {it : SSTableIterator}

theorem drains_of_failed {e : ReadError} (failed : it.err = some e) : Drains it [] (some e) := by
  have stopped : Drains it [] it.err :=
    Drains.stop (Iter.invalid_of_err it (by change it.err ≠ none; simp [failed]))
  rwa [failed] at stopped

theorem checkEnd_of_unbounded (unbounded : it.endKey = none) : it.checkEnd = it := by
  rw [checkEnd, unbounded]
  cases it.block <;> rfl

theorem loadEntry_endKey (it : SSTableIterator) : it.loadEntry.endKey = it.endKey := by
  unfold loadEntry
  cases it.block with
  | none => rfl
  | some block =>
    dsimp only
    cases block.readEntry it.entryIdx <;> rfl

theorem loadEntry_then_checkEnd (unbounded : it.endKey = none) :
    (if it.loadEntry.err.isSome then it.loadEntry else it.loadEntry.checkEnd) = it.loadEntry := by
  rw [checkEnd_of_unbounded (by rw [loadEntry_endKey, unbounded]), ite_self]

theorem drains_of_done (done : it.block = none) (noError : it.err = none) : Drains it [] none := by
  have stopped : Drains it [] it.err :=
    Drains.stop (by change isValid it = false; simp [isValid, done])
  rwa [noError] at stopped

theorem next_eq {block : Block} (unbounded : it.endKey = none) (noError : it.err = none)
    (blockEq : it.block = some block) :
    it.next =
      if block.entries.length ≤ it.entryIdx + 1 then
        { it with entryIdx := it.entryIdx + 1, blockIdx := it.blockIdx + 1 }.enter
      else { it with entryIdx := it.entryIdx + 1 }.loadEntry := by
  rcases it with ⟨reader, blockIdx, entryIdx, block', startKey, endKey, curKey, curValue, err⟩
  simp only at unbounded noError blockEq
  subst unbounded noError blockEq
  simp only [next, Option.isSome_none, Bool.false_eq_true, if_false]
  rw [loadEntry_then_checkEnd rfl]

/-- From an entry of block `i` on: the readable rest of the block, then whatever
the iterator yields behind it. -/
theorem drains_loadEntry {r : Reader} {i : Nat} {entries : List Entry}
    (later : List (Bytes × Option Bytes)) (final : Option ReadError)
    (behind : ∀ it, Plain r it → it.blockIdx = i + 1 → Drains it.enter later final)
    (it : SSTableIterator) (plain : Plain r it) (blockIdx : it.blockIdx = i)
    (block : it.block = some ⟨i, entries, r.damage.entry i⟩)
    (inRange : it.entryIdx < entries.length) :
    Drains it.loadEntry
      ((readableEntries (r.damage.entry i) it.entryIdx (entries.drop it.entryIdx)).1.map shown ++
        if (readableEntries (r.damage.entry i) it.entryIdx (entries.drop it.entryIdx)).2.isSome
        then [] else later)
      ((readableEntries (r.damage.entry i) it.entryIdx (entries.drop it.entryIdx)).2.or final) := by
  generalize size : entries.length - it.entryIdx = n
  induction n generalizing it with
  | zero => omega
  | succ n ih =>
    rw [drop_eq_getElem_cons inRange]
    cases damage : r.damage.entry i it.entryIdx with
    | some e =>
      have failed : it.loadEntry.err = some e := by
        simp [loadEntry, block, Block.readEntry, getElem?_eq_getElem inRange, damage,
          invalidate]
      simpa [readableEntries, damage] using drains_of_failed failed
    | none =>
      set loaded := it.loadEntry with loadedDef
      have loadedEq : loaded =
          { it with
            curKey := entries[it.entryIdx].key
            curValue := entries[it.entryIdx].value } := by
        simp [loadedDef, loadEntry, block, Block.readEntry,
          getElem?_eq_getElem inRange, damage]
      have valid : Iter.isValid loaded = true := by
        change loaded.isValid = true
        simp [loadedEq, isValid, block, plain.noError]
      have plain' : Plain r loaded := by
        rw [loadedEq]
        exact ⟨plain.reader, plain.endKey, plain.noError⟩
      have loadedBlock : loaded.block = some ⟨i, entries, r.damage.entry i⟩ := by
        rw [loadedEq, ← block]
      have rest : Drains loaded.next
          ((readableEntries (r.damage.entry i) (it.entryIdx + 1)
              (entries.drop (it.entryIdx + 1))).1.map shown ++
            if (readableEntries (r.damage.entry i) (it.entryIdx + 1)
              (entries.drop (it.entryIdx + 1))).2.isSome then [] else later)
          ((readableEntries (r.damage.entry i) (it.entryIdx + 1)
            (entries.drop (it.entryIdx + 1))).2.or final) := by
        have nextEq := next_eq plain'.endKey plain'.noError loadedBlock
        have loadedIdx : loaded.entryIdx = it.entryIdx := by rw [loadedEq]
        have loadedBlockIdx : loaded.blockIdx = i := by rw [loadedEq, ← blockIdx]
        rw [loadedIdx, loadedBlockIdx] at nextEq
        rw [nextEq]
        by_cases last : entries.length ≤ it.entryIdx + 1
        · rw [if_pos last, drop_eq_nil_of_le last]
          exact behind _ ⟨plain'.reader, plain'.endKey, plain'.noError⟩ rfl
        rw [if_neg last]
        refine ih { loaded with entryIdx := it.entryIdx + 1, blockIdx := i }
          ⟨plain'.reader, plain'.endKey, plain'.noError⟩ rfl loadedBlock (not_le.mp last) ?_
        simp only
        omega
      have shownEq : (Iter.key loaded, Iter.value loaded) = shown entries[it.entryIdx] := by
        change (loaded.curKey, loaded.value) = _
        simp [loadedEq, value, shown]
      have drains := Drains.step valid rest
      rw [shownEq] at drains
      simpa [readableEntries, damage] using drains

/-- From block `i` on. -/
theorem drains_enter {r : Reader} (blocksNonempty : ∀ block ∈ r.blocks, block ≠ [])
    (plain : Plain r it) (inRange : it.blockIdx ≤ r.blocks.length) :
    Drains it.enter
      ((readableBlocks r.damage it.blockIdx (r.blocks.drop it.blockIdx)).1.map shown)
      (readableBlocks r.damage it.blockIdx (r.blocks.drop it.blockIdx)).2 := by
  generalize size : r.blocks.length - it.blockIdx = n
  induction n generalizing it with
  | zero =>
    have done : r.blocks.length ≤ it.blockIdx := by omega
    have enterEq : it.enter = { it with block := none } := by
      simp [enter, loadBlock, plain.reader, done]
    rw [drop_eq_nil_of_le done, enterEq]
    exact drains_of_done rfl plain.noError
  | succ n ih =>
    have inside : it.blockIdx < r.blocks.length := by omega
    have nonempty := blocksNonempty _ (getElem_mem inside)
    rw [drop_eq_getElem_cons inside]
    cases damage : r.damage.block it.blockIdx with
    | some e =>
      have failed : it.enter.err = some e := by
        simp [enter, loadBlock, plain.reader, not_le.mpr inside, Reader.readBlock,
          getElem?_eq_getElem inside, damage, invalidate]
      simpa [readableBlocks, damage] using drains_of_failed failed
    | none =>
      set loaded : SSTableIterator :=
        { it with
          block := some ⟨it.blockIdx, r.blocks[it.blockIdx], r.damage.entry it.blockIdx⟩
          entryIdx := 0 }
      have enterEq : it.enter = loaded.loadEntry := by
        have loadEq : it.loadBlock = loaded := by
          simp [loadBlock, plain.reader, not_le.mpr inside, Reader.readBlock,
            getElem?_eq_getElem inside, damage, loaded]
        rw [enter, loadEq]
        have going : (loaded.err.isSome || loaded.block.isNone) = false := by
          simp [loaded, plain.noError]
        simp only [going, Bool.false_eq_true, if_false]
        exact loadEntry_then_checkEnd plain.endKey
      have behind : ∀ it', Plain r it' → it'.blockIdx = it.blockIdx + 1 → Drains it'.enter
          ((readableBlocks r.damage (it.blockIdx + 1)
            (r.blocks.drop (it.blockIdx + 1))).1.map shown)
          (readableBlocks r.damage (it.blockIdx + 1)
            (r.blocks.drop (it.blockIdx + 1))).2 := by
        intro it' plain' blockIdx'
        have drains' := ih plain' (by omega) (by omega)
        rwa [blockIdx'] at drains'
      have drains := drains_loadEntry _ _ behind loaded
        ⟨plain.reader, plain.endKey, plain.noError⟩ rfl rfl (length_pos_iff.mpr nonempty)
      rw [enterEq, readableBlocks, damage]
      simp only [loaded, drop_zero] at drains
      generalize readableEntries (r.damage.entry it.blockIdx) 0 r.blocks[it.blockIdx] = read
        at drains
      obtain ⟨entries, _ | e⟩ := read
      · simpa using drains
      · simpa using drains

end SSTableIterator

/-- A full scan yields what can be read before the first error, and that error. -/
theorem Reader.scan_drains {r : Reader} (blocksNonempty : ∀ block ∈ r.blocks, block ≠ []) :
    Drains r.scan (r.readable.1.map shown) r.readable.2 := by
  set it : SSTableIterator := ⟨r, 0, 0, none, none, none, [], ⟨none, false⟩, none⟩
  have scanEq : r.scan = it.enter := by
    have bounds : it.loadBlock.startKey = none ∧ it.loadBlock.endKey = none := by
      unfold SSTableIterator.loadBlock
      split
      · exact ⟨rfl, rfl⟩
      · split <;> exact ⟨rfl, rfl⟩
    change (if it.loadBlock.err.isSome then it.loadBlock else
      match it.loadBlock.startKey with
      | some start => _
      | none => it.loadBlock.loadEntry.checkEnd) = it.enter
    simp only [bounds.1, SSTableIterator.enter,
      SSTableIterator.loadEntry_then_checkEnd bounds.2]
    rw [SSTableIterator.checkEnd_of_unbounded
      ((SSTableIterator.loadEntry_endKey _).trans bounds.2)]
    by_cases failed : it.loadBlock.err.isSome
    · simp [failed]
    cases block : it.loadBlock.block with
    | none => simp [SSTableIterator.loadEntry, block]
    | some _ => simp
  rw [scanEq]
  exact SSTableIterator.drains_enter blocksNonempty ⟨rfl, rfl, rfl⟩ (Nat.zero_le _)

/-! ## How much of a table a scan reads -/

theorem readableEntries_spec (damage : Nat → Option ReadError) (i : Nat) (entries : List Entry) :
    (readableEntries damage i entries).1 <+: entries ∧
      ((readableEntries damage i entries).2 = none →
        (readableEntries damage i entries).1 = entries) := by
  induction entries generalizing i with
  | nil => exact ⟨prefix_refl _, fun _ => rfl⟩
  | cons entry rest ih =>
    cases unreadable : damage i with
    | some err => simp [readableEntries, unreadable]
    | none =>
      obtain ⟨front, whole⟩ := ih (i + 1)
      simpa [readableEntries, unreadable] using ⟨front, whole⟩

theorem readableBlocks_spec (damage : Damage) (i : Nat) (blocks : List (List Entry)) :
    (readableBlocks damage i blocks).1 <+: blocks.flatten ∧
      ((readableBlocks damage i blocks).2 = none →
        (readableBlocks damage i blocks).1 = blocks.flatten) := by
  induction blocks generalizing i with
  | nil => exact ⟨prefix_refl _, fun _ => rfl⟩
  | cons block rest ih =>
    rw [readableBlocks, flatten_cons]
    cases damage.block i with
    | some err => simp
    | none =>
      obtain ⟨front, whole⟩ := readableEntries_spec (damage.entry i) 0 block
      generalize readableEntries (damage.entry i) 0 block = read at front whole
      obtain ⟨entries, _ | err⟩ := read
      · obtain ⟨laterFront, laterWhole⟩ := ih (i + 1)
        obtain rfl : entries = block := whole rfl
        refine ⟨(prefix_append_right_inj entries).mpr laterFront, ?_⟩
        intro noError
        exact congrArg (entries ++ ·) (laterWhole noError)
      · exact ⟨front.trans (prefix_append _ _), by simp⟩

theorem readableEntries_of_healthy {damage : Nat → Option ReadError}
    (healthy : ∀ j, damage j = none) (i : Nat) (entries : List Entry) :
    (readableEntries damage i entries).2 = none := by
  induction entries generalizing i with
  | nil => rfl
  | cons entry rest ih => simpa [readableEntries, healthy] using ih (i + 1)

namespace Reader

variable {r : Reader}

theorem readable_prefix (r : Reader) : r.readable.1 <+: r.entries :=
  (readableBlocks_spec r.damage 0 r.blocks).1

theorem readable_eq_entries (noError : r.readable.2 = none) : r.readable.1 = r.entries :=
  (readableBlocks_spec r.damage 0 r.blocks).2 noError

theorem Healthy.readable_eq (healthy : r.Healthy) : r.readable = (r.entries, none) := by
  have noError : ∀ i blocks, (readableBlocks r.damage i blocks).2 = none := by
    intro i blocks
    induction blocks generalizing i with
    | nil => rfl
    | cons block rest ih =>
      rw [readableBlocks, healthy.1 i]
      have read := readableEntries_of_healthy (healthy.2 i) 0 block
      generalize readableEntries (r.damage.entry i) 0 block = result at read
      obtain ⟨entries, error⟩ := result
      subst read
      exact ih (i + 1)
  exact Prod.ext (readable_eq_entries (noError 0 r.blocks)) (noError 0 r.blocks)

/-- The scan has failed before its first entry: the first block does not pass
its checksum or decode, or its first entry does not decode. -/
def UnreadableStart (r : Reader) : Prop :=
  r.damage.block 0 ≠ none ∨ r.damage.entry 0 0 ≠ none

/-- The scan reads its first entry and fails at a later block or entry. -/
def UnreadableLater (r : Reader) : Prop :=
  ¬ r.UnreadableStart ∧ r.readable.2 ≠ none

/-- The first error of a table is at its start exactly when nothing is read. -/
theorem readable_eq_nil_iff (nonempty : r.entries ≠ [])
    (blocksNonempty : ∀ block ∈ r.blocks, block ≠ []) :
    r.readable.1 = [] ↔ r.UnreadableStart := by
  rw [readable, UnreadableStart]
  rw [entries] at nonempty
  cases blocks : r.blocks with
  | nil => simp [blocks] at nonempty
  | cons block rest =>
    rw [readableBlocks]
    cases blockDamage : r.damage.block 0 with
    | some err => simp
    | none =>
      cases first : block with
      | nil => exact absurd first (blocksNonempty block (by simp [blocks]))
      | cons entry others =>
        cases entryDamage : r.damage.entry 0 0 with
        | some err => simp [readableEntries, entryDamage]
        | none =>
          simp only [readableEntries, entryDamage]
          generalize readableEntries (r.damage.entry 0) (0 + 1) others = read
          obtain ⟨entries, _ | err⟩ := read <;> simp

end Reader

end Theseon.SSTable
