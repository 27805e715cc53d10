import Theseon.KV.Versions
import Theseon.SSTable.Bloom

/-!
# Building SSTables

A block is modelled by the entries it holds together with the byte counts that
decide when it is full.  `Builder.add` follows the source check by check; the
table it finishes is the list of its blocks, the Bloom filter and the size of
the file.
-/

namespace Theseon.SSTable

open Lib KV List

def maxKeyLen : Nat := 2 ^ 16 - 1

def maxValueLen : Nat := 2 ^ 16 - 1

def maxBlockEntries : Nat := 2 ^ 16 - 1

def maxBlockOffset : Nat := 2 ^ 16 - 1

def blockEntryHeader : Nat := 5

def blockOffsetSize : Nat := 2

def blockCountSize : Nat := 2

def blockChecksumSize : Nat := 4

def footerSize : Nat := 33

def defaultBlockSize : Nat := 4096

/-- The fixed bytes of an index entry: key length, block offset and block size. -/
def indexEntryHeader : Nat := 2 + 8 + 4

/-- The errors of the two builders. -/
inductive BuildError where
  | keyTooLarge (size : Nat)
  | valueTooLarge (size : Nat)
  | blockEntryLimit
  | blockKeysNotAscending (prev new : Bytes)
  | entryOffsetTooLarge (offset : Nat)
  | addAfterFinish
  | keysNotSorted (key prev : Bytes)
  | blockTooLarge (size : Nat)
  | finishTwice
  | emptySSTable
  | corruptIndex
  deriving DecidableEq, Repr

/-- `BlockBuilder`: `dataLen` is the length of the encoded entries. -/
structure BlockBuilder where
  entries : List Entry
  dataLen : Nat
  size : Nat
  deriving DecidableEq, Repr

/-- The last key of a run, empty when there is none. -/
def lastKeyOf (entries : List Entry) : Bytes :=
  (entries.getLast?).elim [] Entry.key

def entrySize (key : Bytes) (value : Value) : Nat :=
  blockEntryHeader + key.length + if value.tombstone then 0 else value.bytes.length

namespace BlockBuilder

def new (blockSize : Nat) : BlockBuilder :=
  ⟨[], 0, blockSize⟩

/-- The length of `Build()`. -/
def buildLen (b : BlockBuilder) : Nat :=
  b.dataLen + b.entries.length * blockOffsetSize + blockCountSize

/-- The builder with one more entry. -/
def push (b : BlockBuilder) (key : Bytes) (value : Value) : BlockBuilder :=
  { b with
    entries := b.entries ++ [⟨key, value.stored⟩]
    dataLen := b.dataLen + entrySize key value }

/-- `BlockBuilder.Add`: whether the entry was accepted, or a format error. -/
def add (b : BlockBuilder) (key : Bytes) (value : Value) :
    Except BuildError (Bool × BlockBuilder) :=
  if maxKeyLen < key.length then .error (.keyTooLarge key.length)
  else if ¬ value.tombstone ∧ maxValueLen < value.bytes.length then
    .error (.valueTooLarge value.bytes.length)
  else if maxBlockEntries ≤ b.entries.length then .error .blockEntryLimit
  else if lastKeyOf b.entries ≠ [] ∧ key ≤ lastKeyOf b.entries then
    .error (.blockKeysNotAscending (lastKeyOf b.entries) key)
  else if b.entries ≠ [] ∧
      b.size < b.dataLen + entrySize key value + (b.entries.length + 1) * blockOffsetSize +
        blockCountSize then
    .ok (false, b)
  else if maxBlockOffset < b.dataLen then .error (.entryOffsetTooLarge b.dataLen)
  else .ok (true, b.push key value)

end BlockBuilder

/-- How reads of a table fail: a block may not pass its checksum or decode, and
an entry of a block may not decode. -/
inductive ReadError where
  | invalidChecksum (block : Nat)
  | corruptBlock (block : Nat)
  | corruptEntry (block entry : Nat)
  deriving DecidableEq, Repr

/-- The unreadable parts of a table file. -/
structure Damage where
  block : Nat → Option ReadError
  entry : Nat → Nat → Option ReadError

/-- Every block and entry is readable. -/
def Damage.none : Damage :=
  ⟨fun _ => .none, fun _ _ => .none⟩

/-- `Reader`: the blocks as they were written, with what can no longer be read.  The
index records the first key of the table and the last key of every block. -/
structure Reader where
  id : Nat
  blocks : List (List Entry)
  firstKey : Bytes
  lastKeys : List Bytes
  bloom : Bytes
  fileSize : Nat
  damage : Damage

/-- `Builder`: `blocks` are the blocks already flushed, and `lastKeys` what has been
recorded of them for the index. -/
structure Builder where
  id : Nat
  block : BlockBuilder
  blocks : List (List Entry)
  lastKeys : List Bytes
  hashes : List UInt32
  firstKey : Option Bytes
  prevKey : Bytes
  offset : Nat
  finished : Bool
  deriving DecidableEq, Repr

namespace Builder

def new (id : Nat) (blockSize : Int) : Builder where
  id := id
  block := BlockBuilder.new (if blockSize ≤ 0 then defaultBlockSize else blockSize.toNat)
  blocks := []
  lastKeys := []
  hashes := []
  firstKey := none
  prevKey := []
  offset := 0
  finished := false

def flushBlock (b : Builder) : Except BuildError Builder :=
  if b.block.entries = [] then .ok b
  else if 2 ^ 32 - 1 < b.block.buildLen then .error (.blockTooLarge b.block.buildLen)
  else
    .ok
      { b with
        blocks := b.blocks ++ [b.block.entries]
        lastKeys := b.lastKeys ++ [lastKeyOf b.block.entries]
        offset := b.offset + b.block.buildLen + blockChecksumSize
        block := BlockBuilder.new b.block.size }

/-- What `Add` records about a key before it goes into a block. -/
def note (b : Builder) (key : Bytes) : Builder :=
  { b with
    firstKey := some (b.firstKey.getD key)
    hashes := b.hashes ++ [bloomHash (userKey key)]
    prevKey := key }

/-- The part of `Add` that puts the entry into the current block, or into a new
one when the current block is full. -/
def place (b : Builder) (key : Bytes) (value : Value) : Except BuildError Builder :=
  match b.block.add key value with
  | .error err => .error err
  | .ok (true, block) => .ok { b.note key with block := block }
  | .ok (false, _) =>
    match (b.note key).flushBlock with
    | .error err => .error err
    | .ok flushed =>
      match flushed.block.add key value with
      | .error err => .error err
      | .ok (_, block) => .ok { flushed with block := block }

def add (b : Builder) (key : Bytes) (value : Value) : Except BuildError Builder :=
  if b.finished then .error .addAfterFinish
  else if b.prevKey ≠ [] ∧ key ≤ b.prevKey then .error (.keysNotSorted key b.prevKey)
  else b.place key value

def estimatedSize (b : Builder) : Nat :=
  b.offset + b.block.dataLen

/-- The length of the index block. -/
def indexLen (firstKey : Bytes) (lastKeys : List Bytes) : Nat :=
  2 + firstKey.length + (lastKeys.map fun key => indexEntryHeader + key.length).sum

/-- `Finish`, up to writing the file: the table that `OpenReader` then reads. -/
def finish (b : Builder) : Except BuildError Reader :=
  if b.finished then .error .finishTwice
  else
    match b.firstKey with
    | none => .error .emptySSTable
    | some firstKey =>
      match b.flushBlock with
      | .error err => .error err
      | .ok flushed =>
        if maxKeyLen < firstKey.length ∨ ∃ key ∈ flushed.lastKeys, maxKeyLen < key.length then
          .error .corruptIndex
        else
          let bloom := buildBloomFilter flushed.hashes
          .ok
            { id := b.id
              blocks := flushed.blocks
              firstKey := firstKey
              lastKeys := flushed.lastKeys
              bloom := bloom
              fileSize := flushed.offset + bloom.length +
                indexLen firstKey flushed.lastKeys + footerSize
              damage := .none }

/-- The entries added so far. -/
def contents (b : Builder) : List Entry :=
  b.blocks.flatten ++ b.block.entries

end Builder

/-! ## What the builders hold -/

@[simp]
theorem lastKeyOf_concat (entries : List Entry) (entry : Entry) :
    lastKeyOf (entries ++ [entry]) = entry.key := by
  simp [lastKeyOf]

theorem lastKeyOf_append_of_ne_nil (front : List Entry) {back : List Entry} (nonempty : back ≠ []) :
    lastKeyOf (front ++ back) = lastKeyOf back := by
  rw [lastKeyOf, lastKeyOf, getLast?_append_of_ne_nil front nonempty]

theorem le_lastKeyOf {entries : List Entry} (sorted : Sorted entries) {entry : Entry}
    (mem : entry ∈ entries) : entry.key ≤ lastKeyOf entries := by
  rcases (eq_nil_or_concat' entries).resolve_left (ne_nil_of_mem mem) with ⟨front, last, rfl⟩
  rw [lastKeyOf_concat]
  rcases mem_append.mp mem with inFront | isLast
  · exact (pairwise_append.mp sorted).2.2 entry inFront last mem_cons_self
  · rw [mem_singleton.mp isLast]

theorem BlockBuilder.add_eq_ok {b block : BlockBuilder} {key : Bytes} {value : Value}
    {accepted : Bool} (added : b.add key value = .ok (accepted, block)) :
    (accepted = true ∧ block = b.push key value) ∨ (accepted = false ∧ b.entries ≠ []) := by
  unfold add at added
  repeat' split at added
  all_goals simp only [Except.ok.injEq, Prod.mk.injEq, reduceCtorEq] at added
  · rename_i full
    exact .inr ⟨added.1.symm, full.1⟩
  · exact .inl ⟨added.1.symm, added.2.symm⟩

namespace Builder

variable {b flushed : Builder}

theorem flushBlock_eq_ok (done : b.flushBlock = .ok flushed) :
    (b.block.entries = [] ∧ flushed = b) ∨
      (b.block.entries ≠ [] ∧
        flushed =
          { b with
            blocks := b.blocks ++ [b.block.entries]
            lastKeys := b.lastKeys ++ [lastKeyOf b.block.entries]
            offset := b.offset + b.block.buildLen + blockChecksumSize
            block := BlockBuilder.new b.block.size }) := by
  unfold flushBlock at done
  split at done
  · rename_i empty
    exact .inl ⟨empty, (Except.ok.inj done).symm⟩
  rename_i nonempty
  split at done
  · contradiction
  · exact .inr ⟨nonempty, (Except.ok.inj done).symm⟩

theorem contents_flushBlock (done : b.flushBlock = .ok flushed) :
    flushed.contents = b.contents := by
  rcases flushBlock_eq_ok done with ⟨_, rfl⟩ | ⟨_, rfl⟩
  · rfl
  · simp [contents, BlockBuilder.new]

theorem entries_flushBlock (done : b.flushBlock = .ok flushed) : flushed.block.entries = [] := by
  rcases flushBlock_eq_ok done with ⟨empty, rfl⟩ | ⟨_, rfl⟩
  · exact empty
  · rfl

/-- What a builder of internal keys holds at every moment. -/
structure Sound (b : Builder) : Prop where
  blocksNonempty : ∀ block ∈ b.blocks, block ≠ []
  lastKeys : b.lastKeys = b.blocks.map lastKeyOf
  hashes : b.hashes = b.contents.map fun entry => bloomHash entry.user
  firstKey : b.firstKey = b.contents.head?.map Entry.key
  prevKey : b.prevKey = lastKeyOf b.contents
  ascending : Ascending b.contents
  long : ∀ entry ∈ b.contents, entry.Long
  clean : ∀ entry ∈ b.contents, entry.value.Clean

theorem new_sound (id : Nat) (blockSize : Int) : (new id blockSize).Sound where
  blocksNonempty := by simp [new]
  lastKeys := rfl
  hashes := rfl
  firstKey := rfl
  prevKey := rfl
  ascending := List.Pairwise.nil
  long := by simp [new, contents, BlockBuilder.new]
  clean := by simp [new, contents, BlockBuilder.new]

theorem Sound.flushBlock (sound : b.Sound) (done : b.flushBlock = .ok flushed) :
    flushed.Sound ∧ flushed.block.entries = [] ∧ flushed.id = b.id := by
  have same := contents_flushBlock done
  rcases flushBlock_eq_ok done with ⟨empty, rfl⟩ | ⟨nonempty, flushedEq⟩
  · exact ⟨sound, empty, rfl⟩
  refine ⟨⟨?_, ?_, ?_, ?_, ?_, ?_, ?_, ?_⟩, by rw [flushedEq]; rfl, by rw [flushedEq]⟩
  · rw [flushedEq]
    intro block blockMem
    rcases mem_append.mp blockMem with old | last
    · exact sound.blocksNonempty block old
    · rwa [mem_singleton.mp last]
  · rw [flushedEq, map_append, ← sound.lastKeys]
    rfl
  · rw [same, ← sound.hashes, flushedEq]
  · rw [same, ← sound.firstKey, flushedEq]
  · rw [same, ← sound.prevKey, flushedEq]
  · rw [same]
    exact sound.ascending
  · rw [same]
    exact sound.long
  · rw [same]
    exact sound.clean

/-- A successful `Add` accepts a key above all earlier ones and appends the entry. -/
theorem add_eq_ok {next : Builder} {key : Bytes} {value : Value}
    (added : b.add key value = .ok next) :
    (b.prevKey = [] ∨ b.prevKey < key) ∧
      next.contents = b.contents ++ [⟨key, value.stored⟩] ∧
      next.hashes = b.hashes ++ [bloomHash (userKey key)] ∧
      next.firstKey = some (b.firstKey.getD key) ∧ next.prevKey = key ∧ next.id = b.id ∧
      ∃ flushed, (∀ block ∈ flushed, block ≠ []) ∧ next.blocks = b.blocks ++ flushed ∧
        next.lastKeys = b.lastKeys ++ flushed.map lastKeyOf := by
  unfold add at added
  split at added
  · contradiction
  split at added
  · contradiction
  rename_i inOrder
  have order : b.prevKey = [] ∨ b.prevKey < key := by
    by_cases first : b.prevKey = []
    · exact .inl first
    · exact .inr (not_le.mp fun le => inOrder ⟨first, le⟩)
  refine ⟨order, ?_⟩
  unfold place at added
  split at added
  · contradiction
  · rename_i block accepted
    rcases BlockBuilder.add_eq_ok accepted with ⟨_, rfl⟩ | ⟨contra, _⟩
    · rw [← Except.ok.inj added]
      exact ⟨by simp [contents, note, BlockBuilder.push], rfl, rfl, rfl, rfl,
        [], forall_mem_nil _, (append_nil _).symm, (append_nil _).symm⟩
    · contradiction
  · rename_i full
    split at added
    · contradiction
    rename_i flushed done
    split at added
    · contradiction
    rename_i accepted block again
    rcases BlockBuilder.add_eq_ok again with ⟨_, rfl⟩ | ⟨_, nonempty⟩
    · rw [← Except.ok.inj added]
      have same : flushed.contents = (b.note key).contents := contents_flushBlock done
      refine ⟨?_, ?_⟩
      · change _ = (b.note key).contents ++ _
        rw [← same]
        simp [contents, BlockBuilder.push]
      rcases flushBlock_eq_ok done with ⟨_, rfl⟩ | ⟨nonempty, rfl⟩
      · exact ⟨rfl, rfl, rfl, rfl, [], forall_mem_nil _, (append_nil _).symm, (append_nil _).symm⟩
      · exact ⟨rfl, rfl, rfl, rfl, [_], forall_mem_singleton.mpr nonempty, rfl, rfl⟩
    · exact absurd (entries_flushBlock done) nonempty

theorem Sound.add {next : Builder} {key : Bytes} {value : Value} (sound : b.Sound)
    (long : seqSize ≤ key.length) (added : b.add key value = .ok next) : next.Sound := by
  obtain ⟨order, contentsEq, hashesEq, firstEq, prevEq, _, flushed, nonempty, blocks, lastKeys⟩ :=
    add_eq_ok added
  have above : ∀ old ∈ b.contents, old.key < key := by
    intro old oldMem
    obtain ⟨init, last, split⟩ := (eq_nil_or_concat' b.contents).resolve_left
      (ne_nil_of_mem oldMem)
    have ascending := sound.ascending
    have prev := sound.prevKey
    rw [split] at ascending prev oldMem
    rw [lastKeyOf_concat] at prev
    have lastBelow : last.key < key := by
      rcases order with none | below
      · have lastLong : seqSize ≤ last.key.length := sound.long last (by simp [split])
        rw [← prev, none] at lastLong
        simp [seqSize] at lastLong
      · rwa [prev] at below
    rcases mem_append.mp oldMem with inInit | isLast
    · exact ((pairwise_append.mp ascending).2.2 old inInit last (by simp)).trans lastBelow
    · rwa [mem_singleton.mp isLast]
  refine ⟨?_, ?_, ?_, ?_, ?_, ?_, ?_, ?_⟩
  · rw [blocks]
    exact forall_mem_append.mpr ⟨sound.blocksNonempty, nonempty⟩
  · rw [lastKeys, blocks, map_append, sound.lastKeys]
  · rw [hashesEq, contentsEq, sound.hashes, map_append]
    rfl
  · rw [firstEq, contentsEq, sound.firstKey]
    cases b.contents <;> rfl
  · rw [prevEq, contentsEq, lastKeyOf_concat]
  · rw [contentsEq]
    refine pairwise_append.mpr ⟨sound.ascending, pairwise_singleton _ _, ?_⟩
    intro old oldMem entry entryMem
    rw [mem_singleton.mp entryMem]
    exact above old oldMem
  · rw [contentsEq]
    intro entry entryMem
    rcases mem_append.mp entryMem with old | isNew
    · exact sound.long entry old
    · rw [mem_singleton.mp isNew]
      exact long
  · rw [contentsEq]
    intro entry entryMem
    rcases mem_append.mp entryMem with old | isNew
    · exact sound.clean entry old
    · rw [mem_singleton.mp isNew]
      exact Value.clean_stored value

end Builder

/-! ## Finished tables -/

namespace Reader

/-- The entries as they were written, in key order. -/
def entries (r : Reader) : List Entry :=
  r.blocks.flatten

def lastKey (r : Reader) : Bytes :=
  r.lastKeys.getLastD []

/-- A table as a builder of internal keys leaves it. -/
structure WellFormed (r : Reader) : Prop where
  nonempty : r.entries ≠ []
  blocksNonempty : ∀ block ∈ r.blocks, block ≠ []
  firstKey : r.entries.head?.map Entry.key = some r.firstKey
  lastKeys : r.lastKeys = r.blocks.map lastKeyOf
  ascending : Ascending r.entries
  long : ∀ entry ∈ r.entries, entry.Long
  clean : ∀ entry ∈ r.entries, entry.value.Clean
  bloomed : ∀ entry ∈ r.entries, bloomMayContain r.bloom entry.user

/-- Everything can be read. -/
def Healthy (r : Reader) : Prop :=
  (∀ block, r.damage.block block = none) ∧ ∀ block entry, r.damage.entry block entry = none

end Reader

variable {b : Builder} {r : Reader}

theorem Builder.finish_id (done : b.finish = .ok r) : r.id = b.id := by
  rw [finish] at done
  repeat' split at done
  all_goals cases done
  rfl

/-- `Finish` writes out exactly the entries that were added. -/
theorem Builder.finish_entries (done : b.finish = .ok r) : r.entries = b.contents := by
  rw [finish] at done
  repeat' split at done
  all_goals cases done
  rename_i flushed flush _
  rw [← contents_flushBlock flush, contents]
  rcases flushBlock_eq_ok flush with ⟨empty, rfl⟩ | ⟨_, rfl⟩
  · rw [empty, append_nil]
    rfl
  · exact (append_nil _).symm

theorem Builder.finish_eq_ok (sound : b.Sound) (done : b.finish = .ok r) :
    r.entries = b.contents ∧ r.WellFormed ∧ r.Healthy := by
  unfold finish at done
  split at done
  · contradiction
  split at done
  · contradiction
  rename_i firstKey first
  split at done
  · contradiction
  rename_i flushed flush
  split at done
  · contradiction
  obtain ⟨flushedSound, empty, _⟩ := sound.flushBlock flush
  have same : flushed.blocks.flatten = b.contents := by
    rw [← contents_flushBlock flush, contents, empty, append_nil]
  have whole : flushed.contents = flushed.blocks.flatten := by
    rw [contents, empty, append_nil]
  rw [← Except.ok.inj done]
  refine ⟨same, ⟨?_, flushedSound.blocksNonempty, ?_, flushedSound.lastKeys, ?_, ?_, ?_, ?_⟩,
    fun _ => rfl, fun _ _ => rfl⟩
  · change flushed.blocks.flatten ≠ []
    rw [same]
    intro none
    rw [sound.firstKey, none] at first
    contradiction
  · rw [Reader.entries, same, ← sound.firstKey, first]
  · have ascending := flushedSound.ascending
    rwa [whole] at ascending
  · have long := flushedSound.long
    rwa [whole] at long
  · have clean := flushedSound.clean
    rwa [whole] at clean
  · intro entry entryMem
    refine bloomMayContain_of_mem ?_
    rw [flushedSound.hashes, whole]
    exact mem_map_of_mem entryMem

end Theseon.SSTable
