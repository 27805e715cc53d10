import Theseon.SSTable.Builder

/-!
# Building within the format limits

With a block size that fits the two-byte offsets, every ascending run of entries
within the key and value limits can be built: no check of the builders fails.
-/

namespace Theseon.SSTable

open Lib KV

/-- Key and value fit the block format. -/
def InLimits (key : Bytes) (value : Value) : Prop :=
  key.length ≤ maxKeyLen ∧ (value.tombstone = true ∨ value.bytes.length ≤ maxValueLen)

instance (key : Bytes) (value : Value) : Decidable (InLimits key value) :=
  inferInstanceAs (Decidable (_ ∧ _))

theorem InLimits.entrySize_le {key : Bytes} {value : Value} (limits : InLimits key value) :
    entrySize key value ≤ blockEntryHeader + maxKeyLen + maxValueLen := by
  obtain ⟨keyLe, valueLe⟩ := limits
  simp only [entrySize]
  split
  · omega
  rename_i regular
  have := valueLe.resolve_left regular
  omega

/-- The byte counts of a block builder whose target size fits the offsets.  A
single entry may exceed the target. -/
structure BlockBuilder.Fits (b : BlockBuilder) : Prop where
  small : b.size ≤ maxBlockOffset
  empty : b.entries = [] → b.dataLen = 0
  single : b.entries.length = 1 → b.dataLen ≤ blockEntryHeader + maxKeyLen + maxValueLen
  many : 2 ≤ b.entries.length →
    b.dataLen + b.entries.length * blockOffsetSize + blockCountSize ≤ b.size

namespace BlockBuilder

variable {b : BlockBuilder} {key : Bytes} {value : Value}

theorem new_fits {size : Nat} (small : size ≤ maxBlockOffset) : (new size).Fits :=
  ⟨small, fun _ => rfl, by simp [new], by simp [new]⟩

/-- An entry within the limits is accepted, or asks for a new block. -/
theorem Fits.add (fits : b.Fits) (limits : InLimits key value)
    (ascending : lastKeyOf b.entries = [] ∨ lastKeyOf b.entries < key) :
    (b.add key value = .ok (true, b.push key value) ∧ (b.push key value).Fits) ∨
      (b.entries ≠ [] ∧ b.add key value = .ok (false, b)) := by
  have limit := limits.entrySize_le
  have count : b.entries.length < maxBlockEntries := by
    by_contra tooMany
    have := fits.many (by simp only [maxBlockEntries] at tooMany; omega)
    have := fits.small
    simp only [maxBlockEntries, maxBlockOffset, blockOffsetSize, blockCountSize] at *
    omega
  have inOrder : ¬ (lastKeyOf b.entries ≠ [] ∧ key ≤ lastKeyOf b.entries) := by
    rintro ⟨nonempty, le⟩
    exact absurd le (not_le.mpr (ascending.resolve_left nonempty))
  have valueOk : ¬ (¬ value.tombstone = true ∧ maxValueLen < value.bytes.length) := by
    rintro ⟨regular, tooLarge⟩
    exact absurd (limits.2.resolve_left regular) (not_le.mpr tooLarge)
  unfold BlockBuilder.add
  rw [if_neg (not_lt.mpr limits.1), if_neg valueOk, if_neg (not_le.mpr count), if_neg inOrder]
  split
  · rename_i full
    exact .inr ⟨full.1, rfl⟩
  rename_i room
  have offset : b.dataLen ≤ maxBlockOffset := by
    by_cases first : b.entries = []
    · rw [fits.empty first]
      exact Nat.zero_le _
    have := fits.small
    have := not_lt.mp fun tooLarge => room ⟨first, tooLarge⟩
    omega
  rw [if_neg (not_lt.mpr offset)]
  refine .inl ⟨rfl, fits.small, by simp [push], ?_, ?_⟩
  · intro one
    have first : b.entries = [] := by simpa [push] using one
    simp only [push, fits.empty first]
    omega
  intro two
  have notFirst : b.entries ≠ [] := by
    intro first
    simp [push, first] at two
  have := not_lt.mp fun tooLarge => room ⟨notFirst, tooLarge⟩
  simpa [push] using this

/-- The checks of the limits come first. -/
theorem inLimits_of_add {accepted : Bool} {block : BlockBuilder}
    (added : b.add key value = .ok (accepted, block)) : InLimits key value := by
  rw [BlockBuilder.add] at added
  split at added
  · cases added
  rename_i keyOk
  split at added
  · cases added
  rename_i valueOk
  refine ⟨not_lt.mp keyOk, ?_⟩
  by_cases kind : value.tombstone = true
  · exact .inl kind
  · exact .inr (not_lt.mp fun tooLarge => valueOk ⟨kind, tooLarge⟩)

/-- The encoded block fits its length field. -/
theorem Fits.buildLen_le (fits : b.Fits) : b.buildLen ≤ 2 ^ 32 - 1 := by
  have small := fits.small
  simp only [buildLen, maxBlockOffset] at *
  rcases Nat.lt_or_ge b.entries.length 2 with few | many
  · have : b.dataLen ≤ blockEntryHeader + maxKeyLen + maxValueLen := by
      rcases Nat.lt_or_ge b.entries.length 1 with none | one
      · rw [fits.empty (List.length_eq_zero_iff.mp (by omega))]
        exact Nat.zero_le _
      · exact fits.single (by omega)
    simp only [blockEntryHeader, maxKeyLen, maxValueLen, blockOffsetSize, blockCountSize] at *
    omega
  · have := fits.many many
    omega

end BlockBuilder

/-- A builder none of whose checks has failed or will fail. -/
structure Builder.Fits (b : Builder) : Prop where
  unfinished : b.finished = false
  block : b.block.Fits
  keys : ∀ entry ∈ b.contents, entry.key.length ≤ maxKeyLen

namespace Builder

variable {b : Builder} {key : Bytes} {value : Value}

theorem new_fits (id : Nat) {blockSize : Int} (small : blockSize ≤ maxBlockOffset) :
    (new id blockSize).Fits := by
  refine ⟨rfl, BlockBuilder.new_fits ?_, by simp [new, contents, BlockBuilder.new]⟩
  simp only [maxBlockOffset, defaultBlockSize] at *
  split <;> omega

theorem Fits.flushBlock (fits : b.Fits) :
    ∃ flushed, b.flushBlock = .ok flushed ∧ flushed.Fits ∧ flushed.block.entries = [] := by
  by_cases empty : b.block.entries = []
  · exact ⟨b, by rw [Builder.flushBlock, if_pos empty], fits, empty⟩
  refine ⟨_, by
    rw [Builder.flushBlock, if_neg empty, if_neg (not_lt.mpr fits.block.buildLen_le)], ?_, rfl⟩
  refine ⟨fits.unfinished, BlockBuilder.new_fits fits.block.small, ?_⟩
  intro entry entryMem
  refine fits.keys entry ?_
  simpa [contents, BlockBuilder.new] using entryMem

/-- Adding the next key of an ascending run within the limits succeeds. -/
theorem Fits.add (sound : b.Sound) (fits : b.Fits) (limits : InLimits key value)
    (ascending : b.prevKey = [] ∨ b.prevKey < key) :
    ∃ next, b.add key value = .ok next ∧ next.Fits := by
  have inOrder : ¬ (b.prevKey ≠ [] ∧ key ≤ b.prevKey) := by
    rintro ⟨nonempty, le⟩
    exact absurd le (not_le.mpr (ascending.resolve_left nonempty))
  have blockOrder : lastKeyOf b.block.entries = [] ∨ lastKeyOf b.block.entries < key := by
    by_cases empty : b.block.entries = []
    · exact .inl (by simp [empty, lastKeyOf])
    · rwa [sound.prevKey, contents, lastKeyOf_append_of_ne_nil _ empty] at ascending
  have keysAfter : ∀ next : Builder, next.contents = b.contents ++ [⟨key, value.stored⟩] →
      ∀ entry ∈ next.contents, entry.key.length ≤ maxKeyLen := by
    intro next contentsEq entry entryMem
    rw [contentsEq] at entryMem
    rcases List.mem_append.mp entryMem with old | isNew
    · exact fits.keys entry old
    · rw [List.mem_singleton.mp isNew]
      exact limits.1
  have start : b.add key value = b.place key value := by
    simp only [Builder.add, fits.unfinished, Bool.false_eq_true, if_false, if_neg inOrder]
  rcases fits.block.add limits blockOrder with ⟨accepted, blockFits⟩ | ⟨nonempty, full⟩
  · simp only [place, accepted] at start
    exact ⟨_, start, fits.unfinished, blockFits, keysAfter _ (add_eq_ok start).2.1⟩
  have noteFits : (b.note key).Fits := ⟨fits.unfinished, fits.block, fits.keys⟩
  obtain ⟨flushed, flush, flushedFits, flushedEmpty⟩ := noteFits.flushBlock
  rcases flushedFits.block.add limits (.inl (by simp [flushedEmpty, lastKeyOf])) with
    ⟨accepted, blockFits⟩ | ⟨contra, _⟩
  · simp only [place, full, flush, accepted] at start
    exact ⟨_, start, flushedFits.unfinished, blockFits, keysAfter _ (add_eq_ok start).2.1⟩
  · exact absurd flushedEmpty contra

theorem inLimits_of_add {next : Builder} (added : b.add key value = .ok next) :
    InLimits key value := by
  rw [add] at added
  split at added
  · cases added
  split at added
  · cases added
  rw [place] at added
  split at added
  · cases added
  · rename_i accepted
    exact BlockBuilder.inLimits_of_add accepted
  · rename_i full
    exact BlockBuilder.inLimits_of_add full

/-- A builder with at least one entry can be finished. -/
theorem Fits.finish (sound : b.Sound) (fits : b.Fits) (nonempty : b.contents ≠ []) :
    ∃ r, b.finish = .ok r := by
  obtain ⟨flushed, flush, flushedFits, _⟩ := fits.flushBlock
  obtain ⟨first, rest, split⟩ := List.exists_cons_of_ne_nil nonempty
  have firstKey : b.firstKey = some first.key := by rw [sound.firstKey, split]; rfl
  have indexOk : ¬ (maxKeyLen < first.key.length ∨
      ∃ key ∈ flushed.lastKeys, maxKeyLen < key.length) := by
    rw [(sound.flushBlock flush).1.lastKeys]
    rintro (tooLong | ⟨key, keyMem, tooLong⟩)
    · exact absurd (fits.keys first (by simp [split])) (not_le.mpr tooLong)
    · obtain ⟨block, blockMem, rfl⟩ := List.mem_map.mp keyMem
      obtain ⟨init, last, rfl⟩ := (List.eq_nil_or_concat' block).resolve_left
        ((sound.flushBlock flush).1.blocksNonempty block blockMem)
      rw [lastKeyOf_concat] at tooLong
      refine absurd (flushedFits.keys last ?_) (not_le.mpr tooLong)
      exact List.mem_append_left _ (List.mem_flatten.mpr ⟨_, blockMem, by simp⟩)
  simp only [Builder.finish, fits.unfinished, Bool.false_eq_true, if_false, firstKey, flush,
    if_neg indexOk]
  exact ⟨_, rfl⟩

end Builder

end Theseon.SSTable
