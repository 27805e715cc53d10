import Theseon.Lib.Checked
import Theseon.Lib.Reader
import Theseon.WAL.Limits

/-!
# Recovery of arbitrary bytes

`decodeRecord` with its slice and index expressions as the source has them, by offsets
into the data.  Everything it reads behind the count is compared with the end of the
record first.  The count is not: in a record whose payload is declared with less than
two bytes and passes its checksum, the count is read behind the record.
-/

namespace Theseon.WAL

open Lib KV List

/-- One round of the loop of `decodeRecord`: the entry at `offset` and the offset behind
it. -/
def decodeEntryAt (data : Bytes) (totalLen offset : Nat) : Checked DecodeError (Entry × Nat) :=
  if totalLen < offset + entryHeader then Checked.fail .short
  else do
    let flag ← index data offset
    let seq ← uintAt 8 data (offset + 1)
    let keyLen ← uintAt 2 data (offset + 9)
    let valueLen ← uintAt 4 data (offset + 11)
    let offset := offset + entryHeader
    if totalLen < offset + keyLen then Checked.fail .short
    else do
      let key ← slice data offset (offset + keyLen)
      let offset := offset + keyLen
      if flag = flagPut then
        if totalLen < offset + valueLen then Checked.fail .short
        else do
          let value ← slice data offset (offset + valueLen)
          return (⟨seq, key, .new (some value)⟩, offset + valueLen)
      else if flag = flagTombstone then return (⟨seq, key, .newTombstone⟩, offset)
      else Checked.fail .invalidFlag

/-- The loop of `decodeRecord`. -/
def decodeEntriesAt (data : Bytes) (totalLen : Nat) : Nat → Nat → Checked DecodeError (List Entry)
  | 0, _ => .ok []
  | count + 1, offset => do
    let (entry, offset) ← decodeEntryAt data totalLen offset
    let entries ← decodeEntriesAt data totalLen count offset
    return entry :: entries

/-- `decodeRecord`, with the offsets of the source. -/
def decodeRecordAt (data : Bytes) : Checked DecodeError (List Entry × Nat) :=
  if data.length < frameHeader then Checked.fail .short
  else do
    let storedChecksum ← uintAt 4 data 0
    let payloadLen ← uintAt 4 data 4
    let totalLen := frameHeader + payloadLen
    if data.length < totalLen then Checked.fail .short
    else do
      let covered ← slice data 4 totalLen
      if storedChecksum ≠ (crc32 covered).toNat then Checked.fail .corrupt
      else do
        let count ← uintAt 2 data frameHeader
        let entries ← decodeEntriesAt data totalLen count (frameHeader + 2)
        return (entries, totalLen)

/-- The loop of `Recover`, for at most `rounds` looks at the offset; `none` when it goes
on. -/
def recoverAt (data : Bytes) :
    Nat → Nat → List Entry → Option (Checked DecodeError (List Entry))
  | 0, _, _ => none
  | rounds + 1, offset, entries =>
    if data.length ≤ offset then some (.ok entries)
    else
      match decodeRecordAt (data.drop offset) with
      | .ok (record, n) => recoverAt data rounds (offset + n) (entries ++ record)
      | .error .outOfRange => some (.error .outOfRange)
      | .error (.failed err) =>
        if err.isTail then some (.ok entries) else some (Checked.fail err)

/-! ## The reads by offsets -/

/-- What the decoding of an entry means for the offsets. -/
def placed (totalLen : Nat) :
    Except DecodeError (Entry × Bytes) → Checked DecodeError (Entry × Nat)
  | .error err => Checked.fail err
  | .ok (entry, rest) => .ok (entry, totalLen - rest.length)

variable {data rest : Bytes} {offset : Nat}

/-- The entry is read from the rest of the record, and nothing behind it. -/
theorem decodeEntryAt_eq {totalLen : Nat} (within : totalLen ≤ data.length) (offset : Nat) :
    decodeEntryAt data totalLen offset =
      placed totalLen (decodeEntry ((data.take totalLen).drop offset)) := by
  have length : ((data.take totalLen).drop offset).length = totalLen - offset := by
    rw [length_drop, length_take, Nat.min_eq_left within]
  have read : ∀ skip width, offset + skip + width ≤ totalLen →
      (data.drop (offset + skip)).take width =
        (((data.take totalLen).drop offset).drop skip).take width := by
    intro skip width inRecord
    rw [drop_drop, take_drop_take inRecord]
  have first : offset < totalLen →
      data.getD offset 0 = ((data.take totalLen).drop offset).headD 0 := by
    intro inRecord
    rw [headD_eq_head?_getD, head?_drop, getElem?_take_of_lt inRecord,
      getD_eq_getElem?_getD]
  generalize (data.take totalLen).drop offset = rest at length read first ⊢
  have header : entryHeader = 15 := rfl
  rw [decodeEntryAt, decodeEntry, length]
  by_cases short : totalLen < offset + entryHeader
  · rw [if_pos short, if_pos (by omega)]
    rfl
  rw [if_neg short, if_neg (by omega), index_eq_ok (by omega), uintAt_eq_ok (by omega),
    uintAt_eq_ok (by omega), uintAt_eq_ok (by omega), first (by omega), read 1 8 (by omega),
    read 9 2 (by omega), read 11 4 (by omega)]
  simp only [ok_bind, length_drop, length]
  generalize ofLittleEndian ((rest.drop 9).take 2) = keyLen
  generalize ofLittleEndian ((rest.drop 11).take 4) = valueLen
  by_cases noKey : totalLen < offset + entryHeader + keyLen
  · rw [if_pos noKey, if_pos (by omega)]
    rfl
  rw [if_neg noKey, if_neg (by omega), slice_eq_ok (by omega) (by omega), Nat.add_sub_cancel_left,
    read _ _ (by omega), ok_bind]
  have stop : ∀ used, offset + used ≤ totalLen →
      totalLen - (rest.drop used).length = offset + used := by
    intro used inRecord
    rw [length_drop, length]
    omega
  by_cases isPut : rest.headD 0 = flagPut
  · rw [if_pos isPut, if_pos isPut]
    by_cases noValue : totalLen < offset + entryHeader + keyLen + valueLen
    · rw [if_pos noValue, if_pos (by omega)]
      rfl
    rw [if_neg noValue, if_neg (by omega), slice_eq_ok (by omega) (by omega),
      Nat.add_sub_cancel_left, Nat.add_assoc offset, read _ _ (by omega), ok_bind, placed,
      drop_drop, drop_drop, stop _ (by omega), Nat.add_assoc offset]
    rfl
  rw [if_neg isPut, if_neg isPut]
  split
  · rw [placed, drop_drop, stop _ (by omega), ← Nat.add_assoc]
    rfl
  · rfl

theorem decodeEntriesAt_eq {totalLen : Nat} (within : totalLen ≤ data.length) (count offset : Nat) :
    decodeEntriesAt data totalLen count offset =
      (decodeEntries count ((data.take totalLen).drop offset)).mapError .failed := by
  induction count generalizing offset with
  | zero => rfl
  | succ count ih =>
    rw [decodeEntriesAt, decodeEntries, decodeEntryAt_eq within]
    cases decoded : decodeEntry ((data.take totalLen).drop offset) with
    | error err => rfl
    | ok read =>
      have suffix := (decodeEntry_eq_ok decoded).2.2
      have place := suffix_iff_eq_drop.mp (suffix.trans (drop_suffix _ _))
      rw [length_take, Nat.min_eq_left within] at place
      simp only [placed, ok_bind, ih, ← place]
      cases decodeEntries count read.2 <;> rfl

/-- The panic among the errors of `decodeRecord`. -/
def DecodeError.fault : DecodeError → Fault DecodeError
  | .outOfRange => .outOfRange
  | err => .failed err

theorem decodeEntry_fault (rest : Bytes) :
    (decodeEntry rest).mapError DecodeError.fault = (decodeEntry rest).mapError .failed := by
  simp only [decodeEntry]
  repeat' split
  all_goals rfl

theorem decodeEntries_fault (count : Nat) (rest : Bytes) :
    (decodeEntries count rest).mapError DecodeError.fault =
      (decodeEntries count rest).mapError .failed := by
  induction count generalizing rest with
  | zero => rfl
  | succ count ih =>
    rw [decodeEntries]
    have first := decodeEntry_fault rest
    split
    · rename_i err failed
      rw [failed] at first
      exact congrArg Except.error (Except.error.inj first)
    rename_i entry tail _
    have later := ih tail
    cases decoded : decodeEntries count tail with
    | ok entries => rfl
    | error err =>
      rw [decoded] at later
      exact congrArg Except.error (Except.error.inj later)

/-- The two models of `decodeRecord` agree. -/
theorem decodeRecordAt_eq (data : Bytes) :
    decodeRecordAt data = (decodeRecord data).mapError DecodeError.fault := by
  have header : frameHeader = 8 := rfl
  rw [decodeRecordAt, decodeRecord, unframe]
  by_cases short : data.length < frameHeader
  · rw [if_pos short, if_pos short]
    rfl
  rw [if_neg short, if_neg short, uintAt_eq_ok (by omega), uintAt_eq_ok (by omega)]
  simp only [ok_bind, drop_zero, Nat.not_lt_zero, if_false]
  generalize ofLittleEndian ((data.drop 4).take 4) = payloadLen
  by_cases cut : data.length < frameHeader + payloadLen
  · rw [if_pos cut, if_pos cut]
    rfl
  have covered : frameHeader + payloadLen - 4 = 4 + payloadLen := by omega
  rw [if_neg cut, if_neg cut, slice_eq_ok (by omega) (by omega), covered, ok_bind]
  split
  · rfl
  by_cases behind : data.length < frameHeader + 2
  · simp only [if_pos behind]
    rw [uintAt, slice, if_neg (by omega)]
    rfl
  have record : (data.drop (frameHeader + 2)).take (payloadLen - 2) =
      (data.take (frameHeader + payloadLen)).drop (frameHeader + 2) := by
    rw [drop_take]
    congr 1
    omega
  simp only [if_neg behind, record]
  rw [uintAt_eq_ok (not_lt.mp behind), ok_bind, decodeEntriesAt_eq (not_lt.mp cut),
    ← decodeEntries_fault]
  cases decodeEntries _ _ <;> rfl

/-! ## Reading within the record -/

/-- Decoding the record at the front of the bytes evaluates no expression out of range,
also when the bytes end with the record. -/
def StaysInRecord (rest : Bytes) : Prop :=
  (decodeRecordAt rest).Safe ∧
    decodeRecordAt (rest.take (frameHeader + ofLittleEndian ((rest.drop 4).take 4))) =
      decodeRecordAt rest

theorem unframe_take (rest : Bytes) :
    unframe 0 (rest.take (frameHeader + ofLittleEndian ((rest.drop 4).take 4))) =
      unframe 0 rest := by
  have header : frameHeader = 8 := rfl
  by_cases short : rest.length < frameHeader + ofLittleEndian ((rest.drop 4).take 4)
  · rw [take_of_length_le short.le]
  have whole := length_take_of_le (not_lt.mp short)
  have noShort : ¬ rest.length < frameHeader := by omega
  simp only [unframe, whole, if_false, Nat.not_lt_zero, if_neg short, if_neg noShort,
    Nat.not_lt.mpr (Nat.le_add_right frameHeader _)]
  rw [take_drop_take (by omega), take_drop_take (by omega), take_take,
    Nat.min_eq_left (by omega)]
  simp

/-- The bytes behind the record make no difference once it holds the count. -/
theorem decodeRecord_take (holds : ∀ n, Framed rest n → 2 ≤ n) :
    decodeRecord (rest.take (frameHeader + ofLittleEndian ((rest.drop 4).take 4))) =
      decodeRecord rest := by
  rw [decodeRecord, decodeRecord, unframe_take]
  split
  · rfl
  · rfl
  · rename_i n framed
    have isFramed := unframe_eq_ok_iff.mp framed
    have two := holds n isFramed
    rcases isFramed with ⟨long, declared, _⟩
    rw [declared, length_take_of_le long, if_neg (by omega), if_neg (by omega),
      take_drop_take (by omega), take_drop_take (by omega)]

theorem decodeRecord_outOfRange {n : Nat} (framed : Framed rest n)
    (short : rest.length < frameHeader + 2) : decodeRecord rest = .error .outOfRange := by
  rw [decodeRecord, unframe_eq_ok_iff.mpr framed]
  exact if_pos short

/-- Decoding leaves the record exactly when a payload of less than two bytes is declared
and passes its checksum. -/
theorem staysInRecord_iff : StaysInRecord rest ↔ ∀ n, Framed rest n → 2 ≤ n := by
  rw [StaysInRecord, decodeRecordAt_eq, decodeRecordAt_eq]
  constructor
  · rintro ⟨safe, same⟩ n framed
    by_contra small
    have cut := unframe_take rest
    rw [framed.2.1] at cut same
    rw [unframe_eq_ok_iff.mpr framed, unframe_eq_ok_iff] at cut
    rw [decodeRecord_outOfRange cut (by rw [length_take]; omega)] at same
    exact safe same.symm
  · intro holds
    refine ⟨?_, by rw [decodeRecord_take holds]⟩
    rw [Checked.Safe, decodeRecord]
    split
    · simp [Except.mapError, DecodeError.fault]
    · simp [Except.mapError, DecodeError.fault]
    · rename_i n framed
      have isFramed := unframe_eq_ok_iff.mp framed
      have two := holds n isFramed
      rw [if_neg (by have := isFramed.1; omega)]
      have same := decodeEntries_fault (ofLittleEndian ((rest.drop frameHeader).take 2))
        ((rest.drop (frameHeader + 2)).take (n - 2))
      cases decoded : decodeEntries (ofLittleEndian ((rest.drop frameHeader).take 2))
        ((rest.drop (frameHeader + 2)).take (n - 2)) with
      | ok entries => simp [decoded, Except.map, Except.mapError]
      | error err =>
        rw [decoded] at same
        simp only [decoded, Except.map]
        rw [Except.mapError, Except.error.inj same]
        simp

/-! ## The loop -/

/-- The offsets at which the loop of `Recover` decodes a record, or ends. -/
inductive Visited (data : Bytes) : Nat → Prop where
  | start : Visited data 0
  | next {offset n : Nat} {entries : List Entry} (visited : Visited data offset)
      (more : offset < data.length)
      (decoded : decodeRecordAt (data.drop offset) = .ok (entries, n)) :
      Visited data (offset + n)

/-- `Recover` ends, evaluates nothing out of range and reads every record within its
bounds. -/
structure RecoverSafe (data : Bytes) : Prop where
  ends : ∃ result, recoverAt data (data.length + 1) 0 [] = some result ∧ result.Safe
  within : ∀ offset, Visited data offset → offset < data.length →
    StaysInRecord (data.drop offset)

theorem decodeRecordAt_eq_ok {entries : List Entry} {n : Nat} :
    decodeRecordAt data = .ok (entries, n) ↔ decodeRecord data = .ok (entries, n) := by
  rw [decodeRecordAt_eq]
  cases decodeRecord data <;> simp [Except.mapError]

theorem Visited.le (visited : Visited data offset) : offset ≤ data.length := by
  cases visited with
  | start => exact Nat.zero_le _
  | next _ more decoded =>
    have within := (decodeRecord_eq_ok (decodeRecordAt_eq_ok.mp decoded)).2.1
    rw [length_drop] at within
    omega

/-- The loop ends: every record takes bytes off. -/
theorem recoverAt_ends {rounds : Nat} (entries : List Entry) (visited : Visited data offset)
    (enough : data.length < offset + rounds)
    (within : ∀ offset, Visited data offset → offset < data.length →
      StaysInRecord (data.drop offset)) :
    ∃ result, recoverAt data rounds offset entries = some result ∧ result.Safe := by
  induction rounds generalizing offset entries with
  | zero => exact absurd visited.le (not_le.mpr enough)
  | succ rounds ih =>
    rw [recoverAt]
    split
    · exact ⟨_, rfl, by simp [Checked.Safe]⟩
    rename_i more
    have inside := (within offset visited (not_le.mp more)).1
    split
    · rename_i record n decoded
      have taken := (decodeRecord_eq_ok (decodeRecordAt_eq_ok.mp decoded)).1
      exact ih _ (visited.next (not_le.mp more) decoded) (by omega)
    · rename_i out
      exact absurd out inside
    · split
      · exact ⟨_, rfl, by simp [Checked.Safe]⟩
      · exact ⟨_, rfl, by simp [Checked.Safe, Checked.fail]⟩

/-- The two models of `Recover` agree. -/
theorem recoverAt_eq (data : Bytes) {rounds : Nat} (enough : data.length ≤ offset + rounds)
    (entries : List Entry) :
    recoverAt data (rounds + 1) offset entries =
      some ((codec.replay (fun entries record => entries ++ record) rounds (data.drop offset)
        entries).mapError DecodeError.fault) := by
  induction rounds generalizing offset entries with
  | zero =>
    have done : data.length ≤ offset := enough
    rw [recoverAt, if_pos done, drop_eq_nil_of_le done]
    rfl
  | succ rounds ih =>
    rw [recoverAt]
    split
    · rename_i done
      rw [drop_eq_nil_of_le done]
      rfl
    rename_i more
    obtain ⟨byte, rest, isRest⟩ := exists_cons_of_ne_nil
      (fun nil => more (drop_eq_nil_iff.mp nil))
    rw [isRest, Codec.replay, ← isRest, codec_decode, decodeRecordAt_eq]
    cases decoded : decodeRecord (data.drop offset) with
    | error err => cases err <;> rfl
    | ok read =>
      have taken := (decodeRecord_eq_ok decoded).1
      simp only [Except.mapError, drop_drop]
      exact ih (by omega) _

/-- The loop goes on behind the first of two records. -/
theorem recoverAt_second_record :
    recoverAt ([[⟨1, [97], .new (some [49])⟩], [⟨2, [98], .newTombstone⟩]].flatMap encodeRecord)
        30 27 [⟨1, [97], .new (some [49])⟩] =
      some (.ok [⟨1, [97], .new (some [49])⟩, ⟨2, [98], .newTombstone⟩]) := by
  rw [recoverAt_eq _ (by decide +kernel)]
  decide +kernel

/-- The bytes are decoded as one record, to their end. -/
def IsRecord (bytes : Bytes) : Prop :=
  ∃ entries, decodeRecord bytes = .ok (entries, bytes.length)

/-- A record is decoded whatever follows it. -/
theorem IsRecord.append {record : Bytes} (isRecord : IsRecord record) (tail : Bytes) :
    ∃ entries, decodeRecord (record ++ tail) = .ok (entries, record.length) := by
  have header : frameHeader = 8 := rfl
  rcases isRecord with ⟨entries, decoded⟩
  rcases decodeRecord_eq_ok_iff.mp decoded with ⟨n, framed, long, length, _⟩
  have declared : ofLittleEndian (((record ++ tail).drop 4).take 4) = n := by
    rw [← framed.2.1, ← take_drop_take (by omega : 4 + 4 ≤ record.length), take_left]
  have same := @decodeRecord_take (record ++ tail) fun m framed => by
    have := framed.2.1.symm.trans declared
    omega
  rw [declared, ← length, take_left, decoded] at same
  exact ⟨entries, same.symm⟩

/-- The loop goes through records. -/
theorem Visited.records (visited : Visited data offset) {records : List Bytes}
    (split : data.drop offset = records.flatten ++ rest)
    (areRecords : ∀ record ∈ records, IsRecord record) :
    Visited data (offset + records.flatten.length) := by
  induction records generalizing offset with
  | nil => exact visited
  | cons record records ih =>
    rcases forall_mem_cons.mp areRecords with ⟨isRecord, areRecords⟩
    rw [flatten_cons, append_assoc] at split
    rcases isRecord.append (records.flatten ++ rest) with ⟨entries, decoded⟩
    rw [← split] at decoded
    have taken := decodeRecord_eq_ok decoded
    rw [length_drop] at taken
    have later := ih (visited.next (by omega) (decodeRecordAt_eq_ok.mpr decoded))
      (by rw [← drop_drop, split, drop_left]) areRecords
    rwa [Nat.add_assoc, ← length_append, ← flatten_cons] at later

/-- What the loop went through are records. -/
theorem Visited.isRecord
    (holds : ∀ (records : List Bytes) (rest : Bytes), data = records.flatten ++ rest →
      (∀ record ∈ records, IsRecord record) → ∀ n, Framed rest n → 2 ≤ n)
    (visited : Visited data offset) : ∃ records : List Bytes,
      (∀ record ∈ records, IsRecord record) ∧ data.take offset = records.flatten := by
  induction visited with
  | start => exact ⟨[], by simp, rfl⟩
  | @next offset n entries visited more decoded ih =>
    rcases ih with ⟨records, areRecords, front⟩
    have two := holds records (data.drop offset) (by rw [← front, take_append_drop]) areRecords
    have same := decodeRecord_take two
    rw [decodeRecordAt_eq_ok.mp decoded] at same
    rcases decodeRecord_eq_ok_iff.mp (decodeRecordAt_eq_ok.mp decoded) with ⟨m, framed, _, rfl, _⟩
    rw [framed.2.1] at same
    refine ⟨records ++ [(data.drop offset).take (frameHeader + m)], ?_, ?_⟩
    · rw [forall_mem_append, forall_mem_singleton]
      refine ⟨areRecords, entries, ?_⟩
      rw [same, length_take_of_le framed.1]
    · rw [take_add, front, flatten_append, flatten_singleton]

/-- Recovery is safe exactly on the bytes in which no frame of less than two bytes that
passes its checksum follows records. -/
theorem recoverSafe_iff (data : Bytes) :
    RecoverSafe data ↔ ∀ (records : List Bytes) (rest : Bytes), data = records.flatten ++ rest →
      (∀ record ∈ records, IsRecord record) → ∀ n, Framed rest n → 2 ≤ n := by
  constructor
  · intro safe records rest split areRecords n framed
    have visited := Visited.start.records split areRecords
    rw [Nat.zero_add] at visited
    have more : records.flatten.length < data.length := by
      have long := framed.1
      have header : frameHeader = 8 := rfl
      rw [split, length_append]
      omega
    have inside := safe.within _ visited more
    rw [split, drop_left] at inside
    exact staysInRecord_iff.mp inside n framed
  · intro holds
    have within : ∀ offset, Visited data offset → offset < data.length →
        StaysInRecord (data.drop offset) := by
      intro offset visited _
      rcases visited.isRecord holds with ⟨records, areRecords, front⟩
      apply staysInRecord_iff.mpr
      apply holds records _ _ areRecords
      rw [← front, take_append_drop]
    exact ⟨recoverAt_ends [] .start (by omega) within, within⟩

/-- A record that declares no payload and passes its checksum: the count is read behind
the end of the file. -/
theorem empty_record_out_of_range :
    recoverAt [0x1C, 0xDF, 0x44, 0x21, 0, 0, 0, 0] 9 0 [] = some (.error .outOfRange) := by
  decide +kernel

end Theseon.WAL
