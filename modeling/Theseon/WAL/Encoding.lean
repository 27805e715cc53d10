import Theseon.KV.Key
import Theseon.KV.Value
import Theseon.Lib.Frame

/-!
# Records of the write-ahead log

A record is a frame whose payload is a count of two bytes and the encoded
entries.  Counts and lengths are cut to the width of their field, so a batch or
a key beyond the format limits is not read back.
-/

namespace Theseon.WAL

open Lib KV List

/-- `Entry`: a write of one user key. -/
structure Entry where
  seq : Nat
  key : Bytes
  value : Value
  deriving DecidableEq, Repr

def entryHeader : Nat := 15

def flagPut : UInt8 := 0

def flagTombstone : UInt8 := 1

/-- The errors of `decodeRecord`.  `outOfRange` is the panic of reading the
count behind the end of the data. -/
inductive DecodeError where
  | corrupt
  | short
  | invalidFlag
  | outOfRange
  deriving DecidableEq, Repr

/-- The data bytes that an entry carries. -/
def Entry.data (entry : Entry) : Bytes :=
  if entry.value.tombstone then [] else entry.value.bytes

def encodeEntry (entry : Entry) : Bytes :=
  (if entry.value.tombstone then flagTombstone else flagPut) ::
    (littleEndian 8 entry.seq ++ littleEndian 2 entry.key.length ++
      littleEndian 4 entry.data.length ++ entry.key ++ entry.data)

/-- The payload of a record. -/
def encodePayload (entries : List Entry) : Bytes :=
  littleEndian 2 entries.length ++ entries.flatMap encodeEntry

def encodeRecord (entries : List Entry) : Bytes :=
  frame (encodePayload entries)

/-- One round of the loop of `decodeRecord`: the entry at the front of the rest
of the record. -/
def decodeEntry (rest : Bytes) : Except DecodeError (Entry × Bytes) :=
  if rest.length < entryHeader then .error .short
  else
    let flag := rest.headD 0
    let seq := ofLittleEndian ((rest.drop 1).take 8)
    let keyLen := ofLittleEndian ((rest.drop 9).take 2)
    let valueLen := ofLittleEndian ((rest.drop 11).take 4)
    let body := rest.drop entryHeader
    if body.length < keyLen then .error .short
    else
      let key := body.take keyLen
      let body := body.drop keyLen
      if flag = flagPut then
        if body.length < valueLen then .error .short
        else .ok (⟨seq, key, .new (some (body.take valueLen))⟩, body.drop valueLen)
      else if flag = flagTombstone then .ok (⟨seq, key, .newTombstone⟩, body)
      else .error .invalidFlag

/-- The loop of `decodeRecord`. -/
def decodeEntries : Nat → Bytes → Except DecodeError (List Entry)
  | 0, _ => .ok []
  | count + 1, rest =>
    match decodeEntry rest with
    | .error err => .error err
    | .ok (entry, rest) => (decodeEntries count rest).map (entry :: ·)

/-- `decodeRecord`: the entries and the number of bytes consumed. -/
def decodeRecord (data : Bytes) : Except DecodeError (List Entry × Nat) :=
  match unframe 0 data with
  | .error .short => .error .short
  | .error .corrupt => .error .corrupt
  | .ok payloadLen =>
    -- the count is read from the data, not from the payload
    if data.length < frameHeader + 2 then .error .outOfRange
    else
      let count := ofLittleEndian ((data.drop frameHeader).take 2)
      (decodeEntries count ((data.drop (frameHeader + 2)).take (payloadLen - 2))).map
        fun entries => (entries, frameHeader + payloadLen)

/-! ## Reading back -/

/-- An entry as it is read back: a nil value comes back empty, and a tombstone
without data. -/
def Entry.readBack (entry : Entry) : Entry :=
  { entry with value := entry.value.stored }

/-- The fields of an entry fit into their widths. -/
structure Entry.Fits (entry : Entry) : Prop where
  seq : entry.seq ≤ maxSeqNum
  key : entry.key.length < 2 ^ 16
  data : entry.data.length < 2 ^ 32

instance (entry : Entry) : Decidable entry.Fits :=
  decidable_of_iff
    (entry.seq ≤ maxSeqNum ∧ entry.key.length < 2 ^ 16 ∧ entry.data.length < 2 ^ 32)
    ⟨fun ⟨seq, key, data⟩ => ⟨seq, key, data⟩, fun ⟨seq, key, data⟩ => ⟨seq, key, data⟩⟩

/-- A record is within the limits of the format. -/
structure Fits (entries : List Entry) : Prop where
  count : entries.length < 2 ^ 16
  entry : ∀ entry ∈ entries, entry.Fits
  payload : (encodePayload entries).length < 2 ^ 32

instance (entries : List Entry) : Decidable (Fits entries) :=
  decidable_of_iff
    (entries.length < 2 ^ 16 ∧ (∀ entry ∈ entries, entry.Fits) ∧
      (encodePayload entries).length < 2 ^ 32)
    ⟨fun ⟨count, entry, payload⟩ => ⟨count, entry, payload⟩,
      fun ⟨count, entry, payload⟩ => ⟨count, entry, payload⟩⟩

/-- The fields of an encoded entry, where `decodeEntry` looks for them. -/
theorem encodeEntry_fields (entry : Entry) (rest : Bytes) :
    (encodeEntry entry ++ rest).headD 0 =
        (if entry.value.tombstone then flagTombstone else flagPut) ∧
      ((encodeEntry entry ++ rest).drop 1).take 8 = littleEndian 8 entry.seq ∧
      ((encodeEntry entry ++ rest).drop 9).take 2 = littleEndian 2 entry.key.length ∧
      ((encodeEntry entry ++ rest).drop 11).take 4 = littleEndian 4 entry.data.length ∧
      (encodeEntry entry ++ rest).drop 15 = entry.key ++ (entry.data ++ rest) := by
  simp [encodeEntry, drop_append]

theorem decodeEntry_encodeEntry {entry : Entry} (fits : entry.Fits) (rest : Bytes) :
    decodeEntry (encodeEntry entry ++ rest) = .ok (entry.readBack, rest) := by
  have seqField : ofLittleEndian (littleEndian 8 entry.seq) = entry.seq :=
    ofLittleEndian_of_lt (Nat.lt_succ_of_le fits.seq)
  have keyField : ofLittleEndian (littleEndian 2 entry.key.length) = entry.key.length :=
    ofLittleEndian_of_lt fits.key
  have dataField : ofLittleEndian (littleEndian 4 entry.data.length) = entry.data.length :=
    ofLittleEndian_of_lt fits.data
  have long : ¬ (encodeEntry entry ++ rest).length < entryHeader := by
    simp only [encodeEntry, entryHeader, length_append, length_cons, littleEndian_length]
    omega
  rcases encodeEntry_fields entry rest with ⟨flagAt, seqAt, keyLenAt, dataLenAt, bodyAt⟩
  rw [decodeEntry, if_neg long]
  simp only [entryHeader, flagAt, seqAt, keyLenAt, dataLenAt, bodyAt, seqField, keyField, dataField]
  cases kind : entry.value.tombstone with
  | true =>
    simp [kind, Entry.data, Entry.readBack, Value.stored, flagTombstone, flagPut]
  | false =>
    simp [kind, Entry.data, Entry.readBack, Value.stored, flagPut]

variable {entries : List Entry}

theorem decodeEntries_encodeEntries (fits : ∀ entry ∈ entries, entry.Fits) (rest : Bytes) :
    decodeEntries entries.length (entries.flatMap encodeEntry ++ rest) =
      .ok (entries.map Entry.readBack) := by
  induction entries with
  | nil => rfl
  | cons entry others ih =>
    have entryFits := fits entry (by simp)
    have othersFit : ∀ other ∈ others, other.Fits := fun other mem =>
      fits other (mem_cons_of_mem _ mem)
    rw [flatMap_cons, append_assoc, length_cons, decodeEntries,
      decodeEntry_encodeEntry entryFits]
    simp only [ih othersFit]
    rfl

/-- A record within the limits is read back, whatever follows it. -/
theorem decodeRecord_encodeRecord (fits : Fits entries) (rest : Bytes) :
    decodeRecord (encodeRecord entries ++ rest) =
      .ok (entries.map Entry.readBack, (encodeRecord entries).length) := by
  have framed := unframe_frame_append fits.payload (Nat.zero_le _) rest
  have size : (encodePayload entries).length = 2 + (entries.flatMap encodeEntry).length := by
    simp [encodePayload]
  have long : ¬ (frame (encodePayload entries) ++ rest).length < frameHeader + 2 := by
    simp only [length_append, frame_length]
    omega
  have body : (frame (encodePayload entries) ++ rest).drop frameHeader =
      encodePayload entries ++ rest := by
    simp [frame, frameBody, frameHeader, drop_append]
  have countAt : ((frame (encodePayload entries) ++ rest).drop frameHeader).take 2 =
      littleEndian 2 entries.length := by
    rw [body]
    simp [encodePayload]
  have entriesAt : ((frame (encodePayload entries) ++ rest).drop (frameHeader + 2)).take
      ((encodePayload entries).length - 2) = entries.flatMap encodeEntry := by
    rw [← drop_drop, body, size]
    simp [encodePayload]
  have countField : ofLittleEndian (littleEndian 2 entries.length) = entries.length :=
    ofLittleEndian_of_lt fits.count
  have decoded := decodeEntries_encodeEntries fits.entry []
  rw [append_nil] at decoded
  rw [encodeRecord, decodeRecord, framed]
  simp only [if_neg long, countAt, countField, entriesAt, decoded, frame_length]
  rfl

/-- What is left of a record whose write was cut is too short. -/
theorem decodeRecord_cut (fits : Fits entries) {data : Bytes}
    (isPrefix : data <+: encodeRecord entries) (proper : data ≠ encodeRecord entries) :
    decodeRecord data = .error .short := by
  rw [decodeRecord, unframe_cut fits.payload isPrefix proper]

end Theseon.WAL
