import Theseon.KV.Key
import Theseon.Lib.Frame

/-!
# Records of the manifest

A record is a frame whose payload is a type byte and the fields of the record.
Lengths are cut to the width of their field.  What follows the fields of a
record inside its frame is ignored.
-/

namespace Theseon.Manifest

open Lib KV List

structure SSTableInfo where
  id : Nat
  level : UInt8
  firstKey : Bytes
  lastKey : Bytes
  deriving DecidableEq, Repr

structure HNSWSnapshotInfo where
  collection : Bytes
  seq : Nat
  filename : Bytes
  deriving DecidableEq, Repr

/-- `Record`.  The maps of a snapshot are listed in the order in which they are
encoded. -/
inductive Record where
  | sstableAdded (info : SSTableInfo)
  | sstableRemoved (id : Nat) (level : UInt8)
  | snapshot (sstables : List SSTableInfo) (hnswSnapshots : List HNSWSnapshotInfo)
  | nextIDs (nextMemID nextSeq : Nat)
  | hnswSnapshot (info : HNSWSnapshotInfo)
  deriving DecidableEq, Repr

inductive DecodeError where
  | corrupt
  | short
  | unknownType
  deriving DecidableEq, Repr

/-! ## Encoding -/

/-- A field of variable length behind its length. -/
def appendSized (field rest : Bytes) : Bytes :=
  littleEndian 2 field.length ++ field ++ rest

/-- `appendSSTableInfo`. -/
def encodeSSTableInfo (info : SSTableInfo) : Bytes :=
  littleEndian 8 info.id ++ info.level :: appendSized info.firstKey (appendSized info.lastKey [])

def encodeSSTableRemoved (id : Nat) (level : UInt8) : Bytes :=
  littleEndian 8 id ++ [level]

def encodeNextIDs (nextMemID nextSeq : Nat) : Bytes :=
  littleEndian 8 nextMemID ++ littleEndian 8 nextSeq

def encodeHNSWSnapshot (info : HNSWSnapshotInfo) : Bytes :=
  appendSized info.collection (littleEndian 8 info.seq ++ appendSized info.filename [])

def encodeSnapshot (sstables : List SSTableInfo) (hnswSnapshots : List HNSWSnapshotInfo) : Bytes :=
  littleEndian 4 sstables.length ++ sstables.flatMap encodeSSTableInfo ++
    (littleEndian 4 hnswSnapshots.length ++ hnswSnapshots.flatMap encodeHNSWSnapshot)

/-- The type byte and the fields of a record. -/
def encodePayload : Record → Bytes
  | .sstableAdded info => 1 :: encodeSSTableInfo info
  | .sstableRemoved id level => 2 :: encodeSSTableRemoved id level
  | .snapshot sstables hnswSnapshots => 3 :: encodeSnapshot sstables hnswSnapshots
  | .nextIDs nextMemID nextSeq => 4 :: encodeNextIDs nextMemID nextSeq
  | .hnswSnapshot info => 5 :: encodeHNSWSnapshot info

def encodeRecord (record : Record) : Bytes :=
  frame (encodePayload record)

/-! ## Decoding -/

/-- A field of variable length and what follows it. -/
def takeSized (data : Bytes) : Except DecodeError (Bytes × Bytes) :=
  if data.length < 2 then .error .short
  else
    let size := ofLittleEndian (data.take 2)
    if data.length < 2 + size then .error .short
    else .ok ((data.drop 2).take size, (data.drop 2).drop size)

/-- `decodeSSTableInfoAt`, with what follows the entry. -/
def decodeSSTableInfoAt (data : Bytes) : Except DecodeError (SSTableInfo × Bytes) :=
  if data.length < 11 then .error .short
  else
    match takeSized (data.drop 9) with
    | .error err => .error err
    | .ok (firstKey, rest) =>
      match takeSized rest with
      | .error err => .error err
      | .ok (lastKey, rest) =>
        .ok (⟨ofLittleEndian (data.take 8), (data.drop 8).headD 0, firstKey, lastKey⟩, rest)

def decodeSSTableRemoved (data : Bytes) : Except DecodeError (Nat × UInt8) :=
  if data.length < 9 then .error .short
  else .ok (ofLittleEndian (data.take 8), (data.drop 8).headD 0)

def decodeNextIDs (data : Bytes) : Except DecodeError (Nat × Nat) :=
  if data.length < 16 then .error .short
  else .ok (ofLittleEndian (data.take 8), ofLittleEndian ((data.drop 8).take 8))

/-- `decodeHNSWSnapshot`, with what follows the entry. -/
def decodeHNSWSnapshot (data : Bytes) : Except DecodeError (HNSWSnapshotInfo × Bytes) :=
  if data.length < 12 then .error .short
  else
    match takeSized data with
    | .error err => .error err
    | .ok (collection, rest) =>
      if rest.length < 8 then .error .short
      else
        match takeSized (rest.drop 8) with
        | .error err => .error err
        | .ok (filename, after) =>
          .ok (⟨collection, ofLittleEndian (rest.take 8), filename⟩, after)

/-- A given number of items, one after the other, and what follows them. -/
def decodeMany {α : Type} (decode : Bytes → Except DecodeError (α × Bytes)) :
    Nat → Bytes → Except DecodeError (List α × Bytes)
  | 0, data => .ok ([], data)
  | count + 1, data =>
    match decode data with
    | .error err => .error err
    | .ok (item, rest) =>
      match decodeMany decode count rest with
      | .error err => .error err
      | .ok (items, rest) => .ok (item :: items, rest)

/-- `decodeSnapshot`.  Snapshots of an older format end after the tables. -/
def decodeSnapshot (data : Bytes) :
    Except DecodeError (List SSTableInfo × List HNSWSnapshotInfo) :=
  if data.length < 4 then .error .short
  else
    match decodeMany decodeSSTableInfoAt (ofLittleEndian (data.take 4)) (data.drop 4) with
    | .error err => .error err
    | .ok (sstables, rest) =>
      if rest.length < 4 then .ok (sstables, [])
      else
        match decodeMany decodeHNSWSnapshot (ofLittleEndian (rest.take 4)) (rest.drop 4) with
        | .error err => .error err
        | .ok (hnswSnapshots, _) => .ok (sstables, hnswSnapshots)

/-- The record of a type byte and its fields. -/
def decodePayload (recType : UInt8) (payload : Bytes) : Except DecodeError Record :=
  if recType = 1 then (decodeSSTableInfoAt payload).map fun found => .sstableAdded found.1
  else if recType = 2 then
    (decodeSSTableRemoved payload).map fun found => .sstableRemoved found.1 found.2
  else if recType = 3 then (decodeSnapshot payload).map fun found => .snapshot found.1 found.2
  else if recType = 4 then (decodeNextIDs payload).map fun found => .nextIDs found.1 found.2
  else if recType = 5 then (decodeHNSWSnapshot payload).map fun found => .hnswSnapshot found.1
  else .error .unknownType

/-- `decodeRecord`: the record and the number of bytes consumed. -/
def decodeRecord (data : Bytes) : Except DecodeError (Record × Nat) :=
  match unframe 1 data with
  | .error .short => .error .short
  | .error .corrupt => .error .corrupt
  | .ok payloadLen =>
    let payload := (data.drop frameHeader).take payloadLen
    (decodePayload (payload.headD 0) (payload.drop 1)).map fun record =>
      (record, frameHeader + payloadLen)

/-! ## Reading back -/

/-- The fields of a table entry fit into their widths, and so does the number of levels
up to its own, which is computed in one byte. -/
structure SSTableInfo.Fits (info : SSTableInfo) : Prop where
  id : info.id ≤ maxSeqNum
  level : info.level ≤ 254
  firstKey : info.firstKey.length < 2 ^ 16
  lastKey : info.lastKey.length < 2 ^ 16

/-- The fields of an index snapshot entry fit into their widths. -/
structure HNSWSnapshotInfo.Fits (info : HNSWSnapshotInfo) : Prop where
  collection : info.collection.length < 2 ^ 16
  seq : info.seq ≤ maxSeqNum
  filename : info.filename.length < 2 ^ 16

/-- The fields of a record fit into their widths. -/
def Record.FieldsFit : Record → Prop
  | .sstableAdded info => info.Fits
  | .sstableRemoved id _ => id ≤ maxSeqNum
  | .snapshot sstables hnswSnapshots =>
    (sstables.length < 2 ^ 32 ∧ ∀ info ∈ sstables, info.Fits) ∧
      hnswSnapshots.length < 2 ^ 32 ∧ ∀ info ∈ hnswSnapshots, info.Fits
  | .nextIDs nextMemID nextSeq => nextMemID ≤ maxSeqNum ∧ nextSeq ≤ maxSeqNum
  | .hnswSnapshot info => info.Fits

/-- A record is within the limits of the format. -/
structure Record.Fits (record : Record) : Prop where
  fields : record.FieldsFit
  payload : (encodePayload record).length < 2 ^ 32

instance (info : SSTableInfo) : Decidable info.Fits :=
  decidable_of_iff
    (info.id ≤ maxSeqNum ∧ info.level ≤ 254 ∧ info.firstKey.length < 2 ^ 16 ∧
      info.lastKey.length < 2 ^ 16)
    ⟨fun fits => ⟨fits.1, fits.2.1, fits.2.2.1, fits.2.2.2⟩,
      fun fits => ⟨fits.id, fits.level, fits.firstKey, fits.lastKey⟩⟩

instance (info : HNSWSnapshotInfo) : Decidable info.Fits :=
  decidable_of_iff
    (info.collection.length < 2 ^ 16 ∧ info.seq ≤ maxSeqNum ∧ info.filename.length < 2 ^ 16)
    ⟨fun fits => ⟨fits.1, fits.2.1, fits.2.2⟩,
      fun fits => ⟨fits.collection, fits.seq, fits.filename⟩⟩

instance : (record : Record) → Decidable record.FieldsFit
  | .sstableAdded info => inferInstanceAs (Decidable info.Fits)
  | .sstableRemoved id _ => inferInstanceAs (Decidable (id ≤ maxSeqNum))
  | .snapshot _ _ => inferInstanceAs (Decidable ((_ ∧ ∀ _ ∈ _, _) ∧ _ ∧ ∀ _ ∈ _, _))
  | .nextIDs _ _ => inferInstanceAs (Decidable (_ ∧ _))
  | .hnswSnapshot info => inferInstanceAs (Decidable info.Fits)

instance (record : Record) : Decidable record.Fits :=
  decidable_of_iff (record.FieldsFit ∧ (encodePayload record).length < 2 ^ 32)
    ⟨fun fits => ⟨fits.1, fits.2⟩, fun fits => ⟨fits.fields, fits.payload⟩⟩

theorem word_readBack {value : Nat} (fits : value ≤ maxSeqNum) :
    ofLittleEndian (littleEndian 8 value) = value :=
  ofLittleEndian_of_lt (Nat.lt_succ_of_le fits)

theorem appendSized_length (field rest : Bytes) :
    (appendSized field rest).length = 2 + field.length + rest.length := by
  simp only [appendSized, length_append, littleEndian_length]

theorem takeSized_appendSized {field : Bytes} (fits : field.length < 2 ^ 16) (rest : Bytes) :
    takeSized (appendSized field rest) = .ok (field, rest) := by
  have readBack : ofLittleEndian (littleEndian 2 field.length) = field.length :=
    ofLittleEndian_of_lt fits
  have size : ofLittleEndian ((appendSized field rest).take 2) = field.length := by
    simp [appendSized, readBack]
  have header : ¬ (appendSized field rest).length < 2 := by
    rw [appendSized_length]
    omega
  have whole : ¬ (appendSized field rest).length < 2 + field.length := by
    rw [appendSized_length]
    omega
  have body : (appendSized field rest).drop 2 = field ++ rest := by
    simp [appendSized]
  simp only [takeSized, if_neg header, size, if_neg whole, body, take_left, drop_left]

theorem appendSized_append (field rest more : Bytes) :
    appendSized field rest ++ more = appendSized field (rest ++ more) := by
  simp [appendSized]

@[simp]
theorem decodeSSTableInfoAt_encode {info : SSTableInfo} (fits : info.Fits) (rest : Bytes) :
    decodeSSTableInfoAt (encodeSSTableInfo info ++ rest) = .ok (info, rest) := by
  have keys : (encodeSSTableInfo info ++ rest).drop 9 =
      appendSized info.firstKey (appendSized info.lastKey rest) := by
    simp [encodeSSTableInfo, drop_append, appendSized_append]
  have long : ¬ (encodeSSTableInfo info ++ rest).length < 11 := by
    simp only [encodeSSTableInfo, length_append, littleEndian_length, length_cons,
      appendSized_length]
    omega
  have id : ofLittleEndian ((encodeSSTableInfo info ++ rest).take 8) = info.id := by
    simp [encodeSSTableInfo, word_readBack fits.id]
  have level : ((encodeSSTableInfo info ++ rest).drop 8).headD 0 = info.level := by
    simp [encodeSSTableInfo]
  rw [decodeSSTableInfoAt, if_neg long, keys, takeSized_appendSized fits.firstKey]
  simp only [takeSized_appendSized fits.lastKey, id, level]

theorem decodeHNSWSnapshot_encode {info : HNSWSnapshotInfo} (fits : info.Fits) (rest : Bytes) :
    decodeHNSWSnapshot (encodeHNSWSnapshot info ++ rest) = .ok (info, rest) := by
  have shape : encodeHNSWSnapshot info ++ rest =
      appendSized info.collection (littleEndian 8 info.seq ++ appendSized info.filename rest) := by
    simp [encodeHNSWSnapshot, appendSized_append]
  have long : ¬ (appendSized info.collection
      (littleEndian 8 info.seq ++ appendSized info.filename rest)).length < 12 := by
    simp only [appendSized_length, length_append, littleEndian_length]
    omega
  have header : ¬ (littleEndian 8 info.seq ++ appendSized info.filename rest).length < 8 := by
    simp
  rw [shape, decodeHNSWSnapshot, if_neg long, takeSized_appendSized fits.collection]
  simp only [if_neg header]
  simp [takeSized_appendSized fits.filename, word_readBack fits.seq]

theorem decodeMany_flatMap {α : Type} {decode : Bytes → Except DecodeError (α × Bytes)}
    {encode : α → Bytes} {items : List α}
    (readBack : ∀ item ∈ items, ∀ rest, decode (encode item ++ rest) = .ok (item, rest))
    (rest : Bytes) :
    decodeMany decode items.length (items.flatMap encode ++ rest) = .ok (items, rest) := by
  induction items with
  | nil => rfl
  | cons item others ih =>
    have first := readBack item (by simp)
    have later := ih fun other mem => readBack other (mem_cons_of_mem _ mem)
    rw [flatMap_cons, append_assoc, length_cons, decodeMany, first]
    simp only [later]

theorem decodeSnapshot_encode {sstables : List SSTableInfo} {hnswSnapshots : List HNSWSnapshotInfo}
    (fits : (Record.snapshot sstables hnswSnapshots).FieldsFit) :
    decodeSnapshot (encodeSnapshot sstables hnswSnapshots) = .ok (sstables, hnswSnapshots) := by
  rcases fits with ⟨⟨tableCount, tablesFit⟩, hnswCount, hnswFit⟩
  have tableField : ofLittleEndian (littleEndian 4 sstables.length) = sstables.length :=
    ofLittleEndian_of_lt tableCount
  have hnswField : ofLittleEndian (littleEndian 4 hnswSnapshots.length) = hnswSnapshots.length :=
    ofLittleEndian_of_lt hnswCount
  have tables := decodeMany_flatMap
    (fun info mem => decodeSSTableInfoAt_encode (tablesFit info mem))
    (littleEndian 4 hnswSnapshots.length ++ hnswSnapshots.flatMap encodeHNSWSnapshot)
  have hnsw := decodeMany_flatMap (fun info mem => decodeHNSWSnapshot_encode (hnswFit info mem)) []
  rw [append_nil] at hnsw
  simp [decodeSnapshot, encodeSnapshot, tableField, hnswField, tables, hnsw]

variable {record : Record}

theorem decodePayload_encodePayload (fits : record.FieldsFit) :
    decodePayload ((encodePayload record).headD 0) ((encodePayload record).drop 1) =
      .ok record := by
  cases record with
  | sstableAdded info =>
    have decoded := decodeSSTableInfoAt_encode fits []
    rw [append_nil] at decoded
    simp [encodePayload, decodePayload, decoded, Except.map]
  | sstableRemoved id level =>
    have idField : ofLittleEndian (littleEndian 8 id) = id := word_readBack fits
    simp [encodePayload, decodePayload, decodeSSTableRemoved, encodeSSTableRemoved, idField,
      Except.map]
  | snapshot sstables hnswSnapshots =>
    simp [encodePayload, decodePayload, decodeSnapshot_encode fits, Except.map]
  | nextIDs nextMemID nextSeq =>
    have memField : ofLittleEndian (littleEndian 8 nextMemID) = nextMemID := word_readBack fits.1
    have seqField : ofLittleEndian (littleEndian 8 nextSeq) = nextSeq := word_readBack fits.2
    simp [encodePayload, decodePayload, decodeNextIDs, encodeNextIDs, memField, seqField,
      Except.map]
  | hnswSnapshot info =>
    have decoded := decodeHNSWSnapshot_encode fits []
    rw [append_nil] at decoded
    simp [encodePayload, decodePayload, decoded, Except.map]

theorem encodePayload_ne_nil (record : Record) : encodePayload record ≠ [] := by
  cases record <;> simp [encodePayload]

/-- A record within the limits is read back, whatever follows it. -/
theorem decodeRecord_encodeRecord (fits : record.Fits) (rest : Bytes) :
    decodeRecord (encodeRecord record ++ rest) = .ok (record, (encodeRecord record).length) := by
  have nonempty : 1 ≤ (encodePayload record).length :=
    length_pos_iff.mpr (encodePayload_ne_nil record)
  have framed := unframe_frame_append fits.payload nonempty rest
  have payload : ((frame (encodePayload record) ++ rest).drop frameHeader).take
      (encodePayload record).length = encodePayload record := by
    simp [frame, frameBody, frameHeader, drop_append]
  rw [encodeRecord, decodeRecord, framed]
  simp only [payload, decodePayload_encodePayload fits.fields, frame_length]
  rfl

/-- What is left of a record whose write was cut is too short. -/
theorem decodeRecord_cut (fits : record.Fits) {data : Bytes}
    (isPrefix : data <+: encodeRecord record) (proper : data ≠ encodeRecord record) :
    decodeRecord data = .error .short := by
  rw [decodeRecord, unframe_cut fits.payload isPrefix proper]

end Theseon.Manifest
