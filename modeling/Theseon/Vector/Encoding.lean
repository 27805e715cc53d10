import Std.Data.ExtTreeMap
import Theseon.HLC.Timestamp
import Theseon.Hnsw.Graph
import Theseon.Lib.KeyedMap
import Theseon.Lib.Reader

/-!
# Stored vectors

A vector is stored with its metadata and a version.  A version has the wall time and the
logical counter of a timestamp but not the name of the node, so timestamps of different
nodes can have the same version.  The zero version marks records that were written
without one.
-/

namespace Theseon.Vector

open Lib List
open Theseon.Hnsw (Vec)
open Std (ExtTreeMap)

/-! ## Versions -/

@[ext]
structure VectorVersion where
  wallTime : Int64
  logical : UInt32
  deriving DecidableEq, Repr

namespace VectorVersion

def after (v other : VectorVersion) : Bool :=
  other.wallTime < v.wallTime ∨ (v.wallTime = other.wallTime ∧ other.logical < v.logical)

def zero : VectorVersion :=
  ⟨0, 0⟩

def isZero (v : VectorVersion) : Bool :=
  v.wallTime = 0 ∧ v.logical = 0

/-- The components as numbers, to be compared lexicographically. -/
def key (v : VectorVersion) : Lex (Int × Nat) :=
  toLex (v.wallTime.toInt, v.logical.toNat)

theorem key_injective : Function.Injective key := by
  intro v w same
  have components : (v.wallTime.toInt, v.logical.toNat) = (w.wallTime.toInt, w.logical.toNat) :=
    same
  rcases Prod.mk.inj components with ⟨wall, logical⟩
  exact VectorVersion.ext (Int64.toInt_inj.mp wall) (UInt32.toNat_inj.mp logical)

instance versionOrder : LinearOrder VectorVersion :=
  LinearOrder.lift' key key_injective

variable {v : VectorVersion}

/-- `After` is the total order. -/
theorem after_iff_lt {w : VectorVersion} : v.after w = true ↔ w < v := by
  have less : w < v ↔ w.key < v.key := Iff.rfl
  rw [less, key, key, Prod.Lex.toLex_lt_toLex, after, decide_eq_true_iff, Int64.lt_iff_toInt_lt,
    UInt32.lt_iff_toNat_lt, ← Int64.toInt_inj, eq_comm (a := v.wallTime.toInt)]

theorem after_eq_false_iff {w : VectorVersion} : v.after w = false ↔ v ≤ w := by
  rw [← Bool.not_eq_true, after_iff_lt, not_lt]

theorem isZero_iff : v.isZero = true ↔ v = zero := by
  simp only [isZero, decide_eq_true_iff, VectorVersion.ext_iff, zero]

end VectorVersion

/-- The version of what is written at a timestamp. -/
def hlcToVersion (ts : HLC.Timestamp) : VectorVersion :=
  ⟨ts.wallTime, ts.logical⟩

/-! ## Metadata -/

/-- A value of any type; the encoding supports all but `other`. -/
inductive MetaValue where
  | string (bytes : Bytes)
  | int64 (value : Int64)
  | float64 (bits : UInt64)
  | bool (value : Bool)
  | bytes (bytes : Bytes)
  | other
  deriving DecidableEq, Repr

abbrev Metadata := ExtTreeMap Bytes MetaValue

structure VectorRecord where
  vector : Vec
  metadata : Metadata
  version : VectorVersion

/-! ## Encoding -/

inductive EncodeError where
  | unsupportedType (name : Bytes)
  deriving DecidableEq, Repr

/-- The type tag and the bytes of a value. -/
def encodeValue : MetaValue → Option (UInt8 × Bytes)
  | .string bytes => some (1, bytes)
  | .int64 value => some (2, littleEndian 8 value.toUInt64.toNat)
  | .float64 bits => some (3, littleEndian 8 bits.toNat)
  | .bool value => some (4, [if value then 1 else 0])
  | .bytes bytes => some (5, bytes)
  | .other => none

def encodeField (name : Bytes) (value : MetaValue) : Except EncodeError Bytes :=
  match encodeValue value with
  | none => .error (.unsupportedType name)
  | some (tag, bytes) =>
    .ok (littleEndian 2 name.length ++ name ++ [tag] ++ littleEndian 2 bytes.length ++ bytes)

def encodeFields : List (Bytes × MetaValue) → Except EncodeError Bytes
  | [] => .ok []
  | (name, value) :: rest =>
    match encodeField name value with
    | .error err => .error err
    | .ok field => (encodeFields rest).map fun fields => field ++ fields

/-- The version in big-endian order. -/
def encodeVersion (ver : VectorVersion) : Bytes :=
  bigEndian 8 ver.wallTime.toUInt64.toNat ++ bigEndian 4 ver.logical.toNat

def encodeFloats (vec : Vec) : Bytes :=
  vec.flatMap fun bits => littleEndian 4 bits.toNat

/-- The fields are in the order of their names.  Lengths are cut to two bytes. -/
def encodeVector (vec : Vec) (metadata : Metadata) (ver : VectorVersion) :
    Except EncodeError Bytes :=
  (encodeFields metadata.toList).map fun fields =>
    2 :: (encodeVersion ver ++ (littleEndian 2 vec.length ++ (encodeFloats vec ++
      (littleEndian 2 metadata.size ++ fields))))

/-! ## Decoding -/

inductive DecodeError where
  | empty
  | tooShort (length : Nat)
  | v2TooShort (length : Nat)
  | tooShortForVersion
  | unsupportedEncoding (got : UInt8)
  | truncatedDim
  | truncatedVector
  | truncatedMetadataHeader
  | truncatedNameLength (field : Nat)
  | truncatedName (field : Nat)
  | truncatedTag (field : Nat)
  | truncatedValueLength (field : Nat)
  | truncatedValue (field : Nat)
  | fieldLength (name : Bytes) (got want : Nat)
  | unknownTag (tag : Nat) (name : Bytes)
  deriving DecidableEq, Repr

def decodeVersion (bytes : Bytes) : VectorVersion :=
  ⟨(UInt64.ofNat (ofBigEndian (bytes.take 8))).toInt64,
    UInt32.ofNat (ofBigEndian ((bytes.drop 8).take 4))⟩

def decodeFloats : Nat → Bytes → Vec
  | 0, _ => []
  | count + 1, bytes =>
    UInt32.ofNat (ofLittleEndian (bytes.take 4)) :: decodeFloats count (bytes.drop 4)

def decodeValue (name : Bytes) (tag : Nat) (bytes : Bytes) : Except DecodeError MetaValue :=
  if tag = 1 then .ok (.string bytes)
  else if tag = 2 then
    if bytes.length ≠ 8 then .error (.fieldLength name bytes.length 8)
    else .ok (.int64 (UInt64.ofNat (ofLittleEndian bytes)).toInt64)
  else if tag = 3 then
    if bytes.length ≠ 8 then .error (.fieldLength name bytes.length 8)
    else .ok (.float64 (UInt64.ofNat (ofLittleEndian bytes)))
  else if tag = 4 then
    if bytes.length ≠ 1 then .error (.fieldLength name bytes.length 1)
    else .ok (.bool (bytes ≠ [0]))
  else if tag = 5 then .ok (.bytes bytes)
  else .error (.unknownTag tag name)

/-- The name and the value of the next field, and what follows it. -/
def decodeField (i : Nat) (data : Bytes) : Except DecodeError ((Bytes × MetaValue) × Bytes) := do
  let (nameLen, data) ← readNumber (.truncatedNameLength i) 2 data
  let (name, data) ← readBytes (.truncatedName i) nameLen data
  let (tag, data) ← readNumber (.truncatedTag i) 1 data
  let (valLen, data) ← readNumber (.truncatedValueLength i) 2 data
  let (bytes, data) ← readBytes (.truncatedValue i) valLen data
  let value ← decodeValue name tag bytes
  return ((name, value), data)

/-- A field that comes again replaces the earlier one. -/
def decodeFields : (count i : Nat) → Bytes → Metadata → Except DecodeError Metadata
  | 0, _, _, metadata => .ok metadata
  | count + 1, i, data, metadata =>
    match decodeField i data with
    | .error err => .error err
    | .ok (field, data) => decodeFields count (i + 1) data (metadata.insert field.1 field.2)

/-- The part after the version. -/
def decodeContent (ver : VectorVersion) (data : Bytes) : Except DecodeError VectorRecord := do
  let (dim, data) ← readNumber .truncatedDim 2 data
  let (floats, data) ← readBytes .truncatedVector (dim * 4) data
  let (numFields, data) ← readNumber .truncatedMetadataHeader 2 data
  let metadata ← decodeFields numFields 0 data ∅
  return ⟨decodeFloats dim floats, metadata, ver⟩

def decodeVector (data : Bytes) : Except DecodeError VectorRecord :=
  match data with
  | encVer :: rest =>
    if data.length < 3 then .error (.tooShort data.length)
    else if encVer = 1 then decodeContent .zero rest
    else if encVer = 2 then
      if data.length < 15 then .error (.v2TooShort data.length)
      else decodeContent (decodeVersion rest) (rest.drop 12)
    else .error (.unsupportedEncoding encVer)
  | [] => .error (.tooShort 0)

def decodeVectorVersion : Bytes → Except DecodeError VectorVersion
  | encVer :: rest =>
    if encVer = 1 then .ok .zero
    else if encVer = 2 then
      if rest.length < 12 then .error .tooShortForVersion
      else .ok (decodeVersion rest)
    else .error (.unsupportedEncoding encVer)
  | [] => .error .empty

/-! ## Round trips -/

@[simp]
theorem encodeVersion_length (ver : VectorVersion) : (encodeVersion ver).length = 12 := by
  rw [encodeVersion, length_append, bigEndian_length, bigEndian_length]

theorem decodeVersion_encodeVersion (ver : VectorVersion) (rest : Bytes) :
    decodeVersion (encodeVersion ver ++ rest) = ver := by
  rw [encodeVersion, append_assoc, decodeVersion, take_left' (bigEndian_length _ _),
    drop_left' (bigEndian_length _ _), take_left' (bigEndian_length _ _),
    ofBigEndian_of_lt ver.wallTime.toUInt64.toNat_lt,
    ofBigEndian_of_lt ver.logical.toNat_lt, UInt64.ofNat_toNat, UInt32.ofNat_toNat]
  rfl

variable {vec : Vec} {metadata : Metadata} {ver : VectorVersion} {data bytes : Bytes}
  {value : MetaValue} {record : VectorRecord}

theorem encodeVector_eq_ok (encoded : encodeVector vec metadata ver = .ok data) :
    ∃ fields, encodeFields metadata.toList = .ok fields ∧
      data = 2 :: (encodeVersion ver ++ (littleEndian 2 vec.length ++ (encodeFloats vec ++
        (littleEndian 2 metadata.size ++ fields)))) := by
  rcases map_eq_ok.mp encoded with ⟨fields, isFields, rfl⟩
  exact ⟨fields, isFields, rfl⟩

/-- The version is read back without the rest. -/
theorem decodeVectorVersion_encodeVector (encoded : encodeVector vec metadata ver = .ok data) :
    decodeVectorVersion data = .ok ver := by
  rcases encodeVector_eq_ok encoded with ⟨fields, _, rfl⟩
  rw [decodeVectorVersion, if_neg (by decide), if_pos rfl,
    if_neg (by rw [length_append, encodeVersion_length]; omega), decodeVersion_encodeVersion]

@[simp]
theorem encodeFloats_length (vec : Vec) : (encodeFloats vec).length = vec.length * 4 := by
  induction vec with
  | nil => rfl
  | cons bits vec ih =>
    rw [encodeFloats, flatMap_cons, length_append, littleEndian_length,
      ← encodeFloats, ih, length_cons]
    omega

theorem decodeFloats_encodeFloats (vec : Vec) :
    decodeFloats vec.length (encodeFloats vec) = vec := by
  induction vec with
  | nil => rfl
  | cons bits vec ih =>
    rw [encodeFloats, flatMap_cons, ← encodeFloats, length_cons, decodeFloats,
      take_left' (littleEndian_length _ _), drop_left' (littleEndian_length _ _),
      ofLittleEndian_of_lt bits.toNat_lt, UInt32.ofNat_toNat, ih]

/-- The encoding determines a vector of known dimension. -/
theorem encodeVector_vector_inj {other : Vec} {metadata' : Metadata} {ver' : VectorVersion}
    (sameLength : vec.length = other.length) (encoded : encodeVector vec metadata ver = .ok data)
    (encoded' : encodeVector other metadata' ver' = .ok data) : vec = other := by
  rcases encodeVector_eq_ok encoded with ⟨fields, _, rfl⟩
  rcases encodeVector_eq_ok encoded' with ⟨fields', _, same⟩
  have versions := append_inj (cons.inj same).2 (by
    rw [encodeVersion_length, encodeVersion_length])
  have dims := append_inj versions.2 (by rw [littleEndian_length, littleEndian_length])
  have floats := append_inj dims.2 (by
    rw [encodeFloats_length, encodeFloats_length, sameLength])
  have decoded := congrArg (decodeFloats vec.length) floats.1
  rwa [decodeFloats_encodeFloats, sameLength, decodeFloats_encodeFloats] at decoded

/-- The bytes of a value fit their two-byte length. -/
def MetaValue.Fits : MetaValue → Prop
  | .string text => text.length < 2 ^ 16
  | .bytes content => content.length < 2 ^ 16
  | _ => True

/-- The number of fields and their lengths fit in two bytes. -/
def Metadata.Fits (metadata : Metadata) : Prop :=
  metadata.size < 2 ^ 16 ∧
    ∀ field ∈ metadata.toList, field.1.length < 2 ^ 16 ∧ field.2.Fits

theorem fits_empty : (∅ : Metadata).Fits := by
  constructor
  · decide
  · intro field mem
    cases mem

theorem decodeValue_encodeValue {tag : UInt8} (encoded : encodeValue value = some (tag, bytes))
    (name : Bytes) : decodeValue name tag.toNat bytes = .ok value := by
  cases value with
  | string text =>
    cases encoded
    rfl
  | int64 number =>
    cases encoded
    rw [decodeValue, if_neg (by decide), if_pos (by decide), littleEndian_length,
      if_neg (by decide), ofLittleEndian_of_lt number.toUInt64.toNat_lt, UInt64.ofNat_toNat]
    rfl
  | float64 bits =>
    cases encoded
    rw [decodeValue, if_neg (by decide), if_neg (by decide), if_pos (by decide),
      littleEndian_length, if_neg (by decide), ofLittleEndian_of_lt bits.toNat_lt,
      UInt64.ofNat_toNat]
  | bool value =>
    cases encoded
    cases value with
    | false => rfl
    | true => rfl
  | bytes bytes =>
    cases encoded
    rfl
  | other => cases encoded

theorem MetaValue.Fits.length_lt (fits : value.Fits) {tag : UInt8}
    (encoded : encodeValue value = some (tag, bytes)) : bytes.length < 2 ^ 16 := by
  cases value with
  | string text =>
    cases encoded
    exact fits
  | int64 number =>
    cases encoded
    rw [littleEndian_length]
    decide
  | float64 bits =>
    cases encoded
    rw [littleEndian_length]
    decide
  | bool value =>
    cases encoded
    exact Nat.one_lt_two_pow (by decide)
  | bytes bytes =>
    cases encoded
    exact fits
  | other => cases encoded

theorem decodeField_encodeField {name : Bytes} (nameFits : name.length < 2 ^ 16)
    (valueFits : value.Fits) (encoded : encodeField name value = .ok bytes) (i : Nat)
    (rest : Bytes) : decodeField i (bytes ++ rest) = .ok ((name, value), rest) := by
  rw [encodeField] at encoded
  split at encoded
  · cases encoded
  rename_i tag content isValue
  cases encoded
  have contentFits : content.length < 256 ^ 2 := valueFits.length_lt isValue
  simp only [append_assoc, cons_append, nil_append]
  rw [decodeField, readNumber_littleEndian nameFits]
  simp only [ok_bind, readBytes_append, readNumber_byte, readNumber_littleEndian contentFits,
    decodeValue_encodeValue isValue]
  rfl

theorem decodeFields_encodeFields {fields : List (Bytes × MetaValue)}
    (fits : ∀ field ∈ fields, field.1.length < 2 ^ 16 ∧ field.2.Fits)
    (encoded : encodeFields fields = .ok bytes) (i : Nat) (metadata : Metadata) :
    decodeFields fields.length i bytes metadata = .ok (metadata.insertMany fields) := by
  induction fields generalizing bytes i metadata with
  | nil =>
    rw [ExtTreeMap.insertMany_nil]
    rfl
  | cons field fields ih =>
    rw [encodeFields] at encoded
    split at encoded
    · cases encoded
    rename_i first isFirst
    rcases map_eq_ok.mp encoded with ⟨rest, later, rfl⟩
    have firstFits := fits field mem_cons_self
    rw [length_cons, decodeFields, decodeField_encodeField firstFits.1 firstFits.2 isFirst]
    dsimp only
    rw [ih (fun other mem => fits other (mem_cons_of_mem _ mem)) later,
      ExtTreeMap.insertMany_cons]

/-- A record is read back, if its lengths fit in two bytes. -/
theorem decodeVector_encodeVector (vecFits : vec.length < 2 ^ 16) (metaFits : metadata.Fits)
    (encoded : encodeVector vec metadata ver = .ok data) :
    decodeVector data = .ok ⟨vec, metadata, ver⟩ := by
  rcases encodeVector_eq_ok encoded with ⟨fields, isFields, rfl⟩
  rw [decodeVector, if_neg (by simp; omega), if_neg (by decide), if_pos rfl,
    if_neg (by simp; omega), decodeVersion_encodeVersion,
    drop_left' (encodeVersion_length ver), decodeContent, readNumber_littleEndian vecFits]
  simp only [ok_bind, readBytes_append (encodeFloats_length vec)]
  rw [readNumber_littleEndian metaFits.1, decodeFloats_encodeFloats, ← ExtTreeMap.length_toList]
  simp only [ok_bind, decodeFields_encodeFields metaFits.2 isFields, insertMany_toList]
  rfl

/-- A record without metadata is read back, if its dimension fits in two bytes. -/
theorem decodeVector_encodeVector_empty (fits : vec.length < 2 ^ 16) (ver : VectorVersion) :
    ∃ data, encodeVector vec ∅ ver = .ok data ∧ decodeVector data = .ok ⟨vec, ∅, ver⟩ := by
  have noFields : encodeVector vec ∅ ver = .ok _ := rfl
  exact ⟨_, noFields, decodeVector_encodeVector fits fits_empty noFields⟩

@[simp]
theorem decodeFloats_length (count : Nat) (bytes : Bytes) :
    (decodeFloats count bytes).length = count := by
  induction count generalizing bytes with
  | zero => rfl
  | succ count ih =>
    rw [decodeFloats, length_cons, ih]

theorem decodeValue_fits {name : Bytes} {tag : Nat} (short : bytes.length < 2 ^ 16)
    (decoded : decodeValue name tag bytes = .ok value) : value.Fits := by
  rw [decodeValue] at decoded
  split at decoded
  · cases decoded
    exact short
  split at decoded
  · split at decoded
    · cases decoded
    · cases decoded
      trivial
  split at decoded
  · split at decoded
    · cases decoded
    · cases decoded
      trivial
  split at decoded
  · split at decoded
    · cases decoded
    · cases decoded
      trivial
  split at decoded
  · cases decoded
    exact short
  · cases decoded

theorem decodeField_fits {i : Nat} {field : Bytes × MetaValue} {rest : Bytes}
    (decoded : decodeField i data = .ok (field, rest)) :
    field.1.length < 2 ^ 16 ∧ field.2.Fits := by
  rcases bind_eq_ok.mp decoded with ⟨nameLen, readNameLen, decoded⟩
  rcases bind_eq_ok.mp decoded with ⟨name, readName, decoded⟩
  rcases bind_eq_ok.mp decoded with ⟨tag, _, decoded⟩
  rcases bind_eq_ok.mp decoded with ⟨valLen, readValLen, decoded⟩
  rcases bind_eq_ok.mp decoded with ⟨content, readContent, decoded⟩
  rcases bind_eq_ok.mp decoded with ⟨value, isValue, decoded⟩
  cases decoded
  constructor
  · rw [length_readBytes readName]
    exact readNumber_lt readNameLen
  · apply decodeValue_fits _ isValue
    rw [length_readBytes readContent]
    exact readNumber_lt readValLen

theorem decodeFields_fits {count i : Nat} {decodedFields : Metadata}
    (fits : ∀ (name : Bytes) (value : MetaValue), metadata[name]? = some value →
      name.length < 2 ^ 16 ∧ value.Fits)
    (decoded : decodeFields count i data metadata = .ok decodedFields) :
    decodedFields.size ≤ metadata.size + count ∧ ∀ (name : Bytes) (value : MetaValue),
      decodedFields[name]? = some value → name.length < 2 ^ 16 ∧ value.Fits := by
  induction count generalizing i data metadata with
  | zero =>
    cases decoded
    exact ⟨Nat.le_refl _, fits⟩
  | succ count ih =>
    rw [decodeFields] at decoded
    split at decoded
    · cases decoded
    rename_i field rest isField
    have size := @ExtTreeMap.size_insert_le _ _ _ metadata _ field.1 field.2
    rcases ih (forall_insert fits (decodeField_fits isField)) decoded with ⟨bound, allFit⟩
    exact ⟨by omega, allFit⟩

/-- What the content of a record is read from. -/
theorem decodeContent_eq_ok (decoded : decodeContent ver data = .ok record) :
    record.version = ver ∧ record.metadata.Fits ∧ ∃ dim rest floats rest',
      readNumber DecodeError.truncatedDim 2 data = .ok (dim, rest) ∧
      readBytes DecodeError.truncatedVector (dim * 4) rest = .ok (floats, rest') ∧
      record.vector = decodeFloats dim floats := by
  rcases bind_eq_ok.mp decoded with ⟨dim, readDim, decoded⟩
  rcases bind_eq_ok.mp decoded with ⟨floats, readFloats, decoded⟩
  rcases bind_eq_ok.mp decoded with ⟨count, readCount, decoded⟩
  rcases bind_eq_ok.mp decoded with ⟨metadata, readFields, decoded⟩
  cases decoded
  rcases decodeFields_fits (by simp) readFields with ⟨size, fits⟩
  refine ⟨rfl, ⟨?_, ?_⟩, dim.1, dim.2, floats.1, floats.2, readDim, readFloats, rfl⟩
  · have bound : count.1 < 256 ^ 2 := readNumber_lt readCount
    rw [ExtTreeMap.size_empty] at size
    dsimp only
    omega
  · exact fun field mem => fits _ _ (ExtTreeMap.mem_toList_iff_getElem?_eq_some.mp mem)

theorem decodeContent_spec (decoded : decodeContent ver data = .ok record) :
    record.version = ver ∧ record.vector.length < 2 ^ 16 ∧ record.metadata.Fits := by
  rcases decodeContent_eq_ok decoded with ⟨version, fits, dim, _, floats, _, readDim, _, vector⟩
  refine ⟨version, ?_, fits⟩
  rw [vector, decodeFloats_length]
  exact readNumber_lt readDim

/-- Whatever the metadata, the vector that is decoded is the one that was encoded. -/
theorem vector_of_decodeVector_encodeVector (fits : vec.length < 2 ^ 16)
    (encoded : encodeVector vec metadata ver = .ok data)
    (decoded : decodeVector data = .ok record) : record.vector = vec := by
  rcases encodeVector_eq_ok encoded with ⟨fields, _, rfl⟩
  rw [decodeVector, if_neg (by simp; omega), if_neg (by decide), if_pos rfl,
    if_neg (by simp; omega), drop_left' (encodeVersion_length ver)] at decoded
  rcases decodeContent_eq_ok decoded with
    ⟨_, _, dim, rest, floats, _, readDim, readFloats, vector⟩
  rw [readNumber_littleEndian fits] at readDim
  cases readDim
  rw [readBytes_append (encodeFloats_length vec)] at readFloats
  cases readFloats
  rw [vector, decodeFloats_encodeFloats]

/-- What is decoded has the version that is decoded alone, and lengths of two bytes. -/
theorem decodeVector_spec (decoded : decodeVector data = .ok record) :
    decodeVectorVersion data = .ok record.version ∧ record.vector.length < 2 ^ 16 ∧
      record.metadata.Fits := by
  cases data with
  | nil => cases decoded
  | cons encVer rest =>
    rw [decodeVector] at decoded
    rw [decodeVectorVersion]
    split at decoded
    · cases decoded
    split at decoded
    · rename_i isV1
      rcases decodeContent_spec decoded with ⟨version, fits⟩
      rw [if_pos isV1, version]
      exact ⟨rfl, fits⟩
    rename_i notV1
    split at decoded
    · rename_i isV2
      split at decoded
      · cases decoded
      rename_i long
      rcases decodeContent_spec decoded with ⟨version, fits⟩
      have enough : ¬ rest.length < 12 := by
        rw [length_cons] at long
        omega
      rw [if_neg notV1, if_pos isV2, if_neg enough, version]
      exact ⟨rfl, fits⟩
    · cases decoded

/-- A record is read back exactly if its lengths fit in two bytes: the others are cut
without an error. -/
theorem vector_codec_iff (encoded : encodeVector vec metadata ver = .ok data) :
    (decodeVector data = .ok ⟨vec, metadata, ver⟩ ∧ decodeVectorVersion data = .ok ver) ↔
      vec.length < 2 ^ 16 ∧ metadata.Fits := by
  constructor
  · rintro ⟨decoded, _⟩
    exact (decodeVector_spec decoded).2
  · rintro ⟨vecFits, metaFits⟩
    exact ⟨decodeVector_encodeVector vecFits metaFits encoded,
      decodeVectorVersion_encodeVector encoded⟩

theorem vector_codec_short : ∃ data, encodeVector [1, 2] ∅ ⟨3, 4⟩ = .ok data ∧
    decodeVector data = .ok ⟨[1, 2], ∅, ⟨3, 4⟩⟩ := by
  have encoded : encodeVector [1, 2] ∅ ⟨3, 4⟩ = .ok _ := rfl
  exact ⟨_, encoded, ((vector_codec_iff encoded).mpr ⟨by decide, fits_empty⟩).1⟩

/-- The dimension 65536 is stored as 0. -/
theorem vector_codec_long : ∃ data, encodeVector (replicate (2 ^ 16) 0) ∅ .zero = .ok data ∧
    decodeVector data ≠ .ok ⟨replicate (2 ^ 16) 0, ∅, .zero⟩ := by
  have encoded : encodeVector (replicate (2 ^ 16) 0) ∅ .zero = .ok _ := rfl
  refine ⟨_, encoded, fun decoded => ?_⟩
  have short := (decodeVector_spec decoded).2.1
  rw [length_replicate] at short
  exact Nat.lt_irrefl _ short

end Theseon.Vector
