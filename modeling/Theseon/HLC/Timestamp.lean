import Mathlib.Data.Prod.Lex
import Theseon.Lib.Checked
import Theseon.Lib.Outcome

/-!
# Timestamps of the hybrid logical clock

A timestamp is a wall time, a logical counter and the name of the node that drew
it, compared in that order.  The encoding is big-endian with the name last.
-/

namespace Theseon.HLC

open Lib List

@[ext]
structure Timestamp where
  wallTime : Int64
  logical : UInt32
  nodeID : Bytes
  deriving DecidableEq, Repr

namespace Timestamp

/-- The order of the source, component by component. -/
def less (t u : Timestamp) : Bool :=
  if t.wallTime ≠ u.wallTime then t.wallTime < u.wallTime
  else if t.logical ≠ u.logical then t.logical < u.logical
  else t.nodeID < u.nodeID

/-- The zero value. -/
def zero : Timestamp :=
  ⟨0, 0, []⟩

def isZero (t : Timestamp) : Bool :=
  t.wallTime = 0 ∧ t.logical = 0 ∧ t.nodeID = []

/-! ## The total order -/

/-- The components as numbers and bytes, to be compared lexicographically. -/
def key (t : Timestamp) : Lex (Int × Lex (Nat × Bytes)) :=
  toLex (t.wallTime.toInt, toLex (t.logical.toNat, t.nodeID))

theorem key_injective : Function.Injective key := by
  intro t u same
  have components : (t.wallTime.toInt, toLex (t.logical.toNat, t.nodeID)) =
      (u.wallTime.toInt, toLex (u.logical.toNat, u.nodeID)) := same
  rcases Prod.mk.inj components with ⟨wall, rest⟩
  rcases Prod.mk.inj (toLex.injective rest) with ⟨logical, nodeID⟩
  exact Timestamp.ext (Int64.toInt_inj.mp wall) (UInt32.toNat_inj.mp logical) nodeID

instance timestampOrder : LinearOrder Timestamp :=
  LinearOrder.lift' key key_injective

theorem lt_iff_key_lt {t u : Timestamp} : t < u ↔ t.key < u.key :=
  Iff.rfl

/-- `Less` is the total order. -/
theorem less_iff_lt {t u : Timestamp} : t.less u = true ↔ t < u := by
  rw [lt_iff_key_lt, key, key, Prod.Lex.toLex_lt_toLex, Prod.Lex.toLex_lt_toLex, less]
  simp only [ne_eq, ite_not]
  split
  · rename_i sameWall
    rw [sameWall]
    simp only [lt_self_iff_false, true_and, false_or]
    split
    · rename_i sameLogical
      rw [sameLogical]
      simp only [lt_self_iff_false, true_and, false_or, decide_eq_true_eq]
    rename_i otherLogical
    rw [decide_eq_true_eq, UInt32.lt_iff_toNat_lt]
    constructor
    · exact .inl
    · rintro (below | ⟨same, _⟩)
      · exact below
      · exact absurd (UInt32.toNat_inj.mp same) otherLogical
  · rename_i otherWall
    rw [decide_eq_true_eq, Int64.lt_iff_toInt_lt]
    constructor
    · exact .inl
    · rintro (below | ⟨same, _⟩)
      · exact below
      · exact absurd (Int64.toInt_inj.mp same) otherWall

theorem less_eq_false_iff_le {t u : Timestamp} : t.less u = false ↔ u ≤ t := by
  rw [← not_lt, ← less_iff_lt, Bool.not_eq_true]

/-! ## Encoding -/

/-- Why a timestamp cannot be encoded or decoded. -/
inductive CodecError where
  | nodeIDTooLong
  | tooShort (length : Nat)
  | nodeIDExceedsData (nodeIDLen : Nat)
  | trailingBytes (count : Nat)
  deriving DecidableEq, Repr

/-- The fixed part: wall time, counter and the length of the name. -/
def headerSize : Nat := 14

/-- Where the length of the name stands. -/
def nodeIDLenOffset : Nat := 12

def maxNodeIDLen : Nat := 2 ^ 16 - 1

/-- The bytes of a timestamp whose name is short enough. -/
def encoding (t : Timestamp) : Bytes :=
  bigEndian 8 t.wallTime.toUInt64.toNat ++
    (bigEndian 4 t.logical.toNat ++ (bigEndian 2 t.nodeID.length ++ t.nodeID))

def encode (t : Timestamp) : Except CodecError Bytes :=
  if maxNodeIDLen < t.nodeID.length then .error .nodeIDTooLong else .ok t.encoding

/-- The length of the name as the header gives it. -/
def nodeIDLenOf (b : Bytes) : Nat :=
  ofBigEndian ((b.drop nodeIDLenOffset).take 2)

def decodeTimestamp (b : Bytes) : Except CodecError Timestamp :=
  if b.length < headerSize then .error (.tooShort b.length)
  else if b.length < headerSize + nodeIDLenOf b then .error (.nodeIDExceedsData (nodeIDLenOf b))
  else if b.length ≠ headerSize + nodeIDLenOf b then
    .error (.trailingBytes (b.length - (headerSize + nodeIDLenOf b)))
  else
    .ok
      { wallTime := (UInt64.ofNat (ofBigEndian (b.take 8))).toInt64
        logical := UInt32.ofNat (ofBigEndian ((b.drop 8).take 4))
        nodeID := b.drop headerSize }

/-- `DecodeTimestamp` with the index and slice expressions of the source. -/
def decodeTimestampAt (b : Bytes) : Checked CodecError Timestamp :=
  if b.length < headerSize then Checked.fail (.tooShort b.length)
  else do
    let wallTime ← bigUintAt 8 b 0
    let logical ← bigUintAt 4 b 8
    let nodeIDLen ← bigUintAt 2 b nodeIDLenOffset
    let expectedLen := headerSize + nodeIDLen
    if b.length < expectedLen then Checked.fail (.nodeIDExceedsData nodeIDLen)
    else if b.length ≠ expectedLen then Checked.fail (.trailingBytes (b.length - expectedLen))
    else do
      let nodeID ← slice b headerSize expectedLen
      return ⟨(UInt64.ofNat wallTime).toInt64, UInt32.ofNat logical, nodeID⟩

variable {t : Timestamp}

theorem decodeTimestampAt_eq (b : Bytes) :
    decodeTimestampAt b = (decodeTimestamp b).mapError .failed := by
  have size : headerSize = 14 := rfl
  have offset : nodeIDLenOffset = 12 := rfl
  rw [decodeTimestampAt, decodeTimestamp]
  split
  · rfl
  rw [bigUintAt_eq_ok (by omega), bigUintAt_eq_ok (by omega), bigUintAt_eq_ok (by omega)]
  simp only [ok_bind, ← nodeIDLenOf.eq_def, drop_zero]
  split
  · rfl
  split
  · rfl
  have name : (b.drop headerSize).length ≤ headerSize + nodeIDLenOf b - headerSize := by
    rw [length_drop]
    omega
  rw [slice_eq_ok (by omega) (by omega), ok_bind, take_of_length_le name]
  rfl

theorem encoding_length : t.encoding.length = headerSize + t.nodeID.length := by
  rw [encoding, length_append, length_append, length_append, bigEndian_length,
    bigEndian_length, bigEndian_length, headerSize]
  omega

/-- The length of the name is found in front of whatever follows the timestamp. -/
theorem nodeIDLenOf_encoding (fits : t.nodeID.length ≤ maxNodeIDLen) (rest : Bytes) :
    nodeIDLenOf (t.encoding ++ rest) = t.nodeID.length := by
  have front : t.encoding ++ rest =
      (bigEndian 8 t.wallTime.toUInt64.toNat ++ bigEndian 4 t.logical.toNat) ++
        (bigEndian 2 t.nodeID.length ++ (t.nodeID ++ rest)) := by
    simp only [encoding, append_assoc]
  have offset : (bigEndian 8 t.wallTime.toUInt64.toNat ++ bigEndian 4 t.logical.toNat).length =
      nodeIDLenOffset := by
    rw [length_append, bigEndian_length, bigEndian_length]
    rfl
  rw [nodeIDLenOf, front, drop_left' offset, take_left' (bigEndian_length _ _)]
  apply ofBigEndian_of_lt
  exact Nat.lt_of_le_of_lt fits (by decide)

/-- The bytes that are decoded are the encoding. -/
theorem encoding_of_decodeTimestamp {b : Bytes} (decoded : decodeTimestamp b = .ok t) :
    t.encoding = b ∧ t.nodeID.length ≤ maxNodeIDLen := by
  rw [decodeTimestamp] at decoded
  split at decoded
  · cases decoded
  rename_i long
  split at decoded
  · cases decoded
  split at decoded
  · cases decoded
  rename_i exact
  cases decoded
  have whole := not_not.mp exact
  -- every field is written as it stands in the bytes
  have field {start width : Nat} (inside : start + width ≤ b.length) :
      bigEndian width (ofBigEndian ((b.drop start).take width)) = (b.drop start).take width ∧
        ofBigEndian ((b.drop start).take width) < 256 ^ width := by
    have length : ((b.drop start).take width).length = width := by
      rw [length_take, length_drop]
      omega
    have encoded := bigEndian_ofBigEndian ((b.drop start).take width)
    have bound := ofBigEndian_lt ((b.drop start).take width)
    rw [length] at encoded bound
    exact ⟨encoded, bound⟩
  have size : headerSize = 14 := rfl
  rw [Nat.not_lt] at long
  have wall := @field 0 8 (by omega)
  have logical := @field 8 4 (by omega)
  have name : bigEndian 2 (nodeIDLenOf b) = (b.drop 12).take 2 ∧ nodeIDLenOf b < 256 ^ 2 :=
    @field 12 2 (by omega)
  have nameLength : (b.drop headerSize).length = nodeIDLenOf b := by
    rw [length_drop]
    omega
  have isWall : (UInt64.ofNat (ofBigEndian (b.take 8))).toInt64.toUInt64.toNat =
      ofBigEndian (b.take 8) := UInt64.toNat_ofNat_of_lt' wall.2
  constructor
  · rw [encoding]
    dsimp only
    rw [isWall, UInt32.toNat_ofNat_of_lt' logical.2, nameLength, name.1, logical.1]
    have first : bigEndian 8 (ofBigEndian (b.take 8)) = b.take 8 := wall.1
    have afterLogical : b.drop 12 = (b.drop 12).take 2 ++ b.drop headerSize := by
      rw [size, show 14 = 12 + 2 from rfl, ← drop_drop, take_append_drop]
    have afterWall : b.drop 8 = (b.drop 8).take 4 ++ b.drop 12 := by
      rw [show 12 = 8 + 4 from rfl, ← drop_drop, take_append_drop]
    rw [first, ← afterLogical, ← afterWall, take_append_drop]
  · dsimp only
    rw [nameLength]
    exact Nat.le_sub_one_of_lt name.2

/-- Wall time and counter are read from the front of bytes that start with them. -/
theorem fields_append (t : Timestamp) {data rest : Bytes}
    (isData : data = bigEndian 8 t.wallTime.toUInt64.toNat ++
      (bigEndian 4 t.logical.toNat ++ rest)) :
    (UInt64.ofNat (ofBigEndian (data.take 8))).toInt64 = t.wallTime ∧
      UInt32.ofNat (ofBigEndian ((data.drop 8).take 4)) = t.logical ∧ data.drop 12 = rest := by
  have afterWall : data.drop 8 = bigEndian 4 t.logical.toNat ++ rest := by
    rw [isData, drop_left' (bigEndian_length _ _)]
  refine ⟨?_, ?_, ?_⟩
  · rw [isData, take_left' (bigEndian_length _ _),
      ofBigEndian_of_lt t.wallTime.toUInt64.toNat_lt, UInt64.ofNat_toNat]
    rfl
  · rw [afterWall, take_left' (bigEndian_length _ _),
      ofBigEndian_of_lt t.logical.toNat_lt, UInt32.ofNat_toNat]
  · rw [show 12 = 8 + 4 from rfl, ← drop_drop, afterWall, drop_left' (bigEndian_length _ _)]

/-- A timestamp is read back from its encoding. -/
theorem decodeTimestamp_encoding (fits : t.nodeID.length ≤ maxNodeIDLen) :
    decodeTimestamp t.encoding = .ok t := by
  have name := nodeIDLenOf_encoding fits []
  rw [append_nil] at name
  rcases t.fields_append (show t.encoding = _ from rfl) with ⟨wall, logical, rest⟩
  have nodeID : t.encoding.drop headerSize = t.nodeID := by
    rw [show headerSize = 12 + 2 from rfl, ← drop_drop, rest, drop_left' (bigEndian_length _ _)]
  rw [decodeTimestamp, name, encoding_length, wall, logical, nodeID,
    if_neg (Nat.not_lt.mpr (Nat.le_add_right _ _)), if_neg (Nat.lt_irrefl _),
    if_neg (not_not_intro rfl)]

end Timestamp

end Theseon.HLC
