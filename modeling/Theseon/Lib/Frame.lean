import Theseon.Lib.Crc32
import Theseon.Lib.Endian
import Theseon.Lib.Outcome

/-!
# Checksummed frames

A frame is a checksum, a length and a payload of that length; the checksum
covers length and payload.  A complete frame at the front of a byte string is
recognised, and a proper prefix of a frame is recognised as too short.
-/

namespace Theseon.Lib

open List

/-- The bytes of checksum and length. -/
def frameHeader : Nat := 8

/-- What the checksum of a frame covers. -/
def frameBody (payload : Bytes) : Bytes :=
  littleEndian 4 payload.length ++ payload

def frame (payload : Bytes) : Bytes :=
  littleEndian 4 (crc32 (frameBody payload)).toNat ++ frameBody payload

/-- Why the front of a byte string is no frame. -/
inductive FrameError where
  | short
  | corrupt
  deriving DecidableEq, Repr

/-- The length of the payload of the frame at the front of `data`, which has to
be at least `least`. -/
def unframe (least : Nat) (data : Bytes) : Except FrameError Nat :=
  if data.length < frameHeader then .error .short
  else
    let payloadLen := ofLittleEndian ((data.drop 4).take 4)
    if payloadLen < least then .error .short
    else if data.length < frameHeader + payloadLen then .error .short
    else if ofLittleEndian (data.take 4) ≠ (crc32 ((data.drop 4).take (4 + payloadLen))).toNat then
      .error .corrupt
    else .ok payloadLen

/-- The bytes start with a frame of `n` bytes that passes its checksum. -/
def Framed (data : Bytes) (n : Nat) : Prop :=
  frameHeader + n ≤ data.length ∧ ofLittleEndian ((data.drop 4).take 4) = n ∧
    ofLittleEndian (data.take 4) = (crc32 ((data.drop 4).take (4 + n))).toNat

variable {data payload : Bytes}

theorem unframe_eq_ok_iff {n : Nat} : unframe 0 data = .ok n ↔ Framed data n := by
  rw [unframe, Framed]
  by_cases short : data.length < frameHeader
  · rw [if_pos short]
    exact iff_of_false (by simp) fun framed => absurd framed.1 (by omega)
  rw [if_neg short]
  simp only [Nat.not_lt_zero, if_false]
  constructor
  · intro framed
    split at framed
    · cases framed
    split at framed
    · cases framed
    rename_i long same
    cases framed
    exact ⟨not_lt.mp long, rfl, not_not.mp same⟩
  · rintro ⟨long, rfl, same⟩
    rw [if_neg (not_lt.mpr long), if_neg (not_not.mpr same)]

@[simp]
theorem frameBody_length (payload : Bytes) : (frameBody payload).length = 4 + payload.length := by
  simp [frameBody]

@[simp]
theorem frame_length (payload : Bytes) : (frame payload).length = frameHeader + payload.length := by
  simp only [frame, frameHeader, length_append, littleEndian_length, frameBody_length]
  omega

theorem frame_ne_nil (payload : Bytes) : frame payload ≠ [] := by
  intro empty
  have := congrArg List.length empty
  simp [frameHeader] at this

/-- The length field of anything that starts with the header of a frame. -/
theorem lengthField_frame (fits : payload.length < 2 ^ 32)
    (header : (frame payload).take 8 = data.take 8) :
    ofLittleEndian ((data.drop 4).take 4) = payload.length := by
  have field : ((frame payload).drop 4).take 4 = littleEndian 4 payload.length := by
    rw [frame, drop_left' (littleEndian_length _ _), frameBody,
      take_left' (littleEndian_length _ _)]
  have same : ((frame payload).drop 4).take 4 = (data.drop 4).take 4 := by
    have shifted := congrArg (List.drop 4) header
    rwa [drop_take, drop_take] at shifted
  rw [← same, field, ofLittleEndian_of_lt (by simpa using fits)]

theorem unframe_frame_append (fits : payload.length < 2 ^ 32) {least : Nat}
    (enough : least ≤ payload.length) (rest : Bytes) :
    unframe least (frame payload ++ rest) = .ok payload.length := by
  have lengthField : ofLittleEndian (((frame payload ++ rest).drop 4).take 4) = payload.length := by
    refine lengthField_frame fits ?_
    rw [take_append_of_le_length (by simp [frameHeader])]
  have checksumField : ofLittleEndian ((frame payload ++ rest).take 4) =
      (crc32 (frameBody payload)).toNat := by
    rw [frame, append_assoc, take_left' (littleEndian_length _ _),
      ofLittleEndian_of_lt (UInt32.toNat_lt _)]
  have covered :
      ((frame payload ++ rest).drop 4).take (4 + payload.length) = frameBody payload := by
    rw [frame, append_assoc, drop_left' (littleEndian_length _ _),
      take_left' (frameBody_length _)]
  have long : ¬ (frame payload ++ rest).length < frameHeader + payload.length := by
    simp
  have header : ¬ (frame payload ++ rest).length < frameHeader := by
    simp only [length_append, frame_length]
    omega
  simp only [unframe, if_neg header, lengthField, if_neg (not_lt.mpr enough), if_neg long,
    checksumField, covered]
  simp

/-- A proper prefix of a frame is too short. -/
theorem unframe_cut (fits : payload.length < 2 ^ 32) {least : Nat}
    (isPrefix : data <+: frame payload) (proper : data ≠ frame payload) :
    unframe least data = .error .short := by
  obtain ⟨missing, whole⟩ := isPrefix
  have total : data.length + missing.length = frameHeader + payload.length := by
    rw [← frame_length, ← whole, length_append]
  have cut : 0 < missing.length := by
    rw [length_pos_iff]
    rintro rfl
    exact proper (by simpa using whole)
  by_cases header : data.length < frameHeader
  · simp [unframe, header]
  have lengthField : ofLittleEndian ((data.drop 4).take 4) = payload.length := by
    refine lengthField_frame fits ?_
    rw [← whole, take_append_of_le_length]
    simpa [frameHeader] using header
  have short : data.length < frameHeader + payload.length := by
    omega
  simp only [unframe, if_neg header, lengthField, if_pos short]
  split <;> rfl

end Theseon.Lib
