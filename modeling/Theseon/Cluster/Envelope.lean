import Theseon.HLC.Timestamp
import Theseon.Lib.Reader

/-!
# Envelopes

A replica stores a value together with its timestamp and a flag for deletions.  The
value is the last field, so it needs no length.
-/

namespace Theseon.Cluster

open Lib HLC List

structure Envelope where
  timestamp : Timestamp
  deleted : Bool
  value : Bytes
  deriving DecidableEq, Repr

/-- Why bytes are not an envelope. -/
inductive EnvelopeError where
  | tooShort (length : Nat)
  | unknownVersion (got : UInt8)
  | truncatedTimestamp
  | nodeIDPastBuffer
  | timestamp (err : Timestamp.CodecError)
  | trailingBytes (count : Nat)
  deriving DecidableEq, Repr

namespace Envelope

/-- The version and the flag. -/
def headerSize : Nat := 2

/-- A deletion is stored without its value. -/
def stored (e : Envelope) : Envelope :=
  if e.deleted then { e with value := [] } else e

end Envelope

def encodeEnvelope (e : Envelope) : Except Timestamp.CodecError Bytes :=
  match e.timestamp.encode with
  | .error err => .error err
  | .ok tsBytes =>
    if e.deleted then .ok ([1, 1] ++ tsBytes) else .ok ([1, 0] ++ (tsBytes ++ e.value))

/-- Read the part after version and flag. -/
def decodeBody (deleted : Bool) (body : Bytes) : Except EnvelopeError Envelope :=
  if body.length < Timestamp.headerSize then .error .truncatedTimestamp
  else
    let tsLen := Timestamp.headerSize + Timestamp.nodeIDLenOf body
    if body.length < tsLen then .error .nodeIDPastBuffer
    else
      match Timestamp.decodeTimestamp (body.take tsLen) with
      | .error err => .error (.timestamp err)
      | .ok ts =>
        if deleted then
          if body.length ≠ tsLen then .error (.trailingBytes (body.length - tsLen))
          else .ok ⟨ts, true, []⟩
        else .ok ⟨ts, false, body.drop tsLen⟩

def decodeEnvelope : Bytes → Except EnvelopeError Envelope
  | version :: deleted :: body =>
    if version ≠ 1 then .error (.unknownVersion version)
    else decodeBody (deleted ≠ 0) body
  | b => .error (.tooShort b.length)

theorem decodeBody_encoding {ts : Timestamp} (fits : ts.nodeID.length ≤ Timestamp.maxNodeIDLen)
    (deleted : Bool) {value : Bytes} (none : deleted = true → value = []) :
    decodeBody deleted (ts.encoding ++ value) = .ok ⟨ts, deleted, value⟩ := by
  have length : (ts.encoding ++ value).length =
      Timestamp.headerSize + ts.nodeID.length + value.length := by
    rw [length_append, Timestamp.encoding_length]
  rw [decodeBody, Timestamp.nodeIDLenOf_encoding fits, length,
    if_neg (by omega), if_neg (by omega), take_left' Timestamp.encoding_length,
    Timestamp.decodeTimestamp_encoding fits]
  cases deleted with
  | false =>
    simp only [Bool.false_eq_true, if_false]
    rw [drop_left' Timestamp.encoding_length]
  | true =>
    rw [none rfl]
    simp

theorem decodeEnvelope_cons (flag : UInt8) (body : Bytes) :
    decodeEnvelope (1 :: flag :: body) = decodeBody (flag ≠ 0) body := by
  rw [decodeEnvelope, if_neg (not_not_intro rfl)]

variable {e : Envelope}

/-- What is stored is read back. -/
theorem decodeEnvelope_encodeEnvelope {b : Bytes} (encoded : encodeEnvelope e = .ok b) :
    decodeEnvelope b = .ok e.stored := by
  rw [encodeEnvelope, Timestamp.encode] at encoded
  split at encoded
  · cases encoded
  rename_i tsBytes isEncoding
  split at isEncoding
  · cases isEncoding
  rename_i short
  cases isEncoding
  have fits := Nat.not_lt.mp short
  rcases e with ⟨ts, deleted, value⟩
  cases deleted with
  | true =>
    cases encoded
    have body := decodeBody_encoding fits true (fun _ => rfl)
    rw [append_nil] at body
    rw [cons_append, singleton_append, decodeEnvelope_cons]
    exact body
  | false =>
    cases encoded
    have body := @decodeBody_encoding ts fits false value
      (fun h => absurd h Bool.false_ne_true)
    rw [cons_append, singleton_append, decodeEnvelope_cons]
    exact body

/-- What is read after version and flag is all there is. -/
theorem eq_of_decodeBody {deleted : Bool} {body : Bytes}
    (decoded : decodeBody deleted body = .ok e) :
    body = e.timestamp.encoding ++ e.value ∧ e.deleted = deleted ∧ e.stored = e ∧
      e.timestamp.nodeID.length ≤ Timestamp.maxNodeIDLen := by
  rw [decodeBody] at decoded
  dsimp only at decoded
  split at decoded
  · cases decoded
  split at decoded
  · cases decoded
  split at decoded
  · cases decoded
  rename_i ts isTimestamp
  rcases Timestamp.encoding_of_decodeTimestamp isTimestamp with ⟨encoding, fits⟩
  split at decoded
  · rename_i isDeleted
    split at decoded
    · cases decoded
    rename_i exact
    cases decoded
    rw [← not_not.mp exact, take_length] at encoding
    exact ⟨by rw [append_nil, encoding], isDeleted.symm, rfl, fits⟩
  · rename_i live
    cases decoded
    exact ⟨by rw [encoding, take_append_drop], (Bool.eq_false_iff.mpr live).symm, rfl, fits⟩

theorem encodeEnvelope_eq_ok (fits : e.timestamp.nodeID.length ≤ Timestamp.maxNodeIDLen) :
    encodeEnvelope e =
      .ok (1 :: (if e.deleted then 1 else 0) :: (e.timestamp.encoding ++ e.stored.value)) := by
  rw [encodeEnvelope, Timestamp.encode, if_neg (Nat.not_lt.mpr fits), Envelope.stored]
  cases e.deleted <;> simp

/-- An envelope that is read is written as it was, up to the value of the flag. -/
theorem encodeEnvelope_of_decodeEnvelope {b : Bytes} (decoded : decodeEnvelope b = .ok e) :
    ∃ flag body, b = 1 :: flag :: body ∧
      encodeEnvelope e = .ok (1 :: (if flag = 0 then 0 else 1) :: body) := by
  rw [decodeEnvelope.eq_def] at decoded
  split at decoded
  · rename_i version flag body
    split at decoded
    · cases decoded
    rename_i isOne
    rcases eq_of_decodeBody decoded with ⟨isBody, deleted, stored, fits⟩
    refine ⟨flag, body, by rw [not_not.mp isOne], ?_⟩
    rw [encodeEnvelope_eq_ok fits, deleted, stored, ← isBody]
    simp
  · cases decoded

/-! ## Checked access -/

/-- `DecodeEnvelope` with the index and slice expressions of the source. -/
def decodeEnvelopeAt (b : Bytes) : Checked EnvelopeError Envelope :=
  let tsStart := Envelope.headerSize
  if b.length < Envelope.headerSize then Checked.fail (.tooShort b.length)
  else do
    let version ← index b 0
    if version ≠ 1 then Checked.fail (.unknownVersion version)
    else do
      let deleted ← index b 1
      if b.length < tsStart + Timestamp.headerSize then Checked.fail .truncatedTimestamp
      else do
        let nodeIDLen ← bigUintAt 2 b (tsStart + Timestamp.nodeIDLenOffset)
        let tsEnd := tsStart + Timestamp.headerSize + nodeIDLen
        if b.length < tsEnd then Checked.fail .nodeIDPastBuffer
        else do
          let tsBytes ← slice b tsStart tsEnd
          match Timestamp.decodeTimestampAt tsBytes with
          | .error .outOfRange => .error .outOfRange
          | .error (.failed err) => Checked.fail (.timestamp err)
          | .ok ts =>
            if deleted ≠ 0 then
              if b.length ≠ tsEnd then Checked.fail (.trailingBytes (b.length - tsEnd))
              else return ⟨ts, true, []⟩
            else do
              let remaining ← slice b tsEnd b.length
              return ⟨ts, false, remaining⟩

/-- No expression is out of range, whatever the bytes are. -/
theorem decodeEnvelopeAt_eq (b : Bytes) : decodeEnvelopeAt b = (decodeEnvelope b).mapError .failed
    := by
  rcases b with _ | ⟨version, _ | ⟨flag, body⟩⟩
  · rfl
  · rfl
  have start : Envelope.headerSize = 0 + 1 + 1 := rfl
  have tsSize : Timestamp.headerSize = 14 := rfl
  have offset : Timestamp.nodeIDLenOffset = 12 := rfl
  have shift (n : Nat) : 0 + 1 + 1 + n = n + 1 + 1 := Nat.add_comm _ _
  have shift' (n m : Nat) : n + 1 + 1 + m = n + m + 1 + 1 := by omega
  -- version and flag are cut off, and the offsets count from behind them
  rw [decodeEnvelopeAt, decodeEnvelope, index_eq_ok (by simp), index_eq_ok (by simp), decodeBody]
  simp only [start, shift, shift', bigUintAt, slice_cons, ok_bind, getD_cons_zero, getD_cons_succ,
    length_cons, Nat.add_lt_add_iff_right, Nat.add_right_cancel_iff, Nat.add_sub_add_right, ne_eq]
  rw [if_neg (show ¬ body.length + 1 < 1 by omega)]
  split
  · rfl
  split
  · rfl
  have name : (slice body 12 (12 + 2)).map ofBigEndian = (.ok (Timestamp.nodeIDLenOf body) :
      Checked EnvelopeError Nat) := bigUintAt_eq_ok (by omega)
  rw [offset, name, ok_bind]
  split
  · rfl
  rw [slice_eq_ok (by omega) (by omega), ok_bind, Timestamp.decodeTimestampAt_eq, Nat.sub_zero,
    drop_zero]
  cases Timestamp.decodeTimestamp
    (body.take (Timestamp.headerSize + Timestamp.nodeIDLenOf body)) with
  | error err => rfl
  | ok ts =>
    dsimp only [Except.mapError]
    rw [slice_eq_ok (by omega) le_rfl, take_of_length_le length_drop.le]
    simp only [decide_eq_true_eq]
    split
    · split <;> rfl
    · rfl

theorem stored_timestamp (e : Envelope) : e.stored.timestamp = e.timestamp := by
  rw [Envelope.stored]
  split
  · rfl
  · rfl

/-- The codec of envelopes: what is written is read back, so different envelopes are written
differently; any bytes can be read; and what is read is written as it was, up to the value
of the flag of a deletion. -/
theorem envelope_codec :
    (∀ e : Envelope, e.timestamp.nodeID.length ≤ 65535 →
      ∃ b, encodeEnvelope e = .ok b ∧ decodeEnvelope b = .ok e.stored) ∧
    (∀ e e' : Envelope, ∀ b, encodeEnvelope e = .ok b → encodeEnvelope e' = .ok b →
      e.stored = e'.stored) ∧
    (∀ b, decodeEnvelopeAt b = (decodeEnvelope b).mapError .failed) ∧
    ∀ b e, decodeEnvelope b = .ok e → ∃ flag body, b = 1 :: flag :: body ∧
      encodeEnvelope e = .ok (1 :: (if flag = 0 then 0 else 1) :: body) := by
  refine ⟨?_, ?_, decodeEnvelopeAt_eq, fun b e => encodeEnvelope_of_decodeEnvelope⟩
  · intro e fits
    exact ⟨_, encodeEnvelope_eq_ok fits, decodeEnvelope_encodeEnvelope (encodeEnvelope_eq_ok fits)⟩
  · intro e e' b encoded encoded'
    have decoded := decodeEnvelope_encodeEnvelope encoded
    rw [decodeEnvelope_encodeEnvelope encoded'] at decoded
    exact (Except.ok.inj decoded).symm

end Theseon.Cluster
