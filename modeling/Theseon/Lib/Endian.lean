import Mathlib.Tactic.Ring
import Theseon.Lib.Bytes

/-!
# Fixed-width integer encodings

Unsigned integers written as a fixed number of bytes, most significant byte
first or last.  Encoding keeps the low bytes of the number, as a conversion to
a fixed-width integer does.  The big-endian form preserves order, which is what
makes it usable inside a lexicographically compared key.
-/

namespace Theseon.Lib

/-- The low `width` bytes of `value`, most significant byte first. -/
def bigEndian : (width value : Nat) → Bytes
  | 0, _ => []
  | width + 1, value => UInt8.ofNat (value / 256 ^ width) :: bigEndian width value

/-- The number a big-endian byte string denotes. -/
def ofBigEndian : Bytes → Nat
  | [] => 0
  | byte :: rest => byte.toNat * 256 ^ rest.length + ofBigEndian rest

/-- The low `width` bytes of `value`, least significant byte first. -/
def littleEndian : (width value : Nat) → Bytes
  | 0, _ => []
  | width + 1, value => UInt8.ofNat value :: littleEndian width (value / 256)

/-- The number a little-endian byte string denotes. -/
def ofLittleEndian : Bytes → Nat
  | [] => 0
  | byte :: rest => byte.toNat + 256 * ofLittleEndian rest

@[simp]
theorem bigEndian_length (width value : Nat) : (bigEndian width value).length = width := by
  induction width with
  | zero => rfl
  | succ width ih => simp [bigEndian, ih]

@[simp]
theorem littleEndian_length (width value : Nat) :
    (littleEndian width value).length = width := by
  induction width generalizing value with
  | zero => rfl
  | succ width ih => simp [littleEndian, ih]

variable {width : Nat}

@[simp]
theorem drop_littleEndian {n : Nat} (within : width ≤ n) (value : Nat) :
    (littleEndian width value).drop n = [] :=
  List.drop_of_length_le (by simpa using within)

@[simp]
theorem take_littleEndian {n : Nat} (within : width ≤ n) (value : Nat) :
    (littleEndian width value).take n = littleEndian width value :=
  List.take_of_length_le (by simpa using within)

theorem ofBigEndian_lt (bytes : Bytes) : ofBigEndian bytes < 256 ^ bytes.length := by
  induction bytes with
  | nil => simp [ofBigEndian]
  | cons byte rest ih =>
    have byteLt : byte.toNat + 1 ≤ 256 := byte.toNat_lt
    calc
      byte.toNat * 256 ^ rest.length + ofBigEndian rest
          < byte.toNat * 256 ^ rest.length + 256 ^ rest.length := by omega
      _ = (byte.toNat + 1) * 256 ^ rest.length := by ring
      _ ≤ 256 * 256 ^ rest.length := Nat.mul_le_mul_right _ byteLt
      _ = 256 ^ (byte :: rest).length := by rw [List.length_cons, pow_succ']

/-- Decoding a big-endian encoding returns the number reduced to its width. -/
theorem ofBigEndian_bigEndian (width value : Nat) :
    ofBigEndian (bigEndian width value) = value % 256 ^ width := by
  induction width with
  | zero => simp [bigEndian, ofBigEndian, Nat.mod_one]
  | succ width ih =>
    have split : value % 256 ^ (width + 1) =
        value % 256 ^ width + 256 ^ width * (value / 256 ^ width % 256) := by
      rw [pow_succ, Nat.mod_mul]
    rw [bigEndian, ofBigEndian, bigEndian_length, ih, UInt8.toNat_ofNat', split]
    ring

theorem ofBigEndian_of_lt {value : Nat} (fits : value < 256 ^ width) :
    ofBigEndian (bigEndian width value) = value := by
  rw [ofBigEndian_bigEndian, Nat.mod_eq_of_lt fits]

theorem ofLittleEndian_lt (bytes : Bytes) : ofLittleEndian bytes < 256 ^ bytes.length := by
  induction bytes with
  | nil => simp [ofLittleEndian]
  | cons byte rest ih =>
    have byteLt : byte.toNat < 256 := byte.toNat_lt
    rw [ofLittleEndian, List.length_cons, pow_succ']
    omega

theorem ofLittleEndian_take_lt (data : Bytes) (width : Nat) :
    ofLittleEndian (data.take width) < 256 ^ width :=
  (ofLittleEndian_lt _).trans_le
    (Nat.pow_le_pow_right (by decide) (List.length_take_le width data))

/-- Decoding a little-endian encoding returns the number reduced to its width. -/
theorem ofLittleEndian_littleEndian (width value : Nat) :
    ofLittleEndian (littleEndian width value) = value % 256 ^ width := by
  induction width generalizing value with
  | zero => simp [littleEndian, ofLittleEndian, Nat.mod_one]
  | succ width ih =>
    have split : value % 256 ^ (width + 1) =
        value % 256 + 256 * (value / 256 % 256 ^ width) := by
      rw [pow_succ', Nat.mod_mul]
    rw [littleEndian, ofLittleEndian, ih, UInt8.toNat_ofNat', split]

theorem ofLittleEndian_of_lt {value : Nat} (fits : value < 256 ^ width) :
    ofLittleEndian (littleEndian width value) = value := by
  rw [ofLittleEndian_littleEndian, Nat.mod_eq_of_lt fits]

/-- Byte strings of equal length compare as the numbers they denote. -/
theorem ofBigEndian_lt_iff {x y : Bytes} (sameLength : x.length = y.length) :
    ofBigEndian x < ofBigEndian y ↔ x < y := by
  induction x generalizing y with
  | nil =>
    cases y with
    | nil => simp
    | cons byte rest => simp at sameLength
  | cons byte rest ih =>
    cases y with
    | nil => simp at sameLength
    | cons other others =>
      have restLength : rest.length = others.length := by simpa using sameLength
      have restLt := ofBigEndian_lt rest
      have othersLt := ofBigEndian_lt others
      rw [← restLength] at othersLt
      simp only [ofBigEndian, ← restLength]
      rcases lt_trichotomy byte other with below | rfl | above
      · have digit : byte.toNat + 1 ≤ other.toNat := UInt8.lt_iff_toNat_lt.mp below
        have scaled := Nat.mul_le_mul_right (256 ^ rest.length) digit
        have head : byte :: rest < other :: others := List.Lex.rel below
        simp only [head, iff_true]
        rw [Nat.add_mul] at scaled
        omega
      · rw [Nat.add_lt_add_iff_left, ih restLength, cons_lt_cons_iff_of_eq]
      · have digit : other.toNat + 1 ≤ byte.toNat := UInt8.lt_iff_toNat_lt.mp above
        have scaled := Nat.mul_le_mul_right (256 ^ rest.length) digit
        have head : other :: others < byte :: rest := List.Lex.rel above
        simp only [head.not_gt, iff_false]
        rw [Nat.add_mul] at scaled
        omega

/-- Encoding what a byte string denotes gives the string back. -/
theorem bigEndian_ofBigEndian (x : Bytes) : bigEndian x.length (ofBigEndian x) = x := by
  have same : ofBigEndian (bigEndian x.length (ofBigEndian x)) = ofBigEndian x :=
    ofBigEndian_of_lt (ofBigEndian_lt x)
  have width : (bigEndian x.length (ofBigEndian x)).length = x.length :=
    bigEndian_length _ _
  rcases lt_trichotomy (bigEndian x.length (ofBigEndian x)) x with below | equal | above
  · exact absurd same ((ofBigEndian_lt_iff width).mpr below).ne
  · exact equal
  · exact absurd same ((ofBigEndian_lt_iff width.symm).mpr above).ne'

/-- Big-endian encodings compare as the encoded numbers. -/
theorem bigEndian_lt_iff {v w : Nat} (vFits : v < 256 ^ width) (wFits : w < 256 ^ width) :
    bigEndian width v < bigEndian width w ↔ v < w := by
  rw [← ofBigEndian_lt_iff (by simp), ofBigEndian_of_lt vFits,
    ofBigEndian_of_lt wFits]

end Theseon.Lib
