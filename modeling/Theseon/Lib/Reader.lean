import Theseon.Lib.Endian
import Theseon.Lib.Outcome

/-!
# Reading from the front of a byte string

A decoder cuts pieces of known length off the front and fails with a given error where
too few bytes are left.
-/

namespace Theseon.Lib

variable {ε : Type u} {short : ε}

/-- Cut the next bytes off. -/
def readBytes (short : ε) (count : Nat) (data : Bytes) : Except ε (Bytes × Bytes) :=
  if data.length < count then .error short else .ok (data.take count, data.drop count)

/-- Cut the next little-endian number off. -/
def readNumber (short : ε) (width : Nat) (data : Bytes) : Except ε (Nat × Bytes) :=
  (readBytes short width data).map fun piece => (ofLittleEndian piece.1, piece.2)

theorem readBytes_append {count : Nat} {piece : Bytes} (long : piece.length = count)
    (rest : Bytes) : readBytes short count (piece ++ rest) = .ok (piece, rest) := by
  rw [readBytes, if_neg (by rw [List.length_append]; omega), List.take_left' long,
    List.drop_left' long]

theorem length_readBytes {count : Nat} {data piece rest : Bytes}
    (read : readBytes short count data = .ok (piece, rest)) : piece.length = count := by
  rw [readBytes] at read
  split at read
  · cases read
  rename_i enough
  cases read
  exact List.length_take_of_le (Nat.not_lt.mp enough)

theorem readNumber_littleEndian {width value : Nat} (fits : value < 256 ^ width) (rest : Bytes) :
    readNumber short width (littleEndian width value ++ rest) = .ok (value, rest) := by
  rw [readNumber, readBytes_append (littleEndian_length width value), Except.map,
    ofLittleEndian_of_lt fits]

theorem readNumber_byte (byte : UInt8) (rest : Bytes) :
    readNumber short 1 (byte :: rest) = .ok (byte.toNat, rest) := by
  rw [readNumber, readBytes, if_neg (by simp)]
  simp [Except.map, ofLittleEndian]

theorem readNumber_lt {width value : Nat} {data rest : Bytes}
    (read : readNumber short width data = .ok (value, rest)) : value < 256 ^ width := by
  rcases map_eq_ok.mp read with ⟨piece, isPiece, same⟩
  cases same
  have bound := ofLittleEndian_lt piece.1
  rwa [length_readBytes isPiece] at bound

end Theseon.Lib
