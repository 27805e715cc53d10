import Theseon.DB.ScanRange

/-!
# Prefix scans

A prefix scan is the range scan from the prefix to its successor.  A user key that is
a proper prefix of both bounds sorts in front of both; its versions sort behind both,
since the inverted sequence bytes start with two bytes `0xFF` as long as the sequence
numbers stay below `2 ^ 48`.
-/

namespace Theseon.KV

open Lib List

/-- The loop of `prefixSuccessor`, over the bytes from the last one to the first. -/
def raiseLast : Bytes → Option Bytes
  | [] => none
  | byte :: front => if byte < 255 then some ((byte + 1) :: front).reverse else raiseLast front

/-- `prefixSuccessor`; nil when all bytes are `0xFF`. -/
def prefixSuccessor (p : Bytes) : Option Bytes :=
  raiseLast p.reverse

theorem prefixSuccessor_append {front : Bytes} {byte : UInt8} (small : byte < 255) :
    prefixSuccessor (front ++ [byte]) = some (front ++ [byte + 1]) := by
  simp [prefixSuccessor, raiseLast, small]

theorem lt_successor_iff {byte other : UInt8} (small : byte < 255) :
    other < byte + 1 ↔ other ≤ byte := by
  rw [UInt8.lt_iff_toNat_lt] at small ⊢
  rw [UInt8.le_iff_toNat_le, UInt8.toNat_add]
  change byte.toNat < 255 at small
  change other.toNat < (byte.toNat + 1) % 256 ↔ _
  omega

/-- Between a string and the string with the next last byte there are exactly the
extensions of the first. -/
theorem between_successors_iff {front : Bytes} {byte : UInt8} (small : byte < 255)
    (user : Bytes) :
    ¬ user < front ++ [byte] ∧ user < front ++ [byte + 1] ↔ front ++ [byte] <+: user := by
  induction front generalizing user with
  | nil =>
    cases user with
    | nil => simp
    | cons first rest =>
      have noLess : ¬ rest < [] := not_lt_nil rest
      simp only [nil_append, cons_lt_cons_iff, noLess, and_false, or_false, not_lt,
        lt_successor_iff small, cons_prefix_cons, nil_prefix, and_true]
      exact antisymm_iff
  | cons first front ih =>
    cases user with
    | nil => simp
    | cons other rest =>
      rw [cons_append, cons_append, cons_lt_cons_iff, cons_lt_cons_iff,
        cons_prefix_cons, ← ih rest]
      constructor
      · rintro ⟨notBelow, less | ⟨rfl, below⟩⟩
        · exact absurd (.inl less) notBelow
        · exact ⟨rfl, fun less => notBelow (.inr ⟨rfl, less⟩), below⟩
      · rintro ⟨rfl, notBelow, below⟩
        exact ⟨by simpa using notBelow, .inr ⟨rfl, below⟩⟩

/-- The inverted bytes of a sequence number below `2 ^ 48` are not below what is left
of a bound, unless that starts with `0xFF` and goes on. -/
theorem le_invertedSeq {rest : Bytes} {seq : Nat} (small : seq < 2 ^ 48)
    (low : ∀ first ∈ rest.head?, first < 255 ∨ rest = [255]) (nonempty : rest ≠ []) :
    rest ++ invertedSeq maxSeqNum ≤ invertedSeq seq := by
  have start : invertedSeq (2 ^ 48 - 1) ≤ invertedSeq seq := by
    rw [← not_lt, invertedSeq_lt_iff (le_trans small.le (by decide)) (by decide), not_lt]
    exact Nat.le_sub_one_of_lt small
  refine le_trans (le_of_lt ?_) start
  have bytes : invertedSeq (2 ^ 48 - 1) = [255, 255, 0, 0, 0, 0, 0, 0] := by decide
  cases rest with
  | nil => exact absurd rfl nonempty
  | cons first rest =>
    rw [bytes]
    rcases low first rfl with below | isLast
    · exact cons_lt_cons_iff.mpr (.inl below)
    · rw [isLast]
      decide

/-- A proper prefix of the string is a proper prefix of its successor, and its
versions lie behind both. -/
theorem overtakes_both {front user : Bytes} {byte : UInt8} {seq : Nat} (small : seq < 2 ^ 48)
    (ordinary : ∀ first ∈ front, first < 255) (isPrefix : user <+: front) :
    Overtakes user seq (front ++ [byte + 1]) := by
  rcases isPrefix with ⟨rest, rfl⟩
  refine ⟨⟨rest ++ [byte + 1], (append_assoc ..).symm⟩, by simp, ?_⟩
  rw [append_assoc, drop_left]
  apply le_invertedSeq small _ (by simp)
  intro first isFirst
  cases rest with
  | nil =>
    obtain rfl : byte + 1 = first := by simpa using isFirst
    rcases lt_or_eq_of_le (UInt8.le_iff_toNat_le.mpr (Nat.le_of_lt_succ (byte + 1).toNat_lt) :
      byte + 1 ≤ 255) with below | same
    · exact .inl below
    · exact .inr (by rw [same]; rfl)
  | cons other rest =>
    obtain rfl : other = first := by simpa using isFirst
    exact .inl (ordinary other (by simp))

/-- The versions in the interval of a prefix scan are those of the user keys that
extend the prefix. -/
theorem keyWithin_prefix_iff {p user : Bytes} {seq : Nat} (nonempty : p ≠ [])
    (ordinary : (255 : UInt8) ∉ p) (small : seq < 2 ^ 48) :
    keyWithin (some p) (prefixSuccessor p) (makeInternalKey user seq) = true ↔ p <+: user := by
  have low : ∀ byte ∈ p, byte < 255 := fun byte mem =>
    lt_of_le_of_ne (UInt8.le_iff_toNat_le.mpr (Nat.le_of_lt_succ byte.toNat_lt))
      fun same => ordinary (same ▸ mem)
  rcases eq_nil_or_concat' p with rfl | ⟨front, byte, rfl⟩
  · exact absurd rfl nonempty
  have byteLow := low byte (by simp)
  rw [prefixSuccessor_append byteLow, keyWithin_iff, ← between_successors_iff byteLow]
  simp only [Option.mem_some_iff, forall_eq', not_or, not_le, not_lt]
  constructor
  · rintro ⟨above | overtakes, below, notOvertakes⟩
    · exact ⟨above, below⟩
    · -- a proper prefix of the prefix lies behind the successor as well
      have shorter := (prefix_concat_iff.mp overtakes.1).resolve_left overtakes.2.1
      exact absurd (overtakes_both small (fun first mem => low first (by simp [mem])) shorter)
        notOvertakes
  · rintro ⟨above, below⟩
    refine ⟨.inl above, below, fun overtakes => ?_⟩
    have extended := (between_successors_iff byteLow user).mp ⟨above.not_gt, below⟩
    have sameLength := extended.eq_of_length_le (by simpa using overtakes.1.length_le)
    have same := overtakes.1.eq_of_length (by simp [← sameLength])
    exact overtakes.2.1 same

end Theseon.KV

namespace Theseon

open Lib KV SSTable Iterator

def DB.scanPrefix (db : DB) (p : Bytes) :
    Option (SnapshotIterator (MergeIterator ScanIterator ReadError) ReadError) :=
  db.scanRange (some p) (prefixSuccessor p)

/-- For a prefix without a byte `0xFF`, the interval of the prefix scan holds exactly the
versions of the user keys that extend the prefix, and the scan yields what is visible
of them. -/
theorem scanPrefix_exact {p : Bytes} (nonempty : p ≠ []) (ordinary : (255 : UInt8) ∉ p) :
    (∀ user seq, seq < 2 ^ 48 →
      (keyWithin (some p) (prefixSuccessor p) (makeInternalKey user seq) = true ↔ p <+: user)) ∧
    ∀ db : DB, db.Scannable → db.levels ≠ [] → (∀ entry ∈ db.entries, entry.seq < 2 ^ 48) →
      ∃ it, db.scanPrefix p = some it ∧
        Drains it (visible db.currentSeq none
          (db.scanned.filter fun pair => p.isPrefixOf (userKey pair.1))) none := by
  refine ⟨fun user seq => keyWithin_prefix_iff nonempty ordinary, ?_⟩
  intro db scannable levels small
  have yields := DB.scanRangeAt_drains scannable.sound levels (some p) (prefixSuccessor p)
    db.currentSeq
  have same : (db.scanned.filter fun pair => keyWithin (some p) (prefixSuccessor p) pair.1) =
      db.scanned.filter fun pair => p.isPrefixOf (userKey pair.1) := by
    apply List.filter_congr
    intro pair mem
    rcases DB.mem_scanned.mp mem with ⟨entry, entryMem, rfl⟩
    have inside := @keyWithin_prefix_iff p entry.user entry.seq nonempty ordinary
      (small entry entryMem)
    rw [(scannable.long entry entryMem).key_eq] at inside
    rw [Bool.eq_iff_iff, List.isPrefixOf_iff_prefix]
    exact inside
  rwa [same] at yields

/-- The prefix `"a\xFE"` holds the versions of `"a\xFE\xFF"` and not that of `"a"`. -/
theorem scanPrefix_high :
    keyWithin (some [97, 254]) (prefixSuccessor [97, 254])
        (makeInternalKey [97, 254, 255] 1) = true ∧
      ¬ keyWithin (some [97, 254]) (prefixSuccessor [97, 254]) (makeInternalKey [97] 1) = true := by
  have inside := (@scanPrefix_exact [97, 254] (by decide) (by decide)).1
  exact ⟨(inside _ 1 (by decide)).mpr (by decide), fun within =>
    absurd ((inside _ 1 (by decide)).mp within) (by decide)⟩

end Theseon
