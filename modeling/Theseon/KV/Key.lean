import Theseon.Lib.Endian

/-!
# Internal keys

An internal key is a user key followed by eight big-endian bytes of the
inverted sequence number.  Internal keys are compared as plain byte strings.

For one user key, and for two user keys neither of which is a prefix of the
other, this byte order is the intended one: user key ascending, sequence number
descending.  When one user key extends another the suffix of the longer key is
compared with inverted sequence bytes of the shorter, and the order can put a
version of one key between the search key and the versions of the other;
`shadows_iff` says exactly when.
-/

namespace Theseon.KV

open Lib List

/-- Width of the sequence-number suffix. -/
def seqSize : Nat := 8

/-- The largest sequence number, `math.MaxUint64`. -/
def maxSeqNum : Nat := 2 ^ 64 - 1

/-- The eight suffix bytes of a version: `math.MaxUint64 - seq`, big-endian. -/
def invertedSeq (seq : Nat) : Bytes :=
  bigEndian seqSize (maxSeqNum - seq)

def makeInternalKey (userKey : Bytes) (seq : Nat) : Bytes :=
  userKey ++ invertedSeq seq

/-- Why bytes are not an internal key. -/
inductive KeyError where
  | tooShort (length : Nat)
  deriving DecidableEq, Repr

def parseInternalKey (ikey : Bytes) : Except KeyError (Bytes × Nat) :=
  if ikey.length < seqSize then .error (.tooShort ikey.length)
  else
    let boundary := ikey.length - seqSize
    .ok (ikey.take boundary, maxSeqNum - ofBigEndian (ikey.drop boundary))

/-- `UserKey`.  A key of at most eight bytes gives the nil slice, which
compares equal to the empty user key. -/
def userKey (ikey : Bytes) : Bytes :=
  if ikey.length ≤ seqSize then [] else ikey.take (ikey.length - seqSize)

def seqNum (ikey : Bytes) : Nat :=
  if ikey.length < seqSize then 0
  else maxSeqNum - ofBigEndian (ikey.drop (ikey.length - seqSize))

/-- `MakeSearchKey`: the smallest internal key of a user key. -/
def makeSearchKey (userKey : Bytes) : Bytes :=
  makeInternalKey userKey maxSeqNum

@[simp]
theorem invertedSeq_length (seq : Nat) : (invertedSeq seq).length = seqSize := by
  simp [invertedSeq]

theorem makeInternalKey_length (user : Bytes) (seq : Nat) :
    (makeInternalKey user seq).length = user.length + seqSize := by
  simp [makeInternalKey]

theorem maxSeqNum_sub_lt (seq : Nat) : maxSeqNum - seq < 256 ^ seqSize := by
  simp only [maxSeqNum, seqSize]
  omega

@[simp]
theorem userKey_makeInternalKey (user : Bytes) (seq : Nat) :
    userKey (makeInternalKey user seq) = user := by
  simp only [userKey, makeInternalKey_length]
  cases user with
  | nil => simp
  | cons byte rest => simp [makeInternalKey]

variable {user : Bytes} {s t : Nat}

theorem parse_makeInternalKey {seq : Nat} (bounded : seq ≤ maxSeqNum) :
    parseInternalKey (makeInternalKey user seq) = .ok (user, seq) := by
  have front : (makeInternalKey user seq).take user.length = user := take_left' rfl
  have suffix : (makeInternalKey user seq).drop user.length = invertedSeq seq := drop_left' rfl
  rw [parseInternalKey, makeInternalKey_length, if_neg (by omega), Nat.add_sub_cancel]
  dsimp only
  rw [front, suffix, invertedSeq, ofBigEndian_of_lt (maxSeqNum_sub_lt seq),
    Nat.sub_sub_self bounded]

@[simp]
theorem seqNum_makeInternalKey {seq : Nat} (bounded : seq ≤ maxSeqNum) :
    seqNum (makeInternalKey user seq) = seq := by
  have long : ¬ (makeInternalKey user seq).length < seqSize := by simp [makeInternalKey_length]
  have parsed := @parse_makeInternalKey user seq bounded
  rw [parseInternalKey, if_neg long] at parsed
  rw [seqNum, if_neg long]
  exact congrArg Prod.snd (Except.ok.inj parsed)

theorem seqNum_le (ikey : Bytes) : seqNum ikey ≤ maxSeqNum := by
  unfold seqNum
  split <;> omega

/-- Every byte string of at least eight bytes is an internal key. -/
theorem makeInternalKey_userKey_seqNum {ikey : Bytes} (long : seqSize ≤ ikey.length) :
    makeInternalKey (userKey ikey) (seqNum ikey) = ikey := by
  have front : userKey ikey = ikey.take (ikey.length - seqSize) := by
    unfold userKey
    split
    · have exact : ikey.length - seqSize = 0 := by omega
      simp [exact]
    · rfl
  have width : (ikey.drop (ikey.length - seqSize)).length = seqSize := by
    rw [length_drop]
    omega
  have suffixLt : ofBigEndian (ikey.drop (ikey.length - seqSize)) ≤ maxSeqNum := by
    have bound := ofBigEndian_lt (ikey.drop (ikey.length - seqSize))
    rw [width] at bound
    simp only [seqSize, maxSeqNum] at bound ⊢
    omega
  have suffix : invertedSeq (seqNum ikey) = ikey.drop (ikey.length - seqSize) := by
    rw [seqNum, if_neg (by omega), invertedSeq, Nat.sub_sub_self suffixLt]
    have encoded := bigEndian_ofBigEndian (ikey.drop (ikey.length - seqSize))
    rwa [width] at encoded
  rw [makeInternalKey, suffix, front, take_append_drop]

/-- The suffix of a search key is eight zero bytes, below every string that
is at least as long. -/
theorem invertedSeq_maxSeqNum_le {x : Bytes} (long : seqSize ≤ x.length) :
    invertedSeq maxSeqNum ≤ x := by
  have zeros : invertedSeq maxSeqNum = List.replicate seqSize 0 := by decide
  rw [zeros]
  exact replicate_le_of_minimal (fun byte => UInt8.le_iff_toNat_le.mpr (by simp)) long

/-! ## Order of the versions of one user key -/

theorem invertedSeq_lt_iff (sBounded : s ≤ maxSeqNum) (tBounded : t ≤ maxSeqNum) :
    invertedSeq s < invertedSeq t ↔ t < s := by
  rw [invertedSeq, invertedSeq, bigEndian_lt_iff (maxSeqNum_sub_lt s) (maxSeqNum_sub_lt t)]
  omega

/-- Versions of one user key sort newest first. -/
theorem makeInternalKey_lt_iff (sBounded : s ≤ maxSeqNum) (tBounded : t ≤ maxSeqNum) :
    makeInternalKey user s < makeInternalKey user t ↔ t < s := by
  rw [makeInternalKey, makeInternalKey, append_lt_append_left_iff,
    invertedSeq_lt_iff sBounded tBounded]

theorem makeInternalKey_le_iff (sBounded : s ≤ maxSeqNum) (tBounded : t ≤ maxSeqNum) :
    makeInternalKey user s ≤ makeInternalKey user t ↔ t ≤ s := by
  rw [← not_lt, makeInternalKey_lt_iff tBounded sBounded, not_lt]

/-- The search key of a user key is at or below every version of it. -/
theorem makeSearchKey_le (bounded : s ≤ maxSeqNum) : makeSearchKey user ≤ makeInternalKey user s :=
  (makeInternalKey_le_iff le_rfl bounded).mpr bounded

/-! ## Order across user keys -/

/-- User keys that are not prefixes of one another decide the order. -/
theorem makeInternalKey_lt_iff_of_unrelated {a b : Bytes} (unrelated : Unrelated a b)
    (s t : Nat) : makeInternalKey a s < makeInternalKey b t ↔ a < b :=
  append_lt_append_iff_of_unrelated unrelated _ _

/-- For user keys neither of which is a proper prefix of the other, the byte order is by
user key and then by descending sequence number.  A search key comes before the versions
of its user key and behind those of smaller ones. -/
theorem internal_keys_ordered :
    (∀ (a b : Bytes) (s t : UInt64), (a <+: b → a = b) → (b <+: a → a = b) →
      compare (makeInternalKey a s.toNat) (makeInternalKey b t.toNat) =
        (compare a b).then (compare t.toNat s.toNat)) ∧
    (∀ (a : Bytes) (s t : UInt64),
      compare (makeInternalKey a s.toNat) (makeInternalKey a t.toNat) =
        compare t.toNat s.toNat) ∧
    (∀ (a : Bytes) (s : UInt64), makeSearchKey a ≤ makeInternalKey a s.toNat) ∧
    (∀ (a b : Bytes) (s : UInt64), Unrelated a b → b < a →
      makeInternalKey b s.toNat < makeSearchKey a) ∧
    ∀ (a : Bytes) (s : UInt64),
      parseInternalKey (makeInternalKey a s.toNat) = .ok (a, s.toNat) := by
  have bounded (s : UInt64) : s.toNat ≤ maxSeqNum := Nat.le_of_lt_succ s.toNat_lt
  have sameKey (a : Bytes) (s t : UInt64) :
      compare (makeInternalKey a s.toNat) (makeInternalKey a t.toNat) =
        compare t.toNat s.toNat := by
    apply compare_eq_of_lt_iff
    · rw [makeInternalKey_lt_iff (bounded s) (bounded t), Nat.compare_eq_lt]
    · rw [makeInternalKey_lt_iff (bounded t) (bounded s), Nat.compare_eq_gt]
  refine ⟨?_, sameKey, fun a s => makeSearchKey_le (bounded s), ?_, fun a s =>
    parse_makeInternalKey (bounded s)⟩
  · intro a b s t forward backward
    by_cases same : a = b
    · rw [← same, sameKey, @Std.ReflCmp.compare_self _ compare]
      rfl
    have unrelated : Unrelated a b := ⟨fun front => same (forward front), fun front =>
      same (backward front)⟩
    apply compare_eq_of_lt_iff
    · rw [makeInternalKey_lt_iff_of_unrelated unrelated, ← compare_eq_lt_iff]
      cases compared : compare a b <;> simp_all
    · rw [makeInternalKey_lt_iff_of_unrelated unrelated.symm, ← compare_eq_lt_iff,
        ← Std.OrientedCmp.gt_iff_lt]
      cases compared : compare a b <;> simp_all
  · exact fun a b s unrelated less =>
      (makeInternalKey_lt_iff_of_unrelated unrelated.symm s.toNat maxSeqNum).mpr less

/-- A version `(u, t)` shadows a version `(k, s)` of another user key: it sorts
at or above the search key of `k` and below the version itself, so a walk from
the search key meets it first. -/
def Shadows (u : Bytes) (t : Nat) (k : Bytes) (s : Nat) : Prop :=
  u ≠ k ∧ makeSearchKey k ≤ makeInternalKey u t ∧ makeInternalKey u t < makeInternalKey k s

instance (u : Bytes) (t : Nat) (k : Bytes) (s : Nat) : Decidable (Shadows u t k s) :=
  inferInstanceAs (Decidable (_ ∧ _ ∧ _))

theorem not_shadows_of_unrelated {u k : Bytes} (unrelated : Unrelated u k) (t s : Nat) :
    ¬ Shadows u t k s := by
  rintro ⟨_, above, below⟩
  have less := (makeInternalKey_lt_iff_of_unrelated unrelated t s).mp below
  exact above.not_gt ((makeInternalKey_lt_iff_of_unrelated unrelated t maxSeqNum).mpr less)

/-- Shadowing in terms of the suffix by which one user key extends the other:
the suffix, completed by the sequence bytes of its own version, competes with
the bare sequence bytes of the shorter key. -/
theorem shadows_iff (u : Bytes) (t : Nat) (k : Bytes) (s : Nat) :
    Shadows u t k s ↔
      (∃ w, w ≠ [] ∧ u = k ++ w ∧ w ++ invertedSeq t < invertedSeq s) ∨
      (∃ w, w ≠ [] ∧ k = u ++ w ∧ w ++ invertedSeq maxSeqNum ≤ invertedSeq t ∧
        invertedSeq t < w ++ invertedSeq s) := by
  constructor
  · intro shadows
    rcases eq_or_unrelated_or_extends u k with same | unrelated | ⟨w, nonempty, rfl⟩ |
      ⟨w, nonempty, rfl⟩
    · exact absurd same shadows.1
    · exact absurd shadows (not_shadows_of_unrelated unrelated t s)
    · obtain ⟨_, above, below⟩ := shadows
      simp only [makeSearchKey, makeInternalKey, append_assoc, append_le_append_left_iff,
        append_lt_append_left_iff] at above below
      exact .inr ⟨w, nonempty, rfl, above, below⟩
    · obtain ⟨_, _, below⟩ := shadows
      simp only [makeInternalKey, append_assoc, append_lt_append_left_iff] at below
      exact .inl ⟨w, nonempty, rfl, below⟩
  · rintro (⟨w, nonempty, rfl, below⟩ | ⟨w, nonempty, rfl, above, below⟩)
    · refine ⟨by simpa using nonempty, ?_, ?_⟩
      · -- the search suffix is all zeros, so nothing of eight or more bytes is below it
        simp only [makeSearchKey, makeInternalKey, append_assoc, append_le_append_left_iff]
        exact invertedSeq_maxSeqNum_le (by simp)
      · simpa only [makeInternalKey, append_assoc, append_lt_append_left_iff] using below
    · refine ⟨fun same => nonempty (by simpa using same), ?_, ?_⟩
      · simpa only [makeSearchKey, makeInternalKey, append_assoc,
          append_le_append_left_iff] using above
      · simpa only [makeInternalKey, append_assoc, append_lt_append_left_iff] using below

end Theseon.KV
