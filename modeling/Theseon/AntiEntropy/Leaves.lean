import Theseon.AntiEntropy.Tree

/-!
# What a leaf can tell apart

The hash of an entry is the XOR of the hashes of its key and of its timestamp, and of a
bit for a deletion.  So a leaf is the XOR over the byte strings of all its entries, and
does not say which key and which timestamp belong together.
-/

namespace Theseon.AntiEntropy

open Lib HLC List

/-! ## The XOR of a list -/

/-- The XOR of the hashes of some byte strings. -/
def xorAll (words : List UInt64) : UInt64 :=
  words.foldr (· ^^^ ·) 0

@[simp] theorem xorAll_nil : xorAll [] = 0 :=
  rfl

@[simp] theorem xorAll_cons (w : UInt64) (words : List UInt64) :
    xorAll (w :: words) = w ^^^ xorAll words :=
  rfl

@[simp] theorem xorAll_append (xs ys : List UInt64) :
    xorAll (xs ++ ys) = xorAll xs ^^^ xorAll ys := by
  induction xs with
  | nil => simp
  | cons x xs ih => simp [ih, UInt64.xor_assoc]

theorem xorAll_perm {xs ys : List UInt64} (perm : xs.Perm ys) : xorAll xs = xorAll ys := by
  induction perm with
  | nil => rfl
  | cons x _ ih => rw [xorAll_cons, xorAll_cons, ih]
  | swap x y xs => simp [← UInt64.xor_assoc, UInt64.xor_comm]
  | trans _ _ first second => exact first.trans second

/-- Words that occur in pairs cancel. -/
theorem xorAll_eq_zero {xs : List Bytes} (h : Bytes → UInt64)
    (even : ∀ x, Even (xs.count x)) : xorAll (xs.map h) = 0 := by
  induction hlen : xs.length using Nat.strong_induction_on generalizing xs with
  | _ n ih =>
    cases xs with
    | nil => rfl
    | cons x xs =>
      have again : x ∈ xs := by
        by_contra once
        have even := even x
        simp [count_eq_zero.mpr once] at even
      have perm := perm_cons_erase again
      rw [map_cons, xorAll_cons, xorAll_perm (perm.map h), map_cons, xorAll_cons,
        ← UInt64.xor_assoc, UInt64.xor_self, UInt64.zero_xor]
      refine ih (xs.erase x).length ?_ (fun y => ?_) rfl
      · grind
      have evenY := even y
      rw [(perm.cons x).count_eq] at evenY
      grind [Nat.even_add_one]

theorem xorAll_indicator (xs : List Bytes) (s : Bytes) (v : UInt64) :
    xorAll (xs.map fun x => if x = s then v else 0) = if Even (xs.count s) then 0 else v := by
  induction xs with
  | nil => simp
  | cons x xs ih =>
    rw [map_cons, xorAll_cons, ih, count_cons]
    by_cases same : x = s
    · by_cases even : Even (xs.count s) <;> simp [same, even, Nat.even_add_one]
    · simp [same]

/-! ## The leaf of some entries -/

/-- The byte strings that are hashed for an entry. -/
def Entry.strings (e : Entry) : List Bytes :=
  [e.key, e.timestamp.encode.toOption.getD []]

/-- The XOR of the deletion bits. -/
def deletedParity (entries : List Entry) : UInt64 :=
  if Even (entries.countP Entry.deleted) then 0 else 1

theorem xorAll_entryHash (h : Bytes → UInt64) (entries : List Entry) :
    xorAll (entries.map (entryHash h)) =
      xorAll ((entries.flatMap Entry.strings).map h) ^^^ deletedParity entries := by
  induction entries with
  | nil => simp [deletedParity]
  | cons e entries ih =>
    have isHash : entryHash h e = xorAll (e.strings.map h) ^^^ if e.deleted then 1 else 0 := by
      rw [entryHash, Entry.strings]
      cases e.timestamp.encode <;> simp [Except.toOption]
    have parity : deletedParity (e :: entries) =
        (if e.deleted then 1 else 0) ^^^ deletedParity entries := by
      rw [deletedParity, deletedParity, countP_cons]
      by_cases even : Even (entries.countP Entry.deleted) <;> cases e.deleted <;>
        simp [even, Nat.even_add_one]
    rw [map_cons, xorAll_cons, ih, isHash, flatMap_cons, map_append, xorAll_append,
      parity]
    ac_rfl

namespace Tree

variable {t : Tree} {h : Bytes → UInt64}

theorem level_accumulateEntry (t : Tree) (e : Entry) (i : Nat) :
    (t.accumulateEntry h e).level i = if t.depth = i then
      (t.level i).modify (t.bucketFor h e.key) (· ^^^ entryHash h e) else t.level i := by
  simp only [level, accumulateEntry, getD_eq_getElem?_getD, getElem?_modify]
  split
  · cases t.levels[i]? <;> simp
  · simp

theorem numLeaves_accumulateEntry (t : Tree) (e : Entry) :
    (t.accumulateEntry h e).numLeaves = t.numLeaves := by
  have length := congrArg List.length (level_accumulateEntry (h := h) t e t.depth)
  rwa [if_pos rfl, length_modify] at length

/-- Entries of one bucket are mixed into its leaf. -/
theorem leafHash_foldl (some : 0 < t.numLeaves) {entries : List Entry} {bucket : Nat}
    (inBucket : ∀ e ∈ entries, t.bucketFor h e.key = bucket) :
    (entries.foldl (accumulateEntry h) t).leafHash bucket =
      t.leafHash bucket ^^^ xorAll (entries.map (entryHash h)) := by
  induction entries generalizing t with
  | nil => simp
  | cons e entries ih =>
    rcases forall_mem_cons.mp inBucket with ⟨rfl, rest⟩
    have sameLeaves := numLeaves_accumulateEntry (h := h) t e
    have inside : t.bucketFor h e.key < (t.level t.depth).length := Nat.mod_lt _ some
    have mixed : (t.accumulateEntry h e).leafHash (t.bucketFor h e.key) =
        t.leafHash (t.bucketFor h e.key) ^^^ entryHash h e := by
      have leaves := level_accumulateEntry (h := h) t e t.depth
      rw [if_pos rfl] at leaves
      rw [leafHash, leafHash, show (t.accumulateEntry h e).depth = t.depth from rfl, leaves]
      simp [getD_eq_getElem?_getD, inside]
    rw [foldl_cons, ih (sameLeaves ▸ some) fun other mem => ?_, mixed, map_cons, xorAll_cons,
      UInt64.xor_assoc]
    rw [bucketFor, sameLeaves]
    exact rest other mem

/-- The hash puts all keys into one bucket, and the leaf tells the entries apart. -/
def Separates (t : Tree) (first second : List Entry) (h : Bytes → UInt64) : Prop :=
  ∃ bucket, (∀ e ∈ first ++ second, t.bucketFor h e.key = bucket) ∧
    (first.foldl (accumulateEntry h) t).leafHash bucket ≠
      (second.foldl (accumulateEntry h) t).leafHash bucket

theorem separates_iff (some : 0 < t.numLeaves) {first second : List Entry} :
    t.Separates first second h ↔
      (∃ bucket, ∀ e ∈ first ++ second, t.bucketFor h e.key = bucket) ∧
      xorAll (((first ++ second).flatMap Entry.strings).map h) ≠
        deletedParity (first ++ second) := by
  rw [← exists_and_right]
  refine exists_congr fun bucket => and_congr_right fun inBucket => ?_
  rcases forall_mem_append.mp inBucket with ⟨inFirst, inSecond⟩
  rw [leafHash_foldl some inFirst, leafHash_foldl some inSecond, ne_eq, UInt64.xor_right_inj]
  have both := xorAll_entryHash h (first ++ second)
  rw [map_append, xorAll_append] at both
  rw [← UInt64.xor_eq_zero_iff, both, UInt64.xor_eq_zero_iff]

theorem new_numLeaves {fanout depth : Nat} (created : new fanout depth = .ok t) :
    2 ≤ t.numLeaves ∧ t.numLeaves < 2 ^ 63 := by
  rcases new_accepts created with ⟨wide, deep, bounded⟩
  rcases new_eq_ok created with ⟨rfl, rfl, shaped⟩
  rw [shaped.numLeaves_eq]
  exact ⟨wide.trans (Nat.le_self_pow deep.ne' _), bounded⟩

theorem not_separates_of_even (some : 0 < t.numLeaves) {first second : List Entry}
    (strings : ∀ s, Even (((first ++ second).flatMap Entry.strings).count s))
    (deleted : Even ((first ++ second).countP Entry.deleted)) : ¬ t.Separates first second h := by
  rw [separates_iff some, xorAll_eq_zero h strings, deletedParity, if_pos deleted]
  exact fun separates => separates.2 rfl

/-- A leaf can tell two sets of entries apart exactly if one of their byte strings, or
the deletion bit, occurs an odd number of times in both together. -/
theorem divergence_visible_iff {fanout depth : Nat} (created : new fanout depth = .ok t)
    (first second : List Entry) : (∃ h, t.Separates first second h) ↔
      (∃ s, ¬ Even (((first ++ second).flatMap Entry.strings).count s)) ∨
        ¬ Even ((first ++ second).countP Entry.deleted) := by
  rcases new_numLeaves created with ⟨two, bounded⟩
  have some : 0 < t.numLeaves := by omega
  constructor
  · rintro ⟨h, separates⟩
    by_contra even
    simp only [not_or, not_exists, not_not] at even
    exact not_separates_of_even some even.1 even.2 separates
  · intro odd
    by_cases string : ∃ s, ¬ Even (((first ++ second).flatMap Entry.strings).count s)
    · rcases string with ⟨s, string⟩
      -- the hash of the string is a multiple of the number of buckets
      have small : t.numLeaves < UInt64.size := bounded.trans (by decide)
      refine ⟨fun x => if x = s then UInt64.ofNat t.numLeaves else 0, (separates_iff some).mpr ?_⟩
      refine ⟨⟨0, fun e _ => ?_⟩, ?_⟩
      · rw [bucketFor]
        split
        · rw [UInt64.toNat_ofNat_of_lt' small, Nat.mod_self]
        · exact Nat.zero_mod _
      rw [xorAll_indicator, if_neg string, deletedParity]
      intro same
      have number := congrArg UInt64.toNat same
      rw [UInt64.toNat_ofNat_of_lt' small] at number
      split at number <;> simp at number <;> omega
    · have deleted := odd.resolve_left string
      simp only [not_exists, not_not] at string
      refine ⟨fun _ => 0, (separates_iff some).mpr ⟨⟨0, fun e _ => Nat.zero_mod _⟩, ?_⟩⟩
      rw [xorAll_eq_zero _ string, deletedParity, if_neg deleted]
      decide

/-! ## Two keys that swap their timestamps -/

def swapTree : Tree :=
  ⟨2, 1, [[0], [0, 0]]⟩

/-- The keys `a` and `b` with the given wall times. -/
def twoEntries (wallA wallB : Int64) : List Entry :=
  [⟨[97], ⟨wallA, 0, []⟩, false⟩, ⟨[98], ⟨wallB, 0, []⟩, false⟩]

/-- Two keys that swap their timestamps are not told apart by any hash. -/
theorem swapped_timestamps_hidden : new 2 1 = .ok swapTree ∧
    ((twoEntries 1 2).map Entry.key).Nodup ∧ ((twoEntries 2 1).map Entry.key).Nodup ∧
    (∃ e ∈ twoEntries 1 2, e ∉ twoEntries 2 1) ∧
    ∀ h, ¬ swapTree.Separates (twoEntries 1 2) (twoEntries 2 1) h := by
  refine ⟨rfl, by decide, by decide, by decide, fun h => ?_⟩
  apply not_separates_of_even (by decide)
  · intro s
    simp only [twoEntries, Entry.strings, cons_append, nil_append, flatMap_cons,
      flatMap_nil, count_cons, count_nil, Nat.even_iff]
    omega
  · decide

/-- A key that is missing on one side is told apart. -/
theorem missing_key_visible : ∃ h, swapTree.Separates (twoEntries 1 2) [] h := by
  refine (@divergence_visible_iff swapTree 2 1 rfl (twoEntries 1 2) []).mpr (.inl ⟨[97], ?_⟩)
  decide

end Tree

end Theseon.AntiEntropy
