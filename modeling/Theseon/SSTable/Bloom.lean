import Theseon.Lib.Bytes

/-!
# The Bloom filter of an SSTable

The filter is a byte array whose last byte is the number of probes.  Every key
sets the bits at `k` positions derived from its hash, and a lookup tests the
same positions, so a key that was added is never rejected.
-/

namespace Theseon.SSTable

open Lib List

def bitsPerKey : Nat := 10

def bloomK (bitsPerKey : Nat) : Nat :=
  let k := bitsPerKey * 69 / 100
  if k < 1 then 1 else if 30 < k then 30 else k

/-- The multiplier of `BloomHash`. -/
def bloomMultiplier : UInt32 := 0xc6a4a793

/-- The loop of `BloomHash` over four bytes at a time, and its tail switch. -/
def bloomHashFrom (h : UInt32) : Bytes → UInt32
  | a :: b :: c :: d :: rest =>
    let h := h + (a.toUInt32 ||| b.toUInt32 <<< 8 ||| c.toUInt32 <<< 16 ||| d.toUInt32 <<< 24)
    let h := h * bloomMultiplier
    bloomHashFrom (h ^^^ (h >>> 16)) rest
  | [a, b, c] =>
    let h := (h + c.toUInt32 <<< 16 + b.toUInt32 <<< 8 + a.toUInt32) * bloomMultiplier
    h ^^^ (h >>> 24)
  | [a, b] =>
    let h := (h + b.toUInt32 <<< 8 + a.toUInt32) * bloomMultiplier
    h ^^^ (h >>> 24)
  | [a] =>
    let h := (h + a.toUInt32) * bloomMultiplier
    h ^^^ (h >>> 24)
  | [] => h

def bloomHash (data : Bytes) : UInt32 :=
  bloomHashFrom (0xbc9f1d34 ^^^ (UInt32.ofNat data.length * bloomMultiplier)) data

/-- The hash values probed for one key: `h`, `h + delta`, `h + 2 * delta`, … -/
def probesFrom (delta : UInt32) : Nat → UInt32 → List UInt32
  | 0, _ => []
  | k + 1, h => h :: probesFrom delta k (h + delta)

/-- The probe sequence of a key hash, with `delta` the hash rotated right by 17. -/
def probes (k : Nat) (h : UInt32) : List UInt32 :=
  probesFrom ((h >>> 17) ||| (h <<< 15)) k h

/-- The mask of a bit position within its byte. -/
def bitMask (bitPos : UInt32) : UInt8 :=
  1 <<< (bitPos % 8).toUInt8

/-- `filter[bitPos/8] |= 1 << (bitPos % 8)`. -/
def setBit (filter : Bytes) (bitPos : UInt32) : Bytes :=
  filter.modify (bitPos / 8).toNat (· ||| bitMask bitPos)

/-- `filter[bitPos/8] & (1 << (bitPos % 8)) != 0`. -/
def testBit (filter : Bytes) (bitPos : UInt32) : Bool :=
  filter.getD (bitPos / 8).toNat 0 &&& bitMask bitPos ≠ 0

/-- The number of bytes that hold bits in a filter for `n` keys. -/
def filterBytes (n : Nat) : Nat :=
  (max 64 (n * bitsPerKey) + 7) / 8

def buildBloomFilter (hashes : List UInt32) : Bytes :=
  if hashes = [] then []
  else
    let numBytes := filterBytes hashes.length
    let numBits := UInt32.ofNat (numBytes * 8)
    let k := bloomK bitsPerKey
    let filter := List.replicate numBytes 0 ++ [UInt8.ofNat k]
    hashes.foldl
      (fun filter h => (probes k h).foldl (fun filter h => setBit filter (h % numBits)) filter)
      filter

def bloomMayContain (filter key : Bytes) : Bool :=
  if filter.length < 2 then true
  else
    let k := (filter.getLastD 0).toNat
    if k < 1 ∨ 30 < k then true
    else
      let numBits := UInt32.ofNat ((filter.length - 1) * 8)
      (probes k (bloomHash key)).all fun h => testBit filter (h % numBits)

/-! ## No false negatives -/

theorem or_and_distrib (x y mask : UInt8) :
    (x ||| y) &&& mask = (x &&& mask) ||| (y &&& mask) := by
  apply UInt8.eq_of_toBitVec_eq
  ext i
  simp [Bool.and_or_distrib_right]

theorem bitMask_ne_zero (bitPos : UInt32) : bitMask bitPos ≠ 0 := by
  have masks : ∀ i : Nat, i < 8 → ((1 : UInt8) <<< UInt8.ofNat i) ≠ 0 := by decide
  have small : (bitPos % 8).toNat < 8 := by
    rw [UInt32.toNat_mod]
    exact Nat.mod_lt _ (by decide)
  have mask := masks _ small
  rwa [show UInt8.ofNat (bitPos % 8).toNat = (bitPos % 8).toUInt8 from rfl] at mask

@[simp]
theorem length_setBit (filter : Bytes) (bitPos : UInt32) :
    (setBit filter bitPos).length = filter.length := by
  simp [setBit]

theorem getElem?_setBit (filter : Bytes) (bitPos : UInt32) (i : Nat) :
    (setBit filter bitPos)[i]? =
      (filter[i]?).map fun byte =>
        if (bitPos / 8).toNat = i then byte ||| bitMask bitPos else byte := by
  rw [setBit, getElem?_modify]
  rfl

theorem testBit_eq (filter : Bytes) (bitPos : UInt32) :
    testBit filter bitPos ↔ ∃ byte, filter[(bitPos / 8).toNat]? = some byte ∧
      byte &&& bitMask bitPos ≠ 0 := by
  rw [testBit, getD_eq_getElem?_getD, decide_eq_true_eq]
  cases filter[(bitPos / 8).toNat]? with
  | none => simp
  | some byte => simp

theorem testBit_setBit_self {filter : Bytes} {bitPos : UInt32}
    (inRange : (bitPos / 8).toNat < filter.length) : testBit (setBit filter bitPos) bitPos := by
  refine (testBit_eq _ _).mpr ⟨filter[(bitPos / 8).toNat] ||| bitMask bitPos, ?_, ?_⟩
  · rw [getElem?_setBit, getElem?_eq_getElem inRange, Option.map_some, if_pos rfl]
  · rw [or_and_distrib, UInt8.and_self, ne_eq, UInt8.or_eq_zero_iff]
    exact fun both => bitMask_ne_zero bitPos both.2

/-- Setting a bit clears no other bit. -/
theorem testBit_setBit_of_testBit {filter : Bytes} {bitPos other : UInt32}
    (set : testBit filter other) : testBit (setBit filter bitPos) other := by
  obtain ⟨byte, found, nonzero⟩ := (testBit_eq _ _).mp set
  refine (testBit_eq _ _).mpr ⟨_, by rw [getElem?_setBit, found]; rfl, ?_⟩
  split
  · rw [or_and_distrib, ne_eq, UInt8.or_eq_zero_iff]
    exact fun both => nonzero both.1
  · exact nonzero

section Fold

variable (numBits : UInt32)

/-- The bits of one key. -/
def addProbes (filter : Bytes) (hs : List UInt32) : Bytes :=
  hs.foldl (fun filter h => setBit filter (h % numBits)) filter

@[simp]
theorem length_addProbes (filter : Bytes) (hs : List UInt32) :
    (addProbes numBits filter hs).length = filter.length := by
  induction hs generalizing filter with
  | nil => rfl
  | cons h hs ih => exact (ih _).trans (length_setBit _ _)

variable {filter : Bytes}

theorem testBit_addProbes_of_testBit {other : UInt32} (hs : List UInt32)
    (set : testBit filter other) : testBit (addProbes numBits filter hs) other := by
  induction hs generalizing filter with
  | nil => exact set
  | cons h hs ih => exact ih (testBit_setBit_of_testBit set)

theorem testBit_addProbes_of_mem {hs : List UInt32} {h : UInt32} (mem : h ∈ hs)
    (inRange : ((h % numBits) / 8).toNat < filter.length) :
    testBit (addProbes numBits filter hs) (h % numBits) := by
  induction hs generalizing filter with
  | nil => simp at mem
  | cons first rest ih =>
    rcases mem_cons.mp mem with rfl | mem
    · exact testBit_addProbes_of_testBit numBits rest (testBit_setBit_self inRange)
    · exact ih mem (by simpa using inRange)

/-- Probes stay clear of the byte at `n` when all positions lie below it. -/
theorem addProbes_getElem? {n : Nat} (inRange : ∀ h : UInt32, ((h % numBits) / 8).toNat < n)
    (filter : Bytes) (hs : List UInt32) :
    (addProbes numBits filter hs)[n]? = filter[n]? := by
  induction hs generalizing filter with
  | nil => rfl
  | cons h hs ih =>
    refine (ih (setBit filter (h % numBits))).trans ?_
    simp only [getElem?_setBit, if_neg (inRange h).ne]
    exact congrFun Option.map_id filter[n]?

/-- The bits of all keys. -/
def addHashes (k : Nat) (filter : Bytes) (hashes : List UInt32) : Bytes :=
  hashes.foldl (fun filter h => addProbes numBits filter (probes k h)) filter

/-- The probes of all keys, one after the other. -/
theorem addHashes_eq (k : Nat) (filter : Bytes) (hashes : List UInt32) :
    addHashes numBits k filter hashes = addProbes numBits filter (hashes.flatMap (probes k)) := by
  rw [addProbes, foldl_flatMap]
  rfl

end Fold

/-- Every probe position lies in the bytes that hold bits. -/
theorem probe_inRange {numBytes : Nat} (pos : 0 < numBytes) (h : UInt32) :
    ((h % UInt32.ofNat (numBytes * 8)) / 8).toNat < numBytes := by
  have bound := h.toNat_lt
  have eight : (8 : UInt32).toNat = 8 := rfl
  rw [UInt32.toNat_div, UInt32.toNat_mod, UInt32.toNat_ofNat', eight]
  rcases Nat.eq_zero_or_pos (numBytes * 8 % 2 ^ 32) with wraps | positive
  · rw [wraps, Nat.mod_zero]
    have large := Nat.le_of_dvd (by omega) (Nat.dvd_of_mod_eq_zero wraps)
    omega
  have small := Nat.mod_lt h.toNat positive
  have := Nat.mod_le (numBytes * 8) (2 ^ 32)
  omega

variable {hashes : List UInt32}

theorem buildBloomFilter_eq (nonempty : hashes ≠ []) :
    buildBloomFilter hashes =
      addHashes (UInt32.ofNat (filterBytes hashes.length * 8)) (bloomK bitsPerKey)
        (List.replicate (filterBytes hashes.length) 0 ++ [UInt8.ofNat (bloomK bitsPerKey)])
        hashes := by
  rw [buildBloomFilter, if_neg nonempty]
  rfl

theorem length_buildBloomFilter (nonempty : hashes ≠ []) :
    (buildBloomFilter hashes).length = filterBytes hashes.length + 1 := by
  simp [buildBloomFilter_eq nonempty, addHashes_eq]

/-- A key whose hash was added is never rejected. -/
theorem bloomMayContain_of_mem {key : Bytes} (mem : bloomHash key ∈ hashes) :
    bloomMayContain (buildBloomFilter hashes) key := by
  have nonempty : hashes ≠ [] := ne_nil_of_mem mem
  have pos : 0 < filterBytes hashes.length := by
    simp only [filterBytes]
    omega
  have filterEq := buildBloomFilter_eq nonempty
  have lengthEq := length_buildBloomFilter nonempty
  have lastByte : (buildBloomFilter hashes).getLastD 0 = UInt8.ofNat (bloomK bitsPerKey) := by
    have kept := addProbes_getElem? _ (probe_inRange pos)
      (List.replicate (filterBytes hashes.length) 0 ++ [UInt8.ofNat (bloomK bitsPerKey)])
      (hashes.flatMap (probes (bloomK bitsPerKey)))
    rw [← addHashes_eq, ← filterEq] at kept
    rw [getLastD_eq_getLast?, getLast?_eq_getElem?, lengthEq, Nat.add_sub_cancel, kept]
    simp
  have probeCount : (UInt8.ofNat (bloomK bitsPerKey)).toNat = bloomK bitsPerKey := by decide
  have inLimits : ¬ (bloomK bitsPerKey < 1 ∨ 30 < bloomK bitsPerKey) := by decide
  rw [bloomMayContain, if_neg (by omega)]
  simp only [lastByte, probeCount, if_neg inLimits, lengthEq, Nat.add_sub_cancel, all_eq_true]
  intro probe probed
  rw [filterEq, addHashes_eq]
  refine testBit_addProbes_of_mem _ (mem_flatMap.mpr ⟨_, mem, probed⟩) ?_
  have := probe_inRange pos probe
  simp only [length_append, length_replicate, length_singleton]
  omega

end Theseon.SSTable
