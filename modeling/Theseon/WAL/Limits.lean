import Mathlib.Data.List.Forall2
import Theseon.WAL.Recover

/-!
# The limits of the write-ahead log

Whatever is decoded from a log is within the limits of its format, and it has been
read from no more bytes than its encoding takes.  So a record that is read back
whole was within the limits.
-/

namespace Theseon.WAL

open Lib KV List

@[simp]
theorem encodeEntry_length (entry : Entry) :
    (encodeEntry entry).length = entryHeader + entry.key.length + entry.data.length := by
  simp [encodeEntry, entryHeader]
  omega

theorem encodeRecord_length (entries : List Entry) :
    (encodeRecord entries).length = 10 + (entries.flatMap encodeEntry).length := by
  simp [encodeRecord, encodePayload, frameHeader]
  omega

/-! ## What is decoded -/

/-- A decoded entry fits its fields and takes up what it was read from, which is followed by
the tail. -/
theorem decodeEntry_eq_ok {rest tail : Bytes} {entry : Entry}
    (decoded : decodeEntry rest = .ok (entry, tail)) :
    entry.Fits ∧ rest.length = (encodeEntry entry).length + tail.length ∧ tail <:+ rest := by
  have seqLt := ofLittleEndian_take_lt (rest.drop 1) 8
  have keyLt := ofLittleEndian_take_lt (rest.drop 9) 2
  have valueLt := ofLittleEndian_take_lt (rest.drop 11) 4
  rw [decodeEntry] at decoded
  split at decoded
  · cases decoded
  rename_i long
  simp only at decoded
  split at decoded
  · cases decoded
  rename_i keyFits
  rw [length_drop] at keyFits
  split at decoded
  · split at decoded
    · cases decoded
    · rename_i valueFits
      cases decoded
      rw [length_drop, length_drop] at valueFits
      refine ⟨⟨?_, ?_, ?_⟩, ?_, ?_⟩
      · simp only [maxSeqNum]
        omega
      · simp only [length_take]
        omega
      · simp only [Entry.data, Value.new, Value.bytes, Bool.false_eq_true, if_false,
          Option.getD_some, length_take]
        omega
      · simp only [encodeEntry_length, Entry.data, Value.new, Value.bytes, Bool.false_eq_true,
          if_false, Option.getD_some, length_take, length_drop]
        omega
      · rw [drop_drop, drop_drop]
        exact drop_suffix _ _
  · split at decoded
    · cases decoded
      refine ⟨⟨?_, ?_, ?_⟩, ?_, ?_⟩
      · simp only [maxSeqNum]
        omega
      · simp only [length_take]
        omega
      · simp [Entry.data, Value.newTombstone]
      · simp only [encodeEntry_length, Entry.data, Value.newTombstone, if_true,
          length_take, length_drop, length_nil]
        omega
      · rw [drop_drop]
        exact drop_suffix _ _
    · cases decoded

variable {entries : List Entry}

theorem decodeEntries_eq_ok {count : Nat} {rest : Bytes}
    (decoded : decodeEntries count rest = .ok entries) :
    entries.length = count ∧ (∀ entry ∈ entries, entry.Fits) ∧
      (entries.flatMap encodeEntry).length ≤ rest.length := by
  induction count generalizing rest entries with
  | zero =>
    cases decoded
    exact ⟨rfl, (fun _ mem => nomatch mem), Nat.zero_le _⟩
  | succ count ih =>
    rw [decodeEntries] at decoded
    split at decoded
    · cases decoded
    rename_i entry tail first
    rcases map_eq_ok.mp decoded with ⟨others, later, rfl⟩
    rcases decodeEntry_eq_ok first with ⟨entryFits, size, _⟩
    rcases ih later with ⟨number, othersFit, othersSize⟩
    refine ⟨by rw [length_cons, number], ?_, ?_⟩
    · intro other mem
      rcases mem_cons.mp mem with rfl | isOther
      · exact entryFits
      · exact othersFit other isOther
    · rw [flatMap_cons, length_append]
      omega

theorem decodeRecord_eq_ok_iff {data : Bytes} {n : Nat} :
    decodeRecord data = .ok (entries, n) ↔ ∃ payloadLen, Framed data payloadLen ∧
      frameHeader + 2 ≤ data.length ∧ n = frameHeader + payloadLen ∧
      decodeEntries (ofLittleEndian ((data.drop frameHeader).take 2))
        ((data.drop (frameHeader + 2)).take (payloadLen - 2)) = .ok entries := by
  rw [decodeRecord]
  constructor
  · intro decoded
    split at decoded
    · cases decoded
    · cases decoded
    · rename_i payloadLen framed
      split at decoded
      · cases decoded
      rename_i long
      simp only at decoded
      rcases found : decodeEntries (ofLittleEndian ((data.drop frameHeader).take 2))
          ((data.drop (frameHeader + 2)).take (payloadLen - 2)) with err | others
      · rw [found] at decoded
        cases decoded
      rw [found] at decoded
      cases decoded
      exact ⟨payloadLen, unframe_eq_ok_iff.mp framed, not_lt.mp long, rfl, found⟩
  · rintro ⟨payloadLen, framed, long, rfl, found⟩
    rw [unframe_eq_ok_iff.mpr framed]
    simp only [if_neg (not_lt.mpr long), found]
    rfl

/-- A decoded record is within the limits, unless it is empty. -/
theorem decodeRecord_eq_ok {data : Bytes} {n : Nat}
    (decoded : decodeRecord data = .ok (entries, n)) :
    0 < n ∧ n ≤ data.length ∧
      (entries ≠ [] → Fits entries ∧ (encodeRecord entries).length ≤ n) := by
  rcases decodeRecord_eq_ok_iff.mp decoded with ⟨payloadLen, framed, _, rfl, found⟩
  have countLt := ofLittleEndian_take_lt (data.drop frameHeader) 2
  have lengthLt := ofLittleEndian_take_lt (data.drop 4) 4
  rw [framed.2.1] at lengthLt
  rcases decodeEntries_eq_ok found with ⟨number, fits, size⟩
  refine ⟨by simp [frameHeader], framed.1, ?_⟩
  intro nonempty
  -- an entry takes more than the two bytes of the count
  have some : 0 < (entries.flatMap encodeEntry).length := by
    rcases exists_cons_of_ne_nil nonempty with ⟨entry, rest, rfl⟩
    simp [entryHeader]
  have within : (entries.flatMap encodeEntry).length ≤ payloadLen - 2 := by
    apply size.trans
    rw [length_take]
    exact Nat.min_le_left _ _
  refine ⟨⟨by rw [number]; simpa using countLt, fits, ?_⟩, ?_⟩
  · simp only [encodePayload, length_append, littleEndian_length]
    omega
  · rw [encodeRecord_length, frameHeader]
    omega

/-! ## What is recovered -/

/-- What is recovered comes from records within the limits that fit into the
file. -/
theorem recover_eq_ok {data : Bytes} {recovered : List Entry}
    (done : recover data = .ok recovered) :
    ∃ records : List (List Entry), recovered = records.flatten ∧
      (∀ record ∈ records, record ≠ [] ∧ Fits record) ∧
      (records.flatMap encodeRecord).length ≤ data.length := by
  have loop : ∀ (fuel : Nat) (data : Bytes) (start final : List Entry),
      codec.replay (fun entries record => entries ++ record) fuel data start = .ok final →
      ∃ records : List (List Entry), final = start ++ records.flatten ∧
        (∀ record ∈ records, record ≠ [] ∧ Fits record) ∧
        (records.flatMap encodeRecord).length ≤ data.length := by
    intro fuel
    induction fuel with
    | zero =>
      intro data start final read
      refine ⟨[], ?_, (fun _ mem => nomatch mem), Nat.zero_le _⟩
      cases data with
      | nil =>
        cases read
        simp
      | cons byte rest =>
        cases read
        simp
    | succ fuel ih =>
      intro data start final read
      cases data with
      | nil =>
        cases read
        exact ⟨[], by simp, (fun _ mem => nomatch mem), Nat.zero_le _⟩
      | cons byte rest =>
        rw [Codec.replay] at read
        split at read
        · split at read
          · cases read
            exact ⟨[], by simp, (fun _ mem => nomatch mem), Nat.zero_le _⟩
          · cases read
        rename_i record n decoded
        rcases decodeRecord_eq_ok decoded with ⟨_, within, whole⟩
        rcases ih _ _ _ read with ⟨records, isFinal, fits, size⟩
        rw [length_drop] at size
        by_cases empty : record = []
        · refine ⟨records, ?_, fits, by omega⟩
          rw [isFinal, empty, append_nil]
        rcases whole empty with ⟨recordFits, recordSize⟩
        refine ⟨record :: records, ?_, ?_, ?_⟩
        · rw [isFinal, flatten_cons, append_assoc]
        · intro other mem
          rcases mem_cons.mp mem with rfl | later
          · exact ⟨empty, recordFits⟩
          · exact fits other later
        · rw [flatMap_cons, length_append]
          omega
  rcases loop _ _ _ _ done with ⟨records, isFinal, fits, size⟩
  exact ⟨records, by simpa using isFinal, fits, size⟩

/-- The loop reads on from what it has collected. -/
theorem replay_append (fuel : Nat) (data : Bytes) (start : List Entry) :
    codec.replay (fun entries record => entries ++ record) fuel data start =
      (codec.replay (fun entries record => entries ++ record) fuel data []).map (start ++ ·) := by
  induction fuel generalizing data start with
  | zero => cases data <;> simp [Codec.replay, Except.map]
  | succ fuel ih =>
    cases data with
    | nil => simp [Codec.replay, Except.map]
    | cons byte rest =>
      rw [Codec.replay, Codec.replay]
      cases codec.decode (byte :: rest) with
      | error err =>
        simp only
        split
        · simp [Except.map]
        · rfl
      | ok decoded =>
        simp only
        rw [ih _ (start ++ decoded.1), ih _ ([] ++ decoded.1)]
        cases codec.replay _ fuel ((byte :: rest).drop decoded.2) [] with
        | error err => rfl
        | ok later => simp [Except.map]

/-- Fuel beyond the length of the data makes no difference. -/
theorem replay_fuel {fuel more : Nat} {data : Bytes} (enough : data.length ≤ fuel)
    (also : data.length ≤ more) (start : List Entry) :
    codec.replay (fun entries record => entries ++ record) fuel data start =
      codec.replay (fun entries record => entries ++ record) more data start := by
  induction fuel generalizing more data start with
  | zero =>
    rw [length_eq_zero_iff.mp (Nat.le_zero.mp enough)]
    cases more <;> rfl
  | succ fuel ih =>
    cases data with
    | nil => cases more <;> rfl
    | cons byte rest =>
      cases more with
      | zero => simp at also
      | succ more =>
        rw [Codec.replay, Codec.replay]
        cases decoded : codec.decode (byte :: rest) with
        | error err => rfl
        | ok result =>
          have progress := (decodeRecord_eq_ok decoded).1
          rw [length_cons] at enough also
          apply ih
          · rw [length_drop, length_cons]
            omega
          · rw [length_drop, length_cons]
            omega

/-- Records within the limits are read, and then what follows them. -/
theorem recover_append {records : List (List Entry)} (fits : ∀ record ∈ records, Fits record)
    (data : Bytes) :
    recover (records.flatMap encodeRecord ++ data) =
      (recover data).map (records.flatten.map Entry.readBack ++ ·) := by
  induction records with
  | nil =>
    simp only [flatMap_nil, nil_append, flatten_nil, map_nil]
    cases recover data <;> rfl
  | cons record rest ih =>
    have restFits : ∀ other ∈ rest, Fits other := fun other mem =>
      fits other (mem_cons_of_mem _ mem)
    have size : (encodeRecord record ++ (rest.flatMap encodeRecord ++ data)).length =
        (9 + (record.flatMap encodeEntry).length +
          (rest.flatMap encodeRecord ++ data).length) + 1 := by
      rw [length_append, encodeRecord_length]
      omega
    have first := codec_lawful.replay_cons (fits record mem_cons_self)
      (fun entries later => entries ++ later)
      (9 + (record.flatMap encodeEntry).length + (rest.flatMap encodeRecord ++ data).length)
      (rest.flatMap encodeRecord ++ data) []
    have others := ih restFits
    rw [recover] at others
    rw [flatMap_cons, append_assoc, recover, size]
    rw [show codec.encode record = encodeRecord record from rfl] at first
    rw [first, replay_append, replay_fuel (by omega) le_rfl, others]
    cases recover data with
    | error err => rfl
    | ok later => simp [Except.map]

/-! ## Records that are read back whole -/

/-- The recovered entry is the same operation: a nil value may come back as an
empty one. -/
structure Entry.Same (entry recovered : Entry) : Prop where
  seq : recovered.seq = entry.seq
  key : recovered.key = entry.key
  bytes : recovered.value.bytes = entry.value.bytes
  tombstone : recovered.value.tombstone = entry.value.tombstone

theorem Entry.Same.data {entry recovered : Entry} (same : entry.Same recovered) :
    recovered.data = entry.data := by
  rw [Entry.data, Entry.data, same.tombstone, same.bytes]

theorem Entry.Same.fits {entry recovered : Entry} (same : entry.Same recovered)
    (fits : recovered.Fits) : entry.Fits :=
  ⟨same.seq ▸ fits.seq, same.key ▸ fits.key, same.data ▸ fits.data⟩

variable {entries recovered : List Entry}

theorem length_flatMap_same (same : List.Forall₂ Entry.Same entries recovered) :
    (recovered.flatMap encodeEntry).length = (entries.flatMap encodeEntry).length := by
  induction same with
  | nil => rfl
  | cons first _ ih =>
    simp only [flatMap_cons, length_append, ih, encodeEntry_length, first.key, first.data]

theorem Fits.of_same (fits : Fits recovered) (same : List.Forall₂ Entry.Same entries recovered) :
    Fits entries := by
  constructor
  · rw [same.length_eq]
    exact fits.count
  · have all := fits.entry
    clear fits
    induction same with
    | nil => exact all
    | cons first _ ih =>
      rw [forall_mem_cons] at all ⊢
      exact ⟨first.fits all.1, ih all.2⟩
  · have size := fits.payload
    simp only [encodePayload, length_append, littleEndian_length] at size ⊢
    rwa [← length_flatMap_same same]

theorem length_flatMap_encodeRecord (records : List (List Entry)) :
    (records.flatMap encodeRecord).length =
      10 * records.length + (records.flatten.flatMap encodeEntry).length := by
  induction records with
  | nil => rfl
  | cons record rest ih =>
    rw [flatMap_cons, length_append, ih, encodeRecord_length, flatten_cons,
      flatMap_append, length_append, length_cons]
    omega

/-- A record that is read back whole, by whatever way, was within the limits. -/
theorem fits_of_recover (nonempty : entries ≠ [])
    (done : recover (encodeRecord entries) = .ok recovered)
    (same : List.Forall₂ Entry.Same entries recovered) : Fits entries := by
  rcases recover_eq_ok done with ⟨records, rfl, fits, size⟩
  rw [length_flatMap_encodeRecord, encodeRecord_length, length_flatMap_same same] at size
  -- there is only room for one record
  have atMostOne : records.length ≤ 1 := by omega
  match records, atMostOne with
  | [], _ =>
    cases same
    exact absurd rfl nonempty
  | [record], _ =>
    rw [flatten_singleton] at same
    exact (fits record mem_cons_self).2.of_same same

theorem Entry.same_readBack (entry : Entry)
    (clean : entry.value.tombstone = true → entry.value.bytes = []) :
    entry.Same entry.readBack := by
  constructor
  · rfl
  · rfl
  · cases kind : entry.value.tombstone with
    | true =>
      rw [clean kind]
      simp [Entry.readBack, Value.stored, kind, Value.newTombstone, Value.bytes]
    | false => simp [Entry.readBack, Value.stored, kind, Value.new, Value.bytes]
  · cases kind : entry.value.tombstone with
    | true => simp [Entry.readBack, Value.stored, kind, Value.newTombstone]
    | false => simp [Entry.readBack, Value.stored, kind, Value.new]

/-! ## A log that is cut -/

/-- The data of an entry is shorter than the payload of its record. -/
theorem fits_of_payload (count : entries.length ≤ 65535)
    (fields : ∀ entry ∈ entries, entry.seq ≤ maxSeqNum ∧ entry.key.length ≤ 65535)
    (payload : (encodePayload entries).length < 2 ^ 32) : Fits entries := by
  constructor
  · exact Nat.lt_succ_of_le count
  · intro entry mem
    constructor
    · exact (fields entry mem).1
    · exact Nat.lt_succ_of_le (fields entry mem).2
    · have encoded : encodeEntry entry ∈ entries.map encodeEntry := mem_map_of_mem mem
      have part : (encodeEntry entry).length ≤ (entries.flatMap encodeEntry).length :=
        (infix_of_mem_flatten encoded).length_le
      rw [encodePayload, length_append] at payload
      rw [encodeEntry_length] at part
      omega
  · exact payload

/-- A log that is cut at any byte is recovered without an error: each batch that lies
wholly within the cut is there, in order, and nothing of the others. -/
theorem recover_cut_batches (records : List (List Entry))
    (bounded : ∀ record ∈ records, record.length ≤ 65535 ∧
      (∀ entry ∈ record, entry.seq ≤ maxSeqNum ∧ entry.key.length ≤ 65535) ∧
      (encodePayload record).length < 2 ^ 32) (n : Nat) :
    recover ((records.flatMap encodeRecord).take n) =
      .ok ((recordsWithin codec records n).flatten.map Entry.readBack) := by
  apply recover_take
  intro record mem
  rcases bounded record mem with ⟨count, fields, payload⟩
  exact fits_of_payload count fields payload

/-- Two batches, the second one cut in its last byte. -/
theorem recover_cut_second_batch :
    recover (([[⟨1, [97], .new (some [49])⟩],
        [⟨2, [98], .newTombstone⟩, ⟨3, [99], .new none⟩]].flatMap encodeRecord).take 67) =
          .ok [⟨1, [97], .new (some [49])⟩] := by
  rw [recover_cut_batches _ (by decide +kernel)]
  decide +kernel

end Theseon.WAL
