import Theseon.Lib.Bytes

/-!
# Append-only logs of records

A log is written record by record and read back by a loop that decodes records
from the front and stops at what looks like a torn tail.  A write may be cut
after any number of bytes.

Reading returns every completely written record as long as nothing is written
behind a cut that lies strictly inside a record.
-/

namespace Theseon.Lib

open List

universe u v w

variable {ρ : Type u} {ε : Type v} {σ : Type w}

/-- How records are written and read. -/
structure Codec (ρ : Type u) (ε : Type v) where
  encode : ρ → Bytes
  /-- The record at the front of the data and the number of its bytes. -/
  decode : Bytes → Except ε (ρ × Nat)
  /-- The error is taken as a torn tail. -/
  isTail : ε → Bool

namespace Codec

/-- The loop that reads a log from the front, with `fuel` a bound on the number
of records. -/
def replay (codec : Codec ρ ε) (apply : σ → ρ → σ) : Nat → Bytes → σ → Except ε σ
  | _, [], state => .ok state
  | 0, _ :: _, state => .ok state
  | fuel + 1, byte :: rest, state =>
    match codec.decode (byte :: rest) with
    | .error err => if codec.isTail err then .ok state else .error err
    | .ok (record, n) => replay codec apply fuel ((byte :: rest).drop n) (apply state record)

/-- Records that satisfy `Fits` are read back as `canon` shows them, and a
proper prefix of one is taken as a torn tail. -/
structure Lawful (codec : Codec ρ ε) (Fits : ρ → Prop) (canon : ρ → ρ) : Prop where
  encode_ne_nil : ∀ record, codec.encode record ≠ []
  decode_encode : ∀ record, Fits record → ∀ rest,
    codec.decode (codec.encode record ++ rest) =
      .ok (canon record, (codec.encode record).length)
  decode_cut : ∀ record, Fits record → ∀ data, data <+: codec.encode record →
    data ≠ codec.encode record → ∃ err, codec.decode data = .error err ∧ codec.isTail err = true

end Codec

/-- A write of one record of which `reached` bytes get into the file. -/
structure Attempt (ρ : Type u) where
  record : ρ
  reached : Nat
  deriving DecidableEq, Repr

namespace Attempt

variable (codec : Codec ρ ε)

/-- The bytes that get into the file. -/
def written (attempt : Attempt ρ) : Bytes :=
  (codec.encode attempt.record).take attempt.reached

/-- The whole record gets into the file. -/
def Complete (attempt : Attempt ρ) : Prop :=
  (codec.encode attempt.record).length ≤ attempt.reached

instance (attempt : Attempt ρ) : Decidable (attempt.Complete codec) :=
  inferInstanceAs (Decidable (_ ≤ _))

/-- The write is cut strictly inside the record. -/
def Torn (attempt : Attempt ρ) : Prop :=
  0 < attempt.reached ∧ attempt.reached < (codec.encode attempt.record).length

instance (attempt : Attempt ρ) : Decidable (attempt.Torn codec) :=
  inferInstanceAs (Decidable (_ ∧ _))

/-- The attempt to write the whole record, which succeeds. -/
def whole (record : ρ) : Attempt ρ :=
  ⟨record, (codec.encode record).length⟩

variable {codec}

theorem written_of_complete {attempt : Attempt ρ} (complete : attempt.Complete codec) :
    attempt.written codec = codec.encode attempt.record :=
  take_of_length_le complete

theorem whole_complete (record : ρ) : (whole codec record).Complete codec :=
  le_refl _

end Attempt

/-- The log after a sequence of attempts. -/
def logFile (codec : Codec ρ ε) (attempts : List (Attempt ρ)) : Bytes :=
  attempts.flatMap (Attempt.written codec)

/-- The records that were completely written. -/
def survivors (codec : Codec ρ ε) (attempts : List (Attempt ρ)) : List ρ :=
  (attempts.filter fun attempt => attempt.Complete codec).map Attempt.record

/-- Nothing is written behind a torn record. -/
def NothingAfterTear (codec : Codec ρ ε) (attempts : List (Attempt ρ)) : Prop :=
  attempts.Pairwise fun earlier later => earlier.Torn codec → later.reached = 0

instance (codec : Codec ρ ε) (attempts : List (Attempt ρ)) :
    Decidable (NothingAfterTear codec attempts) :=
  inferInstanceAs (Decidable (attempts.Pairwise _))

/-- A sequence of records of which `reached` bytes get into the file, as one
attempt for each record that is begun. -/
def cutAttempts (codec : Codec ρ ε) : List ρ → Nat → List (Attempt ρ)
  | [], _ => []
  | record :: rest, reached =>
    ⟨record, reached⟩ ::
      if (⟨record, reached⟩ : Attempt ρ).Complete codec then
        cutAttempts codec rest (reached - (codec.encode record).length)
      else []

/-- The records that lie wholly within the first `n` bytes of their log. -/
def recordsWithin (codec : Codec ρ ε) : List ρ → Nat → List ρ
  | [], _ => []
  | record :: rest, n =>
    if (codec.encode record).length ≤ n then
      record :: recordsWithin codec rest (n - (codec.encode record).length)
    else []

section

variable {codec : Codec ρ ε}

@[simp]
theorem survivors_append (first second : List (Attempt ρ)) :
    survivors codec (first ++ second) = survivors codec first ++ survivors codec second := by
  simp [survivors]

@[simp]
theorem logFile_append (first second : List (Attempt ρ)) :
    logFile codec (first ++ second) = logFile codec first ++ logFile codec second := by
  simp [logFile]

theorem survivors_cons_of_complete {attempt : Attempt ρ} (complete : attempt.Complete codec)
    (rest : List (Attempt ρ)) :
    survivors codec (attempt :: rest) = attempt.record :: survivors codec rest := by
  simp [survivors, complete]

theorem survivors_cons_of_not_complete {attempt : Attempt ρ} (cut : ¬ attempt.Complete codec)
    (rest : List (Attempt ρ)) : survivors codec (attempt :: rest) = survivors codec rest := by
  simp [survivors, cut]

theorem logFile_cutAttempts (records : List ρ) (reached : Nat) :
    logFile codec (cutAttempts codec records reached) =
      (records.flatMap codec.encode).take reached := by
  induction records generalizing reached with
  | nil => simp [cutAttempts, logFile]
  | cons record rest ih =>
    rw [cutAttempts, flatMap_cons, take_append]
    split
    · rw [← ih]
      rfl
    rename_i cut
    have short : reached < (codec.encode record).length := not_le.mp cut
    rw [Nat.sub_eq_zero_of_le short.le, take_zero, append_nil]
    simp [logFile, Attempt.written]

/-- The records of a cut sequence that were completely written are its first
ones. -/
theorem survivors_cutAttempts (records : List ρ) (reached : Nat) :
    ∃ n, survivors codec (cutAttempts codec records reached) = records.take n := by
  induction records generalizing reached with
  | nil => exact ⟨0, rfl⟩
  | cons record rest ih =>
    rw [cutAttempts]
    split
    · rename_i complete
      rcases ih (reached - (codec.encode record).length) with ⟨n, kept⟩
      refine ⟨n + 1, ?_⟩
      rw [survivors_cons_of_complete complete, kept, take_succ_cons]
    · rename_i cut
      exact ⟨0, survivors_cons_of_not_complete cut []⟩

variable {records : List ρ} {attempts : List (Attempt ρ)} {fuel : Nat}

/-- A sequence that is not cut is completely written. -/
theorem survivors_cutAttempts_of_le {reached : Nat}
    (whole : (records.flatMap codec.encode).length ≤ reached) :
    survivors codec (cutAttempts codec records reached) = records := by
  induction records generalizing reached with
  | nil => rfl
  | cons record rest ih =>
    rw [flatMap_cons, length_append] at whole
    have complete : (⟨record, reached⟩ : Attempt ρ).Complete codec :=
      le_trans (Nat.le_add_right _ _) whole
    rw [cutAttempts, if_pos complete, survivors_cons_of_complete complete, ih (by omega)]

/-- Attempts that reach no byte of the file leave no trace. -/
theorem logFile_of_unreached (unreached : ∀ attempt ∈ attempts, attempt.reached = 0) :
    logFile codec attempts = [] := by
  simp only [logFile, flatMap_eq_nil_iff]
  intro attempt mem
  simp [Attempt.written, unreached attempt mem]

variable {Fits : ρ → Prop} {canon : ρ → ρ}

section

variable (lawful : codec.Lawful Fits canon)

include lawful

theorem survivors_of_unreached (unreached : ∀ attempt ∈ attempts, attempt.reached = 0) :
    survivors codec attempts = [] := by
  simp only [survivors, map_eq_nil_iff, filter_eq_nil_iff, decide_eq_true_eq]
  intro attempt mem complete
  rw [Attempt.Complete, unreached attempt mem, Nat.le_zero, length_eq_zero_iff] at complete
  exact lawful.encode_ne_nil _ complete

/-- One record at the front of a log is read and applied. -/
theorem Codec.Lawful.replay_cons {record : ρ} (fits : Fits record) (apply : σ → ρ → σ) (fuel : Nat)
    (rest : Bytes) (state : σ) :
    codec.replay apply (fuel + 1) (codec.encode record ++ rest) state =
      codec.replay apply fuel rest (apply state (canon record)) := by
  have decoded := lawful.decode_encode record fits rest
  have dropped : (codec.encode record ++ rest).drop (codec.encode record).length = rest :=
    drop_left
  cases data : codec.encode record ++ rest with
  | nil => exact absurd (append_eq_nil_iff.mp data).1 (lawful.encode_ne_nil record)
  | cons byte bytes =>
    rw [data] at decoded dropped
    rw [Codec.replay, decoded]
    simp only [dropped]

/-- A torn record at the end of a log is skipped. -/
theorem Codec.Lawful.replay_torn {record : ρ} (fits : Fits record) (apply : σ → ρ → σ) (fuel : Nat)
    {data : Bytes} (isPrefix : data <+: codec.encode record) (proper : data ≠ codec.encode record)
    (state : σ) : codec.replay apply fuel data state = .ok state := by
  obtain ⟨err, decoded, tail⟩ := lawful.decode_cut record fits data isPrefix proper
  cases data with
  | nil => cases fuel <;> rfl
  | cons byte rest =>
    cases fuel with
    | zero => rfl
    | succ fuel => rw [Codec.replay, decoded]; simp [tail]

/-- Reading a log applies the completely written records in order, if nothing
was written behind a torn one. -/
theorem Codec.Lawful.replay_logFile (apply : σ → ρ → σ)
    (fits : ∀ attempt ∈ attempts, Fits attempt.record) (clean : NothingAfterTear codec attempts)
    (enough : (logFile codec attempts).length ≤ fuel) (state : σ) :
    codec.replay apply fuel (logFile codec attempts) state =
      .ok (((survivors codec attempts).map canon).foldl apply state) := by
  induction attempts generalizing fuel state with
  | nil => cases fuel <;> rfl
  | cons attempt rest ih =>
    obtain ⟨behind, restClean⟩ := pairwise_cons.mp clean
    have attemptFits := fits attempt (by simp)
    have restFits : ∀ later ∈ rest, Fits later.record := fun later mem =>
      fits later (mem_cons_of_mem _ mem)
    have file : logFile codec (attempt :: rest) =
        attempt.written codec ++ logFile codec rest := by
      simp [logFile]
    rw [file] at enough ⊢
    by_cases complete : attempt.Complete codec
    · have nonempty := length_pos_iff.mpr (lawful.encode_ne_nil attempt.record)
      rw [Attempt.written_of_complete complete] at enough ⊢
      rw [length_append] at enough
      obtain ⟨fuel, rfl⟩ : ∃ n, fuel = n + 1 := ⟨fuel - 1, by omega⟩
      rw [lawful.replay_cons attemptFits, ih restFits restClean (by omega),
        survivors_cons_of_complete complete]
      rfl
    rw [survivors_cons_of_not_complete complete]
    by_cases unreached : attempt.reached = 0
    · have nothing : attempt.written codec = [] := by
        simp [Attempt.written, unreached]
      rw [nothing, nil_append] at enough ⊢
      exact ih restFits restClean enough state
    -- the tear: whatever follows reached no byte of the file
    have torn : attempt.Torn codec := ⟨Nat.pos_of_ne_zero unreached, not_le.mp complete⟩
    have unreachedRest : ∀ later ∈ rest, later.reached = 0 := fun later mem =>
      behind later mem torn
    rw [logFile_of_unreached unreachedRest, append_nil,
      survivors_of_unreached lawful unreachedRest]
    refine lawful.replay_torn attemptFits apply fuel ( take_prefix _ _) ?_ state
    intro same
    have := congrArg List.length same
    simp only [length_take] at this
    have := torn.2
    omega

end

/-! ## A log that is cut at any byte -/

theorem mem_of_mem_recordsWithin {n : Nat} {record : ρ}
    (mem : record ∈ recordsWithin codec records n) : record ∈ records := by
  induction records generalizing n with
  | nil => cases mem
  | cons first rest ih =>
    rw [recordsWithin] at mem
    split at mem
    · rcases mem_cons.mp mem with rfl | later
      · exact mem_cons_self
      · exact mem_cons_of_mem _ (ih later)
    · cases mem

theorem recordsWithin_of_length_le {n : Nat} (whole : (records.flatMap codec.encode).length ≤ n) :
    recordsWithin codec records n = records := by
  induction records generalizing n with
  | nil => rfl
  | cons record rest ih =>
    rw [flatMap_cons, length_append] at whole
    rw [recordsWithin, if_pos ((Nat.le_add_right _ _).trans whole),
      ih (Nat.le_sub_of_add_le' whole)]

/-- Reading a log that is cut after `n` bytes applies the records that lie wholly
within them. -/
theorem Codec.Lawful.replay_take (lawful : codec.Lawful Fits canon) (apply : σ → ρ → σ)
    (fits : ∀ record ∈ records, Fits record) {n : Nat}
    (enough : ((records.flatMap codec.encode).take n).length ≤ fuel) (state : σ) :
    codec.replay apply fuel ((records.flatMap codec.encode).take n) state =
      .ok (((recordsWithin codec records n).map canon).foldl apply state) := by
  induction records generalizing n fuel state with
  | nil =>
    rw [flatMap_nil, take_nil]
    cases fuel with
    | zero => rfl
    | succ fuel => rfl
  | cons record rest ih =>
    have recordFits := fits record mem_cons_self
    have restFits : ∀ later ∈ rest, Fits later := fun later mem =>
      fits later (mem_cons_of_mem _ mem)
    rw [flatMap_cons, take_append] at enough ⊢
    rw [recordsWithin]
    split
    · rename_i within
      have nonempty := length_pos_iff.mpr (lawful.encode_ne_nil record)
      rw [take_of_length_le within] at enough ⊢
      rw [length_append] at enough
      cases fuel with
      | zero => exact absurd nonempty (by omega)
      | succ fuel =>
        rw [lawful.replay_cons recordFits, ih restFits (by omega)]
        rfl
    rename_i cut
    have short : n < (codec.encode record).length := not_le.mp cut
    rw [Nat.sub_eq_zero_of_le short.le, take_zero, append_nil]
    apply lawful.replay_torn recordFits apply fuel ( take_prefix _ _)
    intro same
    have lengths := congrArg List.length same
    rw [length_take, Nat.min_eq_left short.le] at lengths
    exact short.ne lengths

end

end Theseon.Lib
