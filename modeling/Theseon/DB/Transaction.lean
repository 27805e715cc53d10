import Mathlib.Data.Finset.Max
import Theseon.DB.FlushReads

/-!
# Scans of a transaction

A transaction buffers its writes and gives them the sequence number after its
snapshot.  `Transaction.Scan` merges the buffer with all versions of the engine
and shows what is visible at that number.  Another writer may have drawn the same
number, and its version is then shown as well.
-/

namespace Theseon

open Std (ExtTreeMap)
open Lib KV SSTable Compaction Iterator List

structure WriteBufferIterator where
  entries : List Entry
  pos : Nat
  deriving DecidableEq, Repr

/-- The two iterators that the scan of a transaction merges. -/
inductive TransactionIterator where
  | buffer (it : WriteBufferIterator)
  | raw (it : MergeIterator ScanIterator ReadError)

namespace TransactionIterator

instance : Iter TransactionIterator ReadError where
  key
    | buffer it => (it.entries[it.pos]?).elim [] Entry.key
    | raw it => Iter.key it
  value
    | buffer it => (it.entries[it.pos]?).bind fun entry => (shown entry).2
    | raw it => Iter.value it
  next
    | buffer it => buffer (if it.pos < it.entries.length then { it with pos := it.pos + 1 } else it)
    | raw it => raw (Iter.next it)
  isValid
    | buffer it => it.pos < it.entries.length
    | raw it => Iter.isValid it
  err
    | buffer _ => none
    | raw it => Iter.err it
  invalid_of_err
    | buffer _, failed => absurd rfl failed
    | raw it, failed => Iter.invalid_of_err it failed

theorem buffer_drains {entries rest : List Entry} {pos : Nat} (isRest : entries.drop pos = rest) :
    Drains (buffer ⟨entries, pos⟩) (rest.map shown) (none : Option ReadError) := by
  induction rest generalizing pos with
  | nil =>
    have ended : entries.length ≤ pos := drop_eq_nil_iff.mp isRest
    exact Drains.stop (decide_eq_false (not_lt.mpr ended))
  | cons entry rest ih =>
    have inRange : pos < entries.length := by
      by_contra ended
      rw [drop_eq_nil_of_le (not_lt.mp ended)] at isRest
      cases isRest
    rw [drop_eq_getElem_cons inRange, cons.injEq] at isRest
    have current : entries[pos]? = some entry := by
      rw [getElem?_eq_getElem inRange, isRest.1]
    have first : shown entry =
        (Iter.key (buffer ⟨entries, pos⟩), Iter.value (buffer ⟨entries, pos⟩)) := by
      change _ = ((entries[pos]?).elim [] Entry.key,
        (entries[pos]?).bind fun entry => (shown entry).2)
      rw [current]
      rfl
    rw [map_cons, first]
    apply Drains.step (decide_eq_true inRange)
    change Drains (buffer (if pos < entries.length then ⟨entries, pos + 1⟩ else ⟨entries, pos⟩)) _ _
    rw [if_pos inRange]
    exact ih isRest.2

theorem raw_drains {it : MergeIterator ScanIterator ReadError} {out : List (Bytes × Option Bytes)}
    {final : Option ReadError} (drains : Drains it out final) : Drains (raw it) out final := by
  induction drains with
  | @stop it invalid => exact @Drains.stop TransactionIterator ReadError _ (raw it) invalid
  | @step it out final valid _ ih =>
    exact @Drains.step TransactionIterator ReadError _ (raw it) out final valid ih

end TransactionIterator

/-- `Transaction`, with the sequence number of its snapshot. -/
structure Transaction where
  snapshotSeq : Nat
  writes : ExtTreeMap Bytes Value
  closed : Bool

namespace Transaction

/-- `BeginTransaction`. -/
def begin (db : DB) : Transaction where
  snapshotSeq := db.getSnapshot.seq
  writes := ∅
  closed := false

/-- `Put`; `none` is the error of a closed transaction. -/
def put (tx : Transaction) (key : Bytes) (value : Option Bytes) : Option Transaction :=
  if tx.closed then none else some { tx with writes := tx.writes.insert key (.new value) }

def delete (tx : Transaction) (key : Bytes) : Option Transaction :=
  if tx.closed then none else some { tx with writes := tx.writes.insert key .newTombstone }

def get (tx : Transaction) (db : DB) (key : Bytes) : Option Value :=
  match tx.writes[key]? with
  | some value => if value.tombstone then none else some value
  | none => Snapshot.get ⟨db, tx.snapshotSeq⟩ key

/-- The sequence number of the buffered writes. -/
def bufSeq (tx : Transaction) : Nat :=
  addUint64 tx.snapshotSeq 1

/-- The buffered writes as versions.  The map is read in an unspecified order and
then sorted. -/
def bufferEntries (tx : Transaction) (sorter : Sorter Entry.key) : List Entry :=
  sorter.sort (tx.writes.toList.map fun write => ⟨makeInternalKey write.1 tx.bufSeq, write.2⟩)

def mergedIterator (tx : Transaction) (sorter : Sorter Entry.key)
    (rawIter : MergeIterator ScanIterator ReadError) (rounds : Nat) :
    SnapshotIterator (MergeIterator TransactionIterator ReadError) ReadError :=
  .new (.new [.buffer ⟨tx.bufferEntries sorter, 0⟩, .raw rawIter]) tx.bufSeq rounds

def scan (tx : Transaction) (sorter : Sorter Entry.key) (db : DB) :
    SnapshotIterator (MergeIterator TransactionIterator ReadError) ReadError :=
  tx.mergedIterator sorter db.rawScan ((tx.bufferEntries sorter).length + db.entries.length + 1)

def scanRange (tx : Transaction) (sorter : Sorter Entry.key) (db : DB) (start stop : Option Bytes) :
    Option (SnapshotIterator (MergeIterator TransactionIterator ReadError) ReadError) :=
  (db.rawScanRange start stop).map fun raw =>
    tx.mergedIterator sorter raw ((tx.bufferEntries sorter).length + db.entries.length + 1)

variable {tx : Transaction} {sorter : Sorter Entry.key} {db : DB}

theorem bufSeq_le (tx : Transaction) : tx.bufSeq ≤ maxSeqNum := by
  have bound : tx.bufSeq < 2 ^ 64 := Nat.mod_lt _ (by decide)
  rw [maxSeqNum]
  omega

variable {entry : Entry}

theorem mem_bufferEntries :
    entry ∈ tx.bufferEntries sorter ↔
      ∃ user value, tx.writes[user]? = some value ∧
        entry = ⟨makeInternalKey user tx.bufSeq, value⟩ := by
  rw [bufferEntries, sorter.mem_sort, mem_map]
  constructor
  · rintro ⟨⟨user, value⟩, mem, rfl⟩
    exact ⟨user, value, ExtTreeMap.mem_toList_iff_getElem?_eq_some.mp mem, rfl⟩
  · rintro ⟨user, value, found, rfl⟩
    exact ⟨⟨user, value⟩, ExtTreeMap.mem_toList_iff_getElem?_eq_some.mpr found, rfl⟩

theorem buffered_spec (mem : entry ∈ tx.bufferEntries sorter) :
    entry.user ∈ tx.writes ∧ entry.Long := by
  rcases mem_bufferEntries.mp mem with ⟨user, value, found, rfl⟩
  rw [Entry.user, userKey_makeInternalKey, Entry.Long, makeInternalKey_length]
  exact ⟨mem_iff_get?.mpr ⟨value, found⟩, Nat.le_add_left _ _⟩

/-- What the merge of the buffer and the engine yields. -/
def merged (tx : Transaction) (sorter : Sorter Entry.key) (db : DB) : List (Bytes × Option Bytes) :=
  mergePairs [(tx.bufferEntries sorter).map shown, db.scanned]

theorem mem_merged {pair : Bytes × Option Bytes} :
    pair ∈ tx.merged sorter db ↔
      ∃ entry ∈ tx.bufferEntries sorter ++ db.entries, pair = shown entry := by
  rw [merged, mem_mergePairs]
  constructor
  · rintro ⟨out, outMem, pairMem⟩
    rcases mem_cons.mp outMem with rfl | isScanned
    · rcases mem_map.mp pairMem with ⟨entry, entryMem, rfl⟩
      exact ⟨entry, mem_append_left _ entryMem, rfl⟩
    rw [mem_singleton.mp isScanned, DB.mem_scanned] at pairMem
    rcases pairMem with ⟨entry, entryMem, isShown⟩
    exact ⟨entry, mem_append_right _ entryMem, isShown⟩
  · rintro ⟨entry, entryMem, rfl⟩
    rcases mem_append.mp entryMem with buffered | held
    · exact ⟨_, mem_cons_self, mem_map_of_mem buffered⟩
    · exact ⟨_, mem_cons_of_mem _ mem_cons_self, DB.mem_scanned.mpr ⟨entry, held, rfl⟩⟩

/-- The merge with the buffer comes to its end and yields what is visible at the
number of the buffered writes. -/
theorem mergedIterator_drains {rawIter : MergeIterator ScanIterator ReadError}
    {out : List (Bytes × Option Bytes)} (drains : Drains rawIter out none) (sorted : KeySorted out)
    {rounds : Nat} (enough : out.length ≤ rounds) :
    Drains (tx.mergedIterator sorter rawIter ((tx.bufferEntries sorter).length + rounds + 1))
      (visible tx.bufSeq none (mergePairs [(tx.bufferEntries sorter).map shown, out])) none := by
  apply SnapshotIterator.new_drains
  · apply MergeIterator.new_drains_mergePairs
    · refine List.Forall₂.cons ?_ (List.Forall₂.cons ?_ List.Forall₂.nil)
      · exact TransactionIterator.buffer_drains drop_zero
      · exact TransactionIterator.raw_drains drains
    · intro pairs pairsMem
      rcases mem_cons.mp pairsMem with rfl | isOut
      · rw [KeySorted, pairwise_map]
        exact sorter.sorted _
      · rw [mem_singleton.mp isOut]
        exact sorted
  rw [mergePairs, (sortByKey_perm _).length_eq]
  simp only [flatten_cons, flatten_nil, append_nil, length_append,
    length_map]
  omega

/-- The scan of a transaction comes to its end and yields what is visible at the
number of the buffered writes. -/
theorem scan_drains (sound : ∀ source ∈ db.sources, source.Sound) :
    Drains (tx.scan sorter db) (visible tx.bufSeq none (tx.merged sorter db)) none := by
  apply mergedIterator_drains (DB.rawScan_drains sound) (mergePairs_sorted _)
  rw [DB.length_scanned]

/-! ## What the scan shows -/

/-- The user keys of the buffer and of the engine. -/
def Uses (tx : Transaction) (db : DB) (user : Bytes) : Prop :=
  user ∈ tx.writes ∨ ∃ entry ∈ db.entries, entry.user = user

/-- A buffered write, as the scan shows it. -/
def Buffered (tx : Transaction) (pair : Bytes × Option Bytes) : Prop :=
  ∃ user value, tx.writes[user]? = some value ∧
    pair = shown ⟨makeInternalKey user tx.bufSeq, value⟩

/-- The newest version up to a bound of a user key that is not in the buffer. -/
def NewestOutside (tx : Transaction) (db : DB) (bound : Nat) (pair : Bytes × Option Bytes) : Prop :=
  ∃ entry ∈ db.entries, entry.user ∉ tx.writes ∧ entry.seq ≤ bound ∧
    (∀ other ∈ db.entries, other.user = entry.user → other.seq ≤ bound → other.seq ≤ entry.seq) ∧
    pair = shown entry

/-- The user keys are not empty and no prefixes of each other. -/
structure PlainKeys (tx : Transaction) (db : DB) : Prop where
  nonempty : ∀ user, tx.Uses db user → user ≠ []
  unrelated : ∀ first second, tx.Uses db first → tx.Uses db second → first ≠ second →
    Unrelated first second

section

variable (long : ∀ entry ∈ db.entries, entry.Long)

include long in
theorem long_of_mem (mem : entry ∈ tx.bufferEntries sorter ++ db.entries) :
    entry.Long := by
  rcases mem_append.mp mem with buffered | held
  · exact (buffered_spec buffered).2
  · exact long entry held

theorem uses_of_mem (mem : entry ∈ tx.bufferEntries sorter ++ db.entries) :
    tx.Uses db entry.user := by
  rcases mem_append.mp mem with buffered | held
  · exact .inl (buffered_spec buffered).1
  · exact .inr ⟨entry, held, rfl⟩

include long in
theorem userSorted_of_subset (plain : tx.PlainKeys db) {pairs : List (Bytes × Option Bytes)}
    (sorted : KeySorted pairs) (subset : pairs ⊆ tx.merged sorter db) : UserSorted pairs := by
  constructor
  · apply sorted.imp_of_mem
    intro first second firstMem secondMem ordered
    rcases mem_merged.mp (subset firstMem) with ⟨a, aMem, rfl⟩
    rcases mem_merged.mp (subset secondMem) with ⟨b, bMem, rfl⟩
    exact Entry.user_le_of_key_le (long_of_mem long aMem) (long_of_mem long bMem)
      (plain.unrelated _ _ (uses_of_mem aMem) (uses_of_mem bMem)) ordered
  · intro pair pairMem
    rcases mem_merged.mp (subset pairMem) with ⟨entry, entryMem, rfl⟩
    exact plain.nonempty _ (uses_of_mem entryMem)

include long in
theorem userSorted_merged (plain : tx.PlainKeys db) : UserSorted (tx.merged sorter db) :=
  userSorted_of_subset long plain (mergePairs_sorted _) fun _ mem => mem

variable {pair : Bytes × Option Bytes}

section

variable (plain : tx.PlainKeys db) (mem : pair ∈ visible tx.bufSeq none (tx.merged sorter db))

include plain mem

include long in
/-- A visible pair is the newest one of its user key, and stands first among its
equals. -/
theorem newest_of_mem_visible :
    (∀ other ∈ tx.merged sorter db, userKey other.1 = userKey pair.1 →
        seqNum other.1 ≤ tx.bufSeq → pair.1 ≤ other.1) ∧
      ∃ rest, (tx.merged sorter db).filter (fun other => other.1 = pair.1) = pair :: rest := by
  have sorted : KeySorted (tx.merged sorter db) := mergePairs_sorted _
  rcases first_of_mem_visible (userSorted_merged long plain) (by simp) mem with
    ⟨before, behind, split, hidden⟩
  have shownHere := seq_le_of_mem_visible mem
  rw [split] at sorted ⊢
  constructor
  · intro other otherMem sameUser below
    rcases mem_append.mp otherMem with earlier | later
    · exact absurd below (not_le.mpr (hidden other earlier sameUser))
    rcases mem_cons.mp later with rfl | further
    · exact le_refl _
    · exact (pairwise_cons.mp (pairwise_append.mp sorted).2.1).1 other further
  · refine ⟨behind.filter fun other => other.1 = pair.1, ?_⟩
    have none : before.filter (fun other => other.1 = pair.1) = [] := by
      rw [filter_eq_nil_iff]
      intro other otherMem same
      have sameKey : other.1 = pair.1 := of_decide_eq_true same
      have above := hidden other otherMem (by rw [sameKey])
      rw [sameKey] at above
      exact absurd shownHere (not_le.mpr above)
    rw [filter_append, none, nil_append, filter_cons_of_pos (by simp)]

include long in
/-- A pair of a user key in the buffer comes from the buffer. -/
theorem buffered_of_mem_visible (written : userKey pair.1 ∈ tx.writes) : tx.Buffered pair := by
  rcases mem_iff_get?.mp written with ⟨value, found⟩
  rcases newest_of_mem_visible long plain mem with ⟨least, rest, firstEqual⟩
  rcases mem_merged.mp ((visible_sublist _ _ _).subset mem) with ⟨entry, entryMem, rfl⟩
  -- the buffered write has the largest number that is visible
  have inBuffer : (⟨makeInternalKey entry.user tx.bufSeq, value⟩ : Entry) ∈
      tx.bufferEntries sorter := mem_bufferEntries.mpr ⟨entry.user, value, found, rfl⟩
  have below : entry.key ≤ makeInternalKey entry.user tx.bufSeq :=
    least _ (mem_merged.mpr ⟨_, mem_append_left _ inBuffer, rfl⟩)
      (userKey_makeInternalKey _ _) (seqNum_makeInternalKey tx.bufSeq_le).le
  have isKey : entry.key = makeInternalKey entry.user tx.bufSeq := by
    apply le_antisymm below
    have shownHere : entry.seq ≤ tx.bufSeq := seq_le_of_mem_visible mem
    rw [← (long_of_mem long entryMem).key_eq]
    exact (makeInternalKey_le_iff tx.bufSeq_le entry.seq_le).mpr shownHere
  have stable : (tx.merged sorter db).filter (fun other => other.1 = (shown entry).1) =
      [(tx.bufferEntries sorter).map shown, db.scanned].flatten.filter
        fun other => other.1 = (shown entry).1 := by
    apply filter_sortByKey
    intro first second isFirst isSecond
    rw [of_decide_eq_true isFirst, of_decide_eq_true isSecond]
  rw [stable, flatten_cons, filter_append] at firstEqual
  have fromBuffer : shown entry ∈ (tx.bufferEntries sorter).map shown := by
    rcases append_eq_cons_iff.mp firstEqual with ⟨noEqual, _⟩ | ⟨others, isFirst, _⟩
    · exact absurd (decide_eq_true isKey.symm)
        (filter_eq_nil_iff.mp noEqual _ (mem_map_of_mem inBuffer))
    · have firstMem := @mem_cons_self _ (shown entry) others
      rw [← isFirst] at firstMem
      exact (mem_filter.mp firstMem).1
  rcases mem_map.mp fromBuffer with ⟨buffered, bufferedMem, isShown⟩
  rcases mem_bufferEntries.mp bufferedMem with ⟨user, value, found, rfl⟩
  exact ⟨user, value, found, isShown.symm⟩

include long in
theorem newestOutside_of_mem_visible (unwritten : userKey pair.1 ∉ tx.writes) :
    tx.NewestOutside db tx.bufSeq pair := by
  rcases newest_of_mem_visible long plain mem with ⟨least, _⟩
  rcases mem_merged.mp ((visible_sublist _ _ _).subset mem) with ⟨entry, entryMem, rfl⟩
  have held : entry ∈ db.entries := by
    rcases mem_append.mp entryMem with buffered | held
    · exact absurd (buffered_spec buffered).1 unwritten
    · exact held
  refine ⟨entry, held, unwritten, seq_le_of_mem_visible mem, ?_, rfl⟩
  intro other otherMem sameUser below
  exact Entry.seq_le_of_key_le (long entry held) (long other otherMem) sameUser.symm
    (least _ (mem_merged.mpr ⟨other, mem_append_right _ otherMem, rfl⟩) sameUser below)

end

include long in
/-- The scan shows the buffered writes and, of the other user keys, the newest
versions up to the number of the buffered writes. -/
theorem mem_visible_iff (plain : tx.PlainKeys db) (single : db.KeysShowOne) :
    pair ∈ visible tx.bufSeq none (tx.merged sorter db) ↔
      tx.Buffered pair ∨ tx.NewestOutside db tx.bufSeq pair := by
  have split : ∀ {pair}, pair ∈ visible tx.bufSeq none (tx.merged sorter db) →
      tx.Buffered pair ∧ userKey pair.1 ∈ tx.writes ∨
        tx.NewestOutside db tx.bufSeq pair ∧ userKey pair.1 ∉ tx.writes := by
    intro pair mem
    by_cases written : userKey pair.1 ∈ tx.writes
    · exact .inl ⟨buffered_of_mem_visible long plain mem written, written⟩
    · exact .inr ⟨newestOutside_of_mem_visible long plain mem written, written⟩
  have shownUser : ∀ {pair}, pair ∈ tx.merged sorter db → seqNum pair.1 ≤ tx.bufSeq →
      ∃ other ∈ visible tx.bufSeq none (tx.merged sorter db), userKey other.1 = userKey pair.1 :=
    fun mem below => exists_visible (userSorted_merged long plain) mem below nofun
  constructor
  · intro mem
    rcases split mem with ⟨buffered, _⟩ | ⟨outside, _⟩
    · exact .inl buffered
    · exact .inr outside
  · rintro (⟨user, value, found, rfl⟩ | ⟨entry, entryMem, unwritten, below, isNewest, rfl⟩)
    · have inBuffer : (⟨makeInternalKey user tx.bufSeq, value⟩ : Entry) ∈
          tx.bufferEntries sorter := mem_bufferEntries.mpr ⟨user, value, found, rfl⟩
      have userEq : userKey (shown ⟨makeInternalKey user tx.bufSeq, value⟩).1 = user :=
        userKey_makeInternalKey _ _
      rcases shownUser (mem_merged.mpr ⟨_, mem_append_left _ inBuffer, rfl⟩)
          (seqNum_makeInternalKey tx.bufSeq_le).le with ⟨other, otherMem, sameUser⟩
      rw [userEq] at sameUser
      rcases split otherMem with ⟨⟨user', value', found', rfl⟩, _⟩ | ⟨_, unwritten⟩
      · rw [shown, userKey_makeInternalKey] at sameUser
        subst sameUser
        rw [found'] at found
        cases found
        exact otherMem
      · rw [sameUser] at unwritten
        exact absurd (mem_iff_get?.mpr ⟨value, found⟩) unwritten
    · rcases shownUser (mem_merged.mpr ⟨entry, mem_append_right _ entryMem, rfl⟩) below with
        ⟨other, otherMem, sameUser⟩
      rcases split otherMem with ⟨_, written⟩ | ⟨⟨found, foundMem, _, foundBelow, newest, rfl⟩, _⟩
      · rw [sameUser] at written
        exact absurd written unwritten
      have sameSeq : found.seq = entry.seq :=
        le_antisymm (isNewest found foundMem sameUser foundBelow)
          (newest entry entryMem sameUser.symm below)
      have sameKey : found.key = entry.key := by
        rw [← (long found foundMem).key_eq, ← (long entry entryMem).key_eq, sameSeq]
        exact congrArg (makeInternalKey · entry.seq) sameUser
      rw [← single found foundMem entry entryMem sameKey]
      exact otherMem

end

/-- The scan yields the overlay of the buffered writes over the newest versions
of the snapshot, once per user key and in the order of the user keys. -/
structure ScansOverlay (tx : Transaction) (db : DB) (out : List (Bytes × Option Bytes)) : Prop where
  ascending : out.Pairwise fun first second => userKey first.1 < userKey second.1
  exact : ∀ pair, pair ∈ out ↔ tx.Buffered pair ∨ tx.NewestOutside db tx.snapshotSeq pair

/-- No version of a user key outside the buffer has a number between the snapshot
and the number of the buffered writes. -/
def BoundsAgree (tx : Transaction) (db : DB) : Prop :=
  ∀ entry ∈ db.entries, entry.user ∉ tx.writes →
    (entry.seq ≤ tx.bufSeq ↔ entry.seq ≤ tx.snapshotSeq)

/-- Of the versions of a user key up to a bound, one has the largest number. -/
theorem exists_newestOutside {bound : Nat} (mem : entry ∈ db.entries)
    (unwritten : entry.user ∉ tx.writes) (below : entry.seq ≤ bound) :
    ∃ newest ∈ db.entries, newest.user = entry.user ∧ entry.seq ≤ newest.seq ∧
      tx.NewestOutside db bound (shown newest) := by
  have someVersion : (db.entries.filter fun other =>
      other.user = entry.user ∧ other.seq ≤ bound).toFinset.Nonempty :=
    ⟨entry, by simp [mem, below]⟩
  rcases Finset.exists_max_image _ Entry.seq someVersion with ⟨newest, newestMem, isNewest⟩
  simp only [mem_toFinset, mem_filter, decide_eq_true_eq] at newestMem isNewest
  rcases newestMem with ⟨held, sameUser, newestBelow⟩
  refine ⟨newest, held, sameUser, isNewest entry ⟨mem, rfl, below⟩, newest, held, ?_, newestBelow,
    ?_, rfl⟩
  · rw [sameUser]
    exact unwritten
  · intro other otherMem otherUser otherBelow
    exact isNewest other ⟨otherMem, otherUser.trans sameUser, otherBelow⟩

/-- The scan yields the overlay exactly when the two bounds agree on all versions
outside the buffer. -/
theorem scansOverlay_iff (long : ∀ entry ∈ db.entries, entry.Long) (plain : tx.PlainKeys db)
    (single : db.KeysShowOne) :
    tx.ScansOverlay db (visible tx.bufSeq none (tx.merged sorter db)) ↔ tx.BoundsAgree db := by
  have ascending := (@visible_ascending tx.bufSeq none _
    (@userSorted_merged tx sorter db long plain) (by simp)).1
  constructor
  · rintro ⟨_, exact⟩ entry entryMem unwritten
    constructor
    · intro below
      rcases exists_newestOutside entryMem unwritten below with
        ⟨newest, newestMem, sameUser, above, outside⟩
      -- it is shown, so it must belong to the snapshot
      rcases (exact _).mp ((mem_visible_iff long plain single).mpr (.inr outside)) with
        ⟨user, value, found, isShown⟩ | ⟨other, _, _, otherBelow, _, isShown⟩
      · have isUser : newest.user = user := by
          have keys : newest.key = makeInternalKey user tx.bufSeq := congrArg Prod.fst isShown
          rw [Entry.user, keys, userKey_makeInternalKey]
        rw [← sameUser, isUser] at unwritten
        exact absurd (mem_iff_get?.mpr ⟨value, found⟩) unwritten
      have keys : newest.key = other.key := congrArg Prod.fst isShown
      have sameSeq : newest.seq = other.seq := congrArg seqNum keys
      omega
    · intro below
      rcases exists_newestOutside entryMem unwritten below with
        ⟨newest, newestMem, sameUser, above, outside⟩
      have shownHere := seq_le_of_mem_visible ((exact _).mpr (.inr outside))
      exact above.trans shownHere
  · intro agree
    refine ⟨ascending, fun pair => (mem_visible_iff long plain single).trans ?_⟩
    apply or_congr_right
    refine exists_congr fun entry => and_congr_right fun entryMem =>
      and_congr_right fun unwritten => and_congr (agree entry entryMem unwritten)
        (and_congr_left fun _ => forall₂_congr fun other otherMem => ?_)
    exact forall_congr' fun sameUser =>
      imp_congr_left (agree other otherMem (by rwa [sameUser]))

/-- It is enough to look at a list that holds all user keys. -/
theorem plain_of_known {users : List Bytes} (known : ∀ user, tx.Uses db user → user ∈ users)
    (plain : ∀ first ∈ users, first ≠ [] ∧
      ∀ second ∈ users, first ≠ second → Unrelated first second) : tx.PlainKeys db := by
  constructor
  · exact fun user isUser => (plain user (known user isUser)).1
  · exact fun first second isFirst isSecond =>
      (plain first (known first isFirst)).2 second (known second isSecond)

/-- In every state that writes, flushes and compactions lead to, the scan of a
transaction comes to its end, and it yields the overlay over the snapshot exactly
when no other writer's version outside the buffer lies between the two bounds. -/
theorem scan_overlay_iff {opts : Options} {e : Engine}
    (reached : Reached (Engine.step opts) Engine.CountsOn (Engine.start opts) e)
    (tx : Transaction) (sorter : Sorter Entry.key) (plain : tx.PlainKeys e.db) :
    (∃ out, Drains (tx.scan sorter e.db) out none ∧ tx.ScansOverlay e.db out) ↔
      tx.BoundsAgree e.db := by
  have scannable := Engine.scannable_of_reached reached
  have drains := @scan_drains tx sorter e.db scannable.sound
  rw [← @scansOverlay_iff tx sorter e.db scannable.long plain
    (Engine.keysShowOne_of_reached reached)]
  constructor
  · rintro ⟨out, drains', overlay⟩
    rw [← (drains'.unique drains).1]
    exact overlay
  · exact fun overlay => ⟨_, drains, overlay⟩

instance (tx : Transaction) (db : DB) : Decidable (tx.BoundsAgree db) := by
  unfold BoundsAgree
  infer_instance

/-- A transaction that began after the first write and has put `"3"` under
`"c"`. -/
def secondSnapshot : Transaction where
  snapshotSeq := 1
  writes := (∅ : ExtTreeMap Bytes Value).insert [99] (.new (some [51]))
  closed := false

theorem secondSnapshot_uses {users : List Bytes} (buffered : [99] ∈ users)
    (held : ∀ entry ∈ db.entries, entry.user ∈ users) :
    ∀ user, secondSnapshot.Uses db user → user ∈ users := by
  rintro user (written | ⟨entry, entryMem, rfl⟩)
  · rcases mem_insert_key.mp written with rfl | empty
    · exact buffered
    · exact absurd empty ExtTreeMap.not_mem_empty
  · exact held entry entryMem

/-- `Put("a", "1")`, then another writer's put after the snapshot. -/
def writeAround (other : Bytes) : List Action :=
  [.write [.put [97] (some [49])], .write [.put other (some [50])]]

/-- The scan shows the other writer's `"b"`, although its number is above the
snapshot. -/
theorem laterPut_scanned :
    ∃ e out, runAllowed (Engine.step defaultOptions) Engine.CountsOn (Engine.start defaultOptions)
        (writeAround [98]) = some e ∧
      Drains (secondSnapshot.scan (.insertion _) e.db) out none ∧
      (makeInternalKey [98] 2, some [50]) ∈ out ∧ secondSnapshot.snapshotSeq < 2 := by
  have evaluated : ∃ e ∈ runAllowed (Engine.step defaultOptions) Engine.CountsOn
      (Engine.start defaultOptions) (writeAround [98]), (makeInternalKey [98] 2, some [50]) ∈
        visible secondSnapshot.bufSeq none (secondSnapshot.merged (.insertion _) e.db) := by
    decide +kernel
  rcases evaluated with ⟨e, ran, shows⟩
  have scannable := Engine.scannable_of_reached (Reached.start.runAllowed ran)
  exact ⟨e, _, ran, scan_drains scannable.sound, shows, by decide⟩

/-- The other writer's put to a user key of the buffer stays out of sight. -/
theorem laterPut_of_buffered_hidden :
    ∃ e out, Reached (Engine.step defaultOptions) Engine.CountsOn (Engine.start defaultOptions) e ∧
      e.db.nextSeq = 2 ∧ Drains (secondSnapshot.scan (.insertion _) e.db) out none ∧
      secondSnapshot.ScansOverlay e.db out := by
  have evaluated : ∃ e ∈ runAllowed (Engine.step defaultOptions) Engine.CountsOn
      (Engine.start defaultOptions) (writeAround [99]), e.db.nextSeq = 2 ∧
        secondSnapshot.BoundsAgree e.db ∧ ∀ entry ∈ e.db.entries, entry.user ∈ [[97], [99]] := by
    decide +kernel
  rcases Reached.of_evaluated evaluated with ⟨e, reached, counter, agree, users⟩
  have plain : secondSnapshot.PlainKeys e.db :=
    plain_of_known (secondSnapshot_uses (by decide) users) (by decide)
  rcases (scan_overlay_iff reached secondSnapshot (.insertion _) plain).mpr agree with
    ⟨out, drains, overlay⟩
  exact ⟨e, out, reached, counter, drains, overlay⟩

end Transaction

end Theseon
