import Theseon.Memtable.Insert

/-!
# The memtable

A memtable is modelled by the sorted run of entries that its skip list holds;
the field `sorted` makes every memtable a sorted run.  `Represents` relates a
skip list to the memtable it implements.  Every insertion keeps it, whatever
tower height is drawn, and under it both give the same answers.
-/

namespace Theseon

open Lib KV List

/-- `Memtable`, with the skip list seen as its entries in key order. -/
structure Memtable where
  id : Nat
  entries : List Entry
  frozen : Bool
  sorted : Sorted entries

namespace Memtable

def new (id : Nat) : Memtable where
  id := id
  entries := []
  frozen := false
  sorted := List.Pairwise.nil

def put (m : Memtable) (internalKey : Bytes) (value : Value) : Memtable :=
  { m with
    entries := insertEntry ⟨internalKey, value⟩ m.entries
    sorted := m.sorted.insertEntry _ }

def getAt (m : Memtable) (user : Bytes) (maxSeq : Nat) : Option Value :=
  lookupAt m.entries user maxSeq

def getNewest (m : Memtable) (user : Bytes) : Option (Value × Nat) :=
  ((seek (makeSearchKey user) m.entries).head?).bind fun entry =>
    if entry.user = user then some (entry.value, entry.seq) else none

def approximateSize (m : Memtable) : Nat :=
  (m.entries.map fun entry => entry.key.length + entry.value.encodedSize).sum

def freeze (m : Memtable) : Memtable :=
  { m with frozen := true }

@[simp]
theorem new_entries (id : Nat) : (new id).entries = [] :=
  rfl

@[simp]
theorem put_id (m : Memtable) (key : Bytes) (value : Value) : (m.put key value).id = m.id :=
  rfl

variable {entry : Entry}

@[simp]
theorem mem_put_entries {m : Memtable} {key : Bytes} {value : Value} :
    entry ∈ (m.put key value).entries ↔ entry = ⟨key, value⟩ ∨ entry ∈ m.entries :=
  mem_insertEntry

@[simp]
theorem freeze_id (m : Memtable) : m.freeze.id = m.id :=
  rfl

@[simp]
theorem freeze_entries (m : Memtable) : m.freeze.entries = m.entries :=
  rfl

theorem approximateSize_put (m : Memtable) (key : Bytes) (value : Value) :
    (m.put key value).approximateSize =
      m.approximateSize + (key.length + value.encodedSize) := by
  have whole : m.approximateSize =
      (((m.entries.takeWhile fun old => old.key < key) ++ seek key m.entries).map
        fun entry => entry.key.length + entry.value.encodedSize).sum := by
    rw [seek, takeWhile_append_dropWhile]
    rfl
  rw [whole]
  simp only [approximateSize, put, insertEntry, map_append, map_cons, sum_append,
    sum_cons]
  omega

/-! ## The skip list implements the memtable -/

/-- A tower height that `randomHeight` can draw. -/
def Tower : Type :=
  { h : Nat // 1 ≤ h ∧ h ≤ maxHeight }

/-- The skip list holds the entries of the memtable. -/
def Represents (s : SkipList) (m : Memtable) : Prop :=
  ∃ order, s.Ordered order ∧ s.entriesOf order = m.entries ∧ s.dataSize = m.approximateSize

namespace Represents

theorem new (id : Nat) : Represents SkipList.new (.new id) :=
  ⟨[], SkipList.new_ordered, rfl, rfl⟩

variable {s : SkipList} {m : Memtable}

theorem put (represents : Represents s m) (key : Bytes) (value : Value) (tower : Tower) :
    Represents (s.put key value tower.1) (m.put key value) := by
  obtain ⟨order, ordered, entriesEq, sizeEq⟩ := represents
  refine ⟨_, ordered.put tower.2.1 tower.2.2, ?_, ?_⟩
  · rw [SkipList.entriesOf_put ordered, entriesEq]
    rfl
  · rw [Memtable.approximateSize_put, ← sizeEq]
    rfl

/-- Point reads of the skip list are those of the memtable. -/
theorem getAt_eq (represents : Represents s m) (user : Bytes) (maxSeq : Nat) :
    s.getAt user maxSeq = m.getAt user maxSeq := by
  obtain ⟨order, ordered, entriesEq, _⟩ := represents
  rw [ordered.getAt_eq, entriesEq]
  rfl

theorem getNewest_eq (represents : Represents s m) (user : Bytes) :
    s.getNewest user = m.getNewest user := by
  obtain ⟨order, ordered, entriesEq, _⟩ := represents
  rw [ordered.getNewest_eq, entriesEq]
  rfl

end Represents

/-- The newest version is found if no other key shadows it. -/
theorem le_getNewest {m : Memtable} (long : ∀ entry ∈ m.entries, entry.Long)
    (mem : entry ∈ m.entries) (unshadowed : UnshadowedFor m.entries entry.user) :
    ∃ value seq, m.getNewest entry.user = some (value, seq) ∧ entry.seq ≤ seq := by
  have inRange : entry ∈ seek (makeSearchKey entry.user) m.entries :=
    (mem_seek_iff m.sorted).mpr ⟨mem, Entry.search_le (long entry mem)⟩
  cases found : seek (makeSearchKey entry.user) m.entries with
  | nil =>
    rw [found] at inRange
    cases inRange
  | cons first rest =>
    have firstMem : first ∈ seek (makeSearchKey entry.user) m.entries := by
      rw [found]
      exact mem_cons_self
    rcases (mem_seek_iff m.sorted).mp firstMem with ⟨held, above⟩
    have ordered : first.key ≤ entry.key := by
      have sorted := m.sorted.seek (makeSearchKey entry.user)
      rw [found] at sorted inRange
      rcases mem_cons.mp inRange with rfl | later
      · exact le_refl _
      · exact (pairwise_cons.mp sorted).1 entry later
    have sameUser : first.user = entry.user := by
      by_contra other
      apply unshadowed entry mem rfl first held
      refine ⟨other, ?_⟩
      rw [(long first held).key_eq, (long entry mem).key_eq]
      refine ⟨above, lt_of_le_of_ne ordered ?_⟩
      intro sameKey
      exact other (congrArg userKey sameKey)
    refine ⟨first.value, first.seq, ?_, ?_⟩
    · rw [getNewest, found, head?_cons, Option.bind_some, if_pos sameUser]
    · exact Entry.seq_le_of_key_le (long first held) (long entry mem) sameUser ordered

/-- The skip list after a sequence of insertions, each with the tower it drew. -/
def skipListOf (puts : List (Entry × Tower)) : SkipList :=
  puts.foldl (fun s put => s.put put.1.key put.1.value put.2.1) SkipList.new

/-- The memtable after a sequence of insertions. -/
def memtableOf (id : Nat) (entries : List Entry) : Memtable :=
  entries.foldl (fun m entry => m.put entry.key entry.value) (Memtable.new id)

theorem foldl_put_perm (m : Memtable) (entries : List Entry) :
    (entries.foldl (fun m entry => m.put entry.key entry.value) m).entries.Perm
      (entries ++ m.entries) := by
  induction entries generalizing m with
  | nil => exact List.Perm.refl _
  | cons first rest ih =>
    rw [foldl_cons]
    have inserted : (rest ++ (m.put first.key first.value).entries).Perm
        (rest ++ first :: m.entries) := (insertEntry_perm first m.entries).append_left rest
    exact ((ih _).trans inserted).trans perm_middle

theorem mem_foldl_put {m : Memtable} {entries : List Entry} :
    entry ∈ (entries.foldl (fun m entry => m.put entry.key entry.value) m).entries ↔
      entry ∈ entries ∨ entry ∈ m.entries := by
  rw [(foldl_put_perm m entries).mem_iff, mem_append]

theorem foldl_put_id (m : Memtable) (entries : List Entry) :
    (entries.foldl (fun m entry => m.put entry.key entry.value) m).id = m.id := by
  induction entries generalizing m with
  | nil => rfl
  | cons first rest ih => rw [foldl_cons, ih, Memtable.put_id]

theorem mem_memtableOf {id : Nat} {entries : List Entry} :
    entry ∈ (memtableOf id entries).entries ↔ entry ∈ entries := by
  simp [memtableOf, mem_foldl_put]

/-- Every run of insertions keeps skip list and memtable together. -/
theorem represents_of_puts (id : Nat) (puts : List (Entry × Tower)) :
    Represents (skipListOf puts) (memtableOf id (puts.map Prod.fst)) := by
  have run : ∀ (s : SkipList) (m : Memtable), Represents s m →
      Represents (puts.foldl (fun s put => s.put put.1.key put.1.value put.2.1) s)
        ((puts.map Prod.fst).foldl (fun m entry => m.put entry.key entry.value) m) := by
    induction puts with
    | nil => exact fun s m represents => represents
    | cons first rest ih =>
      intro s m represents
      exact ih _ _ (represents.put first.1.key first.1.value first.2)
  exact run _ _ (Represents.new id)

/-- After any insertions, with towers of any height, `GetNewest` and `Get` of the skip list
return what a search of the sorted entries does. -/
theorem skipList_reads_newest (id : Nat) (puts : List (Entry × Tower)) (user : Bytes) :
    (skipListOf puts).getNewest user = (memtableOf id (puts.map Prod.fst)).getNewest user ∧
      (skipListOf puts).get user =
        ((memtableOf id (puts.map Prod.fst)).getNewest user).map Prod.fst := by
  have represents := represents_of_puts id puts
  refine ⟨represents.getNewest_eq user, ?_⟩
  obtain ⟨order, ordered, entriesEq, _⟩ := represents
  rw [ordered.get_eq, entriesEq, getNewest, Option.map_bind]
  simp [apply_ite (Option.map Prod.fst)]

/-- After any insertions the bottom level has the inserted entries in key order, every
other level has the taller nodes of the level below, and a search finds the first key at
or above its target and, on every level, the last node below it. -/
theorem skipList_levels (puts : List (Entry × Tower)) :
    ∃ levels : Nat → List Nat,
      (∀ level < maxHeight,
        Chain ((skipListOf puts).nextAt level) SkipList.head (levels level)) ∧
      ((levels 0).map (skipListOf puts).entryAt).Perm (puts.map Prod.fst) ∧
      Sorted ((levels 0).map (skipListOf puts).entryAt) ∧
      (∀ level, levels (level + 1) =
        (levels level).filter fun x => level + 1 < (skipListOf puts).heightAt x) ∧
      ∀ target, (skipListOf puts).findGreaterOrEqual target =
        ((levels 0).find? fun x => target ≤ (skipListOf puts).keyAt x,
          (List.range (skipListOf puts).height).map fun level =>
            ((levels level).filter fun x => (skipListOf puts).keyAt x < target).getLastD
              SkipList.head) := by
  obtain ⟨order, ordered, entriesEq, _⟩ := represents_of_puts 0 puts
  have bottom : (order.map (skipListOf puts).entryAt) =
      (memtableOf 0 (puts.map Prod.fst)).entries := entriesEq
  refine ⟨(skipListOf puts).levelOf order, ordered.chain, ?_, ?_, ?_, ?_⟩
  · rw [ordered.levelOf_zero, bottom]
    exact (foldl_put_perm (Memtable.new 0) _).trans (List.Perm.of_eq (append_nil _))
  · rw [ordered.levelOf_zero, bottom]
    exact (memtableOf 0 (puts.map Prod.fst)).sorted
  · intro level
    rw [SkipList.levelOf, SkipList.levelOf, filter_filter]
    congr 1
    funext x
    rw [Bool.eq_iff_iff]
    simp only [Bool.and_eq_true, decide_eq_true_eq]
    omega
  · intro target
    have down := ordered.downward target
    have last : (skipListOf puts).lastBelow order target = fun level =>
        (((skipListOf puts).levelOf order level).filter fun x =>
          (skipListOf puts).keyAt x < target).getLastD SkipList.head := by
      funext level
      exact congrArg (getLastD · SkipList.head) (down.filter _).takeWhile_eq_filter
    rw [ordered.findGreaterOrEqual_eq, down.dropWhile_eq_filter_not, head?_filter,
      ordered.levelOf_zero, last]
    simp only [SkipList.below, ← decide_not, not_lt]

end Memtable

end Theseon
