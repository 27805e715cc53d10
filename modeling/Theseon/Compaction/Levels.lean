import Theseon.Compaction.Correctness
import Theseon.KV.Age
import Theseon.Lib.Sorter

/-!
# The tables of a level

The tables of a level below L0 have disjoint key ranges.  A compaction into the
level takes the tables that overlap the key range of its inputs, so what it
writes fits into the gap they leave, and sorting by first key orders the level
again.
-/

namespace Theseon.Compaction

open Lib KV SSTable List

/-! ## First and last keys -/

section Bounds

variable {r : Reader}

theorem firstKey_mem (wf : r.WellFormed) : ∃ entry ∈ r.entries, entry.key = r.firstKey := by
  rcases Option.map_eq_some_iff.mp wf.firstKey with ⟨first, isFirst, same⟩
  exact ⟨first, mem_of_head? isFirst, same⟩

theorem firstKey_le (wf : r.WellFormed) {entry : Entry} (mem : entry ∈ r.entries) :
    r.firstKey ≤ entry.key := by
  have ascending := wf.ascending
  have isFirst := wf.firstKey
  cases contents : r.entries with
  | nil => exact absurd contents wf.nonempty
  | cons first rest =>
    rw [contents] at mem ascending isFirst
    rw [← Option.some.inj isFirst]
    rcases mem_cons.mp mem with rfl | inRest
    · exact le_rfl
    · exact ((pairwise_cons.mp ascending).1 entry inRest).le

theorem lastKey_eq (wf : r.WellFormed) : r.lastKey = lastKeyOf r.entries := by
  rcases eq_nil_or_concat' r.blocks with none | ⟨init, last, split⟩
  · exact absurd (by rw [Reader.entries, none]; rfl) wf.nonempty
  have nonempty : last ≠ [] := wf.blocksNonempty last (by rw [split]; simp)
  rw [Reader.lastKey, wf.lastKeys, Reader.entries, split, flatten_concat,
    lastKeyOf_append_of_ne_nil _ nonempty]
  simp

theorem lastKey_mem (wf : r.WellFormed) : ∃ entry ∈ r.entries, entry.key = r.lastKey := by
  rcases eq_nil_or_concat' r.entries with none | ⟨init, last, split⟩
  · exact absurd none wf.nonempty
  · refine ⟨last, by rw [split]; simp, ?_⟩
    rw [lastKey_eq wf, split, lastKeyOf_concat]

theorem le_lastKey (wf : r.WellFormed) {entry : Entry} (mem : entry ∈ r.entries) :
    entry.key ≤ r.lastKey := by
  rw [lastKey_eq wf]
  exact le_lastKeyOf wf.ascending.sorted mem

end Bounds

/-! ## The key range of a task -/

/-- All user keys of the entries lie between those of the two bounds. -/
def Spans (minKey maxKey : Bytes) (entries : List Entry) : Prop :=
  ∀ entry ∈ entries, userKey minKey ≤ entry.user ∧ entry.user ≤ userKey maxKey

/-- The accumulated range bounds the keys of all tables seen. -/
theorem keyRange_bounds {handles : List Reader} (nonempty : handles ≠ []) :
    ∃ minKey maxKey, keyRange handles = (some minKey, some maxKey) ∧
      (∃ h ∈ handles, minKey = h.firstKey) ∧ (∃ h ∈ handles, maxKey = h.lastKey) ∧
      ∀ h ∈ handles, minKey ≤ h.firstKey ∧ h.lastKey ≤ maxKey := by
  induction handles using List.reverseRecOn with
  | nil => exact absurd rfl nonempty
  | append_singleton init last ih =>
    by_cases first : init = []
    · subst first
      exact ⟨last.firstKey, last.lastKey, rfl, ⟨last, by simp, rfl⟩, ⟨last, by simp, rfl⟩,
        by simp⟩
    rcases ih first with ⟨minKey, maxKey, found, ⟨low, lowMem, lowEq⟩, ⟨high, highMem, highEq⟩,
      bounds⟩
    have extended : keyRange (init ++ [last]) =
        (some (min minKey last.firstKey), some (max maxKey last.lastKey)) := by
      rw [keyRange, foldl_append, ← keyRange, found]
      simp only [foldl_cons, foldl_nil, Prod.mk.injEq]
      constructor
      · split
        · rename_i less
          rw [min_eq_right less.le]
        · rename_i notLess
          rw [min_eq_left (not_lt.mp notLess)]
      · split
        · rename_i less
          rw [max_eq_right less.le]
        · rename_i notLess
          rw [max_eq_left (not_lt.mp notLess)]
    refine ⟨_, _, extended, ?_, ?_, ?_⟩
    · rcases min_choice minKey last.firstKey with isMin | isFirst
      · exact ⟨low, by simp [lowMem], isMin.trans lowEq⟩
      · exact ⟨last, by simp, isFirst⟩
    · rcases max_choice maxKey last.lastKey with isMax | isLast
      · exact ⟨high, by simp [highMem], isMax.trans highEq⟩
      · exact ⟨last, by simp, isLast⟩
    · intro h hMem
      rcases mem_append.mp hMem with old | isLast
      · exact ⟨(min_le_left _ _).trans (bounds h old).1,
          (bounds h old).2.trans (le_max_left _ _)⟩
      · rw [mem_singleton.mp isLast]
        exact ⟨min_le_right _ _, le_max_right _ _⟩

def entriesOf (tables : List Reader) : List Entry :=
  tables.flatMap Reader.entries

variable {tables : List Reader}

theorem mem_entriesOf {entry : Entry} :
    entry ∈ entriesOf tables ↔ ∃ r ∈ tables, entry ∈ r.entries :=
  mem_flatMap

theorem entries_subset {r : Reader} (mem : r ∈ tables) : r.entries ⊆ entriesOf tables :=
  fun _ inTable => mem_entriesOf.mpr ⟨r, mem, inTable⟩

theorem entriesOf_mono {others : List Reader} (subset : tables ⊆ others) :
    entriesOf tables ⊆ entriesOf others := by
  intro entry mem
  rcases mem_entriesOf.mp mem with ⟨r, rMem, inTable⟩
  exact entries_subset (subset rMem) inTable

theorem long_of_mem_entriesOf (wf : ∀ r ∈ tables, r.WellFormed) :
    ∀ entry ∈ entriesOf tables, entry.Long := by
  intro entry mem
  rcases mem_entriesOf.mp mem with ⟨r, rMem, inTable⟩
  exact (wf r rMem).long entry inTable

/-- Key bounds of tables are bounds of their user keys. -/
theorem spans_of_bounds (wf : ∀ r ∈ tables, r.WellFormed) (free : PrefixFree (entriesOf tables))
    {minKey maxKey : Bytes} (low : ∃ h ∈ tables, minKey = h.firstKey)
    (high : ∃ h ∈ tables, maxKey = h.lastKey)
    (bounds : ∀ h ∈ tables, minKey ≤ h.firstKey ∧ h.lastKey ≤ maxKey) :
    Spans minKey maxKey (entriesOf tables) := by
  have long := long_of_mem_entriesOf wf
  intro entry entryMem
  rcases mem_entriesOf.mp entryMem with ⟨r, rMem, inTable⟩
  constructor
  · rcases low with ⟨h, hMem, rfl⟩
    rcases firstKey_mem (wf h hMem) with ⟨first, firstMem, firstEq⟩
    rw [← firstEq]
    apply free.user_le long (mem_entriesOf.mpr ⟨h, hMem, firstMem⟩) entryMem
    rw [firstEq]
    exact (bounds r rMem).1.trans (firstKey_le (wf r rMem) inTable)
  · rcases high with ⟨h, hMem, rfl⟩
    rcases lastKey_mem (wf h hMem) with ⟨last, lastMem, lastEq⟩
    rw [← lastEq]
    apply free.user_le long entryMem (mem_entriesOf.mpr ⟨h, hMem, lastMem⟩)
    rw [lastEq]
    exact (le_lastKey (wf r rMem) inTable).trans (bounds r rMem).2

/-! ## Disjoint tables -/

/-- The key ranges of the tables are disjoint and ascend. -/
def Disjoint (level : List Reader) : Prop :=
  level.Pairwise fun first second => Before first.entries second.entries

/-- Two tables of a level are in order one way or the other. -/
theorem Disjoint.before_or {level : List Reader} (disjoint : Disjoint level) {r t : Reader}
    (rMem : r ∈ level) (tMem : t ∈ level) (different : r ≠ t) :
    Before r.entries t.entries ∨ Before t.entries r.entries := by
  have either : level.Pairwise fun first second =>
      Before first.entries second.entries ∨ Before second.entries first.entries :=
    disjoint.imp .inl
  have symmetric : Std.Symm fun first second : Reader =>
      Before first.entries second.entries ∨ Before second.entries first.entries :=
    ⟨fun _ _ => Or.symm⟩
  exact either.forall rMem tMem different

theorem Disjoint.newer {level : List Reader} (disjoint : Disjoint level)
    (wf : ∀ r ∈ level, r.WellFormed) :
    level.Pairwise fun first second => Newer first.entries second.entries := by
  apply List.Pairwise.imp_of_mem _ disjoint
  intro first second firstMem secondMem before
  exact before.newer (wf first firstMem).long (wf second secondMem).long

section Gap

variable {level : List Reader} {inputs : List Entry} {minKey maxKey : Bytes}

/-- What a compaction of `inputs` into the level merges. -/
def merged (level : List Reader) (inputs : List Entry) (minKey maxKey : Bytes) : List Entry :=
  inputs ++ entriesOf (findOverlapping level minKey maxKey)

/-- A table that does not overlap the inputs lies before or behind everything
that is merged. -/
theorem before_or_of_not_overlaps (wf : ∀ r ∈ level, r.WellFormed) (disjoint : Disjoint level)
    (inputsLong : ∀ entry ∈ inputs, entry.Long)
    (free : PrefixFree (inputs ++ entriesOf level)) (spans : Spans minKey maxKey inputs)
    {r : Reader} (rMem : r ∈ level) (apart : overlaps minKey maxKey r = false) :
    Before r.entries (merged level inputs minKey maxKey) ∨
      Before (merged level inputs minKey maxKey) r.entries := by
  have inLevel : ∀ {t : Reader}, t ∈ level → ∀ {entry}, entry ∈ t.entries →
      entry ∈ inputs ++ entriesOf level := fun tMem _ mem =>
    mem_append_right _ (mem_entriesOf.mpr ⟨_, tMem, mem⟩)
  have long : ∀ entry ∈ inputs ++ entriesOf level, entry.Long :=
    forall_mem_append.mpr ⟨inputsLong, long_of_mem_entriesOf wf⟩
  have below {first second : Entry} (firstMem : first ∈ inputs ++ entriesOf level)
      (secondMem : second ∈ inputs ++ entriesOf level) (less : first.user < second.user) :
      first.key < second.key :=
    not_le.mp fun reversed =>
      absurd less (not_lt.mpr (free.user_le long secondMem firstMem reversed))
  -- a table that overlaps the range is another one, and in order with this one
  have either {t : Reader} (found : t ∈ findOverlapping level minKey maxKey) : t ∈ level ∧
      (userKey t.firstKey ≤ userKey maxKey ∧ userKey minKey ≤ userKey t.lastKey) ∧
        (Before r.entries t.entries ∨ Before t.entries r.entries) := by
    rcases mem_filter.mp found with ⟨tMem, overlapping⟩
    refine ⟨tMem, of_decide_eq_true overlapping, disjoint.before_or rMem tMem ?_⟩
    rintro rfl
    rw [overlapping] at apart
    cases apart
  rcases firstKey_mem (wf r rMem) with ⟨rFirst, rFirstMem, rFirstEq⟩
  rcases lastKey_mem (wf r rMem) with ⟨rLast, rLastMem, rLastEq⟩
  have outside : userKey maxKey < rFirst.user ∨ rLast.user < userKey minKey := by
    simp only [overlaps, decide_eq_false_iff_not, not_and_or, not_le] at apart
    rw [Entry.user, Entry.user, rFirstEq, rLastEq]
    exact apart
  rcases outside with above | under
  · -- the table lies behind the range
    right
    intro first firstMem second secondMem
    have secondAbove : userKey maxKey < second.user :=
      lt_of_lt_of_le above (free.user_le long (inLevel rMem rFirstMem) (inLevel rMem secondMem)
        (by rw [rFirstEq]; exact firstKey_le (wf r rMem) secondMem))
    rcases mem_append.mp firstMem with isInput | inOverlapping
    · exact below (mem_append_left _ isInput) (inLevel rMem secondMem)
        (lt_of_le_of_lt (spans first isInput).2 secondAbove)
    rcases mem_entriesOf.mp inOverlapping with ⟨t, found, inTable⟩
    rcases either found with ⟨tMem, overlapping, reversed | inOrder⟩
    · rcases firstKey_mem (wf t tMem) with ⟨tFirst, tFirstMem, tFirstEq⟩
      have userLe := free.user_le long (inLevel rMem rFirstMem) (inLevel tMem tFirstMem)
        (reversed rFirst rFirstMem tFirst tFirstMem).le
      rw [Entry.user, Entry.user, tFirstEq] at userLe
      exact absurd (userLe.trans overlapping.1) (not_le.mpr above)
    · exact inOrder first inTable second secondMem
  · -- the table lies before the range
    left
    intro first firstMem second secondMem
    have firstUnder : first.user < userKey minKey :=
      lt_of_le_of_lt (free.user_le long (inLevel rMem firstMem) (inLevel rMem rLastMem)
        (by rw [rLastEq]; exact le_lastKey (wf r rMem) firstMem)) under
    rcases mem_append.mp secondMem with isInput | inOverlapping
    · exact below (inLevel rMem firstMem) (mem_append_left _ isInput)
        (lt_of_lt_of_le firstUnder (spans second isInput).1)
    rcases mem_entriesOf.mp inOverlapping with ⟨t, found, inTable⟩
    rcases either found with ⟨tMem, overlapping, inOrder | reversed⟩
    · exact inOrder first firstMem second inTable
    rcases lastKey_mem (wf t tMem) with ⟨tLast, tLastMem, tLastEq⟩
    have userLe := free.user_le long (inLevel tMem tLastMem) (inLevel rMem rLastMem)
      (reversed tLast tLastMem rLast rLastMem).le
    rw [Entry.user, Entry.user, tLastEq] at userLe
    exact absurd (overlapping.2.trans userLe) (not_le.mpr under)

end Gap

/-! ## Sorting by first key -/

/-- Tables whose ranges do not interleave are put in order by their first keys. -/
theorem disjoint_sort (sorter : Sorter Reader.firstKey) (wf : ∀ r ∈ tables, r.WellFormed)
    (comparable : tables.Pairwise fun first second =>
      Before first.entries second.entries ∨ Before second.entries first.entries) :
    Disjoint (sorter.sort tables) := by
  have symmetric : ∀ {first second : Reader},
      Before first.entries second.entries ∨ Before second.entries first.entries →
        Before second.entries first.entries ∨ Before first.entries second.entries := Or.symm
  have either := ((sorter.perm tables).pairwise_iff symmetric).mpr comparable
  apply List.Pairwise.imp_of_mem _ ((sorter.sorted tables).and either)
  rintro first second firstMem secondMem ⟨inOrder, before | reversed⟩
  · exact before
  · exfalso
    have firstWf := wf first (sorter.mem_sort.mp firstMem)
    have secondWf := wf second (sorter.mem_sort.mp secondMem)
    rcases firstKey_mem firstWf with ⟨a, aMem, aEq⟩
    rcases firstKey_mem secondWf with ⟨b, bMem, bEq⟩
    have less := reversed b bMem a aMem
    rw [aEq, bEq] at less
    exact absurd inOrder (not_le.mpr less)

/-! ## What a compaction of healthy tables writes -/

/-- Tables whose versions are ordered by age hold no key twice. -/
theorem nodup_keys_of_newer (wf : ∀ r ∈ tables, r.WellFormed)
    (newer : tables.Pairwise fun first second => Newer first.entries second.entries) :
    ((entriesOf tables).map Entry.key).Nodup := by
  rw [entriesOf, List.Nodup, pairwise_map, pairwise_flatMap]
  constructor
  · intro r rMem
    exact (wf r rMem).ascending.imp ne_of_lt
  · apply newer.imp
    intro first second ordered a aMem b bMem same
    have sameUser : b.user = a.user := by
      rw [Entry.user, Entry.user, same]
    have sameSeq : b.seq = a.seq := by
      rw [Entry.seq, Entry.seq, same]
    exact absurd sameSeq (ordered a aMem b bMem sameUser).ne

theorem execute_healthy {opts : ExecuteOptions} {task : CompactionTask}
    (sound : ∀ r ∈ task.allInputs, r.WellFormed ∧ r.Healthy)
    (distinct : ((entriesOf task.allInputs).map Entry.key).Nodup)
    (done : execute opts task = .ok tables) :
    (entriesOf tables).Perm (entriesOf task.allInputs) ∧ Disjoint tables ∧
      ∀ r ∈ tables, r.WellFormed ∧ r.Healthy := by
  have wf : ∀ r ∈ task.allInputs, r.WellFormed := fun r rMem => (sound r rMem).1
  rcases execute_eq_ok wf done with ⟨perm, sorted, tablesSound, _⟩
  have whole : task.readable = entriesOf task.allInputs := by
    rw [CompactionTask.readable, entriesOf, List.flatMap, List.flatMap]
    congr 1
    apply map_congr_left
    intro r rMem
    rw [(sound r rMem).2.readable_eq]
  rw [whole] at perm
  refine ⟨perm, ?_, tablesSound⟩
  rw [← (perm.map Entry.key).nodup_iff, List.Nodup, pairwise_map] at distinct
  have ascending : Ascending (tables.flatMap Reader.entries) :=
    (List.Pairwise.and sorted distinct).imp fun both => lt_of_le_of_ne both.1 both.2
  exact (pairwise_flatMap.mp ascending).2

end Theseon.Compaction
