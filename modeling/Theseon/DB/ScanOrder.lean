import Theseon.DB.ScanRange

/-!
# What the iterators yield

The merge iterator yields everything that its children yield, in the order of the keys
and, among equal keys, of the children.

The snapshot iterator is to yield the newest visible version of every user key.  It
compares with the user key that it emitted last, and a nil slice stands for none: as
long as only the empty user key has been emitted, the slice stays nil, and the next
visible version of that key is emitted as well.
-/

namespace Theseon.Iterator

open Lib KV List
open Iter

universe u v

variable {σ : Type u} {ε : Type v} [Iter σ ε]

/-! ## The merge -/

/-- The pairs of all children, each with the number of its child. -/
def numberedFrom : Nat → List (List (Bytes × Option Bytes)) → List (Nat × Bytes × Option Bytes)
  | _, [] => []
  | i, out :: outs => out.map (i, ·) ++ numberedFrom (i + 1) outs

theorem map_snd_numberedFrom (i : Nat) (outs : List (List (Bytes × Option Bytes))) :
    (numberedFrom i outs).map Prod.snd = outs.flatten := by
  induction outs generalizing i with
  | nil => rfl
  | cons out outs ih => simp [numberedFrom, ih, Function.comp_def]

theorem numberedFrom_ordered (i : Nat) (outs : List (List (Bytes × Option Bytes))) :
    (∀ item ∈ numberedFrom i outs, i ≤ item.1) ∧
      (numberedFrom i outs).Pairwise fun first second => first.1 ≤ second.1 := by
  induction outs generalizing i with
  | nil => simp [numberedFrom]
  | cons out outs ih =>
    rcases ih (i + 1) with ⟨above, ordered⟩
    constructor
    · intro item mem
      rcases mem_append.mp mem with first | later
      · rcases mem_map.mp first with ⟨pair, _, rfl⟩
        exact le_rfl
      · exact Nat.le_of_succ_le (above item later)
    · rw [numberedFrom, pairwise_append, pairwise_map]
      refine ⟨pairwise_of_forall fun _ _ => le_rfl, ordered, ?_⟩
      intro first firstMem second secondMem
      rcases mem_map.mp firstMem with ⟨pair, _, rfl⟩
      exact Nat.le_of_succ_le (above second secondMem)

/-- In the order of the keys and, among equal keys, of the children. -/
def InMergeOrder (first second : Nat × Bytes × Option Bytes) : Prop :=
  first.2.1 < second.2.1 ∨ first.2.1 = second.2.1 ∧ first.1 ≤ second.1

theorem sortByKey_inMergeOrder {items : List (Nat × Bytes × Option Bytes)}
    (ordered : items.Pairwise fun first second => first.1 ≤ second.1) :
    (sortByKey (fun item : Nat × Bytes × Option Bytes => item.2.1) items).Pairwise
      InMergeOrder := by
  rw [pairwise_iff_forall_sublist]
  intro first second sub
  have keyLe := pairwise_iff_forall_sublist.mp
    (@sortByKey_sorted _ _ _ (fun item : Nat × Bytes × Option Bytes => item.2.1) items) sub
  rcases keyLe.lt_or_eq with less | same
  · exact .inl less
  -- the pairs of one key are in the order in which they came
  have group := sub.filter fun item => decide (item.2.1 = first.2.1)
  rw [filter_sortByKey (by simp_all)] at group
  simp only [filter_cons, decide_true, if_true, decide_eq_true same.symm,
    filter_nil] at group
  exact .inr ⟨same, pairwise_iff_forall_sublist.mp ordered
    (group.trans filter_sublist)⟩

/-- Over children that end without an error and yield their keys in order, the merge
yields all their pairs in the order of the keys and, among equal keys, of the
children, and then ends without an error. -/
theorem merge_yields_all {iters : List σ} {outs : List (List (Bytes × Option Bytes))}
    (drains : List.Forall₂ (fun it out => Drains it out (none : Option ε)) iters outs)
    (sorted : ∀ out ∈ outs, KeySorted out) :
    ∃ order : List (Nat × Bytes × Option Bytes), order.Perm (numberedFrom 0 outs) ∧
      order.Pairwise InMergeOrder ∧
      Drains (MergeIterator.new iters : MergeIterator σ ε) (order.map Prod.snd) none := by
  have isMerge : (sortByKey (fun item : Nat × Bytes × Option Bytes => item.2.1)
      (numberedFrom 0 outs)).map Prod.snd = mergePairs outs := by
    rw [mergePairs, ← map_snd_numberedFrom 0]
    exact map_insertionSort _ _ _ _ fun _ _ _ _ => Iff.rfl
  refine ⟨_, sortByKey_perm _, sortByKey_inMergeOrder (numberedFrom_ordered 0 outs).2, ?_⟩
  rw [isMerge]
  exact MergeIterator.new_drains_mergePairs drains sorted

/-- Two memtables with a version of the same key each. -/
theorem merge_yields_both :
    ∃ order : List (Nat × Bytes × Option Bytes),
      order.Perm [(0, makeInternalKey [97] 1, some [49]), (1, makeInternalKey [97] 1, some [50])] ∧
      order.Pairwise InMergeOrder ∧
      Drains (MergeIterator.new
        [ScanIterator.memtable ⟨[⟨makeInternalKey [97] 1, .new (some [49])⟩], none⟩,
          ScanIterator.memtable ⟨[⟨makeInternalKey [97] 1, .new (some [50])⟩], none⟩])
        (order.map Prod.snd) none :=
  merge_yields_all
    (.cons (ScanIterator.memtable_drains [⟨makeInternalKey [97] 1, .new (some [49])⟩])
      (.cons (ScanIterator.memtable_drains [⟨makeInternalKey [97] 1, .new (some [50])⟩]) .nil))
    (by simp [KeySorted])

/-! ## The snapshot -/

/-- The pairs of one user key are next to each other, newest first. -/
structure Grouped (pairs : List (Bytes × Option Bytes)) : Prop where
  together : ∀ first middle last, [first, middle, last].Sublist pairs →
    userKey first.1 = userKey last.1 → userKey middle.1 = userKey first.1
  descending : pairs.Pairwise fun first second =>
    userKey first.1 = userKey second.1 → seqNum second.1 < seqNum first.1

/-- The pair is the newest one of its user key within the bound. -/
def Newest (maxSeq : Nat) (pairs : List (Bytes × Option Bytes)) (pair : Bytes × Option Bytes) :
    Prop :=
  seqNum pair.1 ≤ maxSeq ∧ ∀ other ∈ pairs, userKey other.1 = userKey pair.1 →
    seqNum other.1 ≤ maxSeq → seqNum other.1 ≤ seqNum pair.1

instance (maxSeq : Nat) (pairs : List (Bytes × Option Bytes)) (pair : Bytes × Option Bytes) :
    Decidable (Newest maxSeq pairs pair) :=
  inferInstanceAs (Decidable (_ ∧ _))

/-- The user keys of the pairs within the bound. -/
def shownUsers (maxSeq : Nat) (pairs : List (Bytes × Option Bytes)) : List Bytes :=
  (pairs.filter fun pair => seqNum pair.1 ≤ maxSeq).map fun pair => userKey pair.1

section

variable {maxSeq : Nat} {first : Bytes × Option Bytes} {pairs : List (Bytes × Option Bytes)}
  {user : Bytes}

theorem Grouped.of_cons (grouped : Grouped (first :: pairs)) : Grouped pairs :=
  ⟨fun a b c sub => grouped.together a b c (sub.cons _),
    (pairwise_cons.mp grouped.descending).2⟩

/-- Behind a pair of another user key there are no more pairs of this one. -/
def Leads (user : Bytes) (pairs : List (Bytes × Option Bytes)) : Prop :=
  ∀ a b, [a, b].Sublist pairs → userKey b.1 = user → userKey a.1 = user

theorem Leads.of_cons (leads : Leads user (first :: pairs)) : Leads user pairs :=
  fun a b sub => leads a b (sub.cons _)

theorem Grouped.leads (grouped : Grouped (first :: pairs)) : Leads (userKey first.1) pairs :=
  fun a b sub same => grouped.together first a b (sub.cons_cons first) same.symm

theorem not_newest_of_hidden (hidden : maxSeq < seqNum first.1) : ¬ Newest maxSeq pairs first :=
  fun newest => hidden.not_ge newest.1

theorem newest_cons_of_hidden (hidden : maxSeq < seqNum first.1) (pair : Bytes × Option Bytes) :
    Newest maxSeq (first :: pairs) pair ↔ Newest maxSeq pairs pair := by
  rw [Newest, Newest, forall_mem_cons]
  simp [hidden.not_ge]

section

variable (grouped : Grouped (first :: pairs)) (shown : seqNum first.1 ≤ maxSeq)

include grouped shown

/-- A pair behind a visible one is the newest of its user key only if that is another
one. -/
theorem Grouped.newest_cons {pair : Bytes × Option Bytes} (mem : pair ∈ pairs) :
    Newest maxSeq (first :: pairs) pair ↔
      userKey pair.1 ≠ userKey first.1 ∧ Newest maxSeq pairs pair := by
  have older := (pairwise_cons.mp grouped.descending).1 pair mem
  rw [Newest, Newest, forall_mem_cons]
  constructor
  · rintro ⟨within, above, newest⟩
    refine ⟨fun same => ?_, within, newest⟩
    exact absurd (above same.symm shown) (older same.symm).not_ge
  · rintro ⟨different, within, newest⟩
    exact ⟨within, fun same => absurd same.symm different, newest⟩

theorem Grouped.newest_head : Newest maxSeq (first :: pairs) first := by
  refine ⟨shown, forall_mem_cons.mpr ⟨fun _ _ => le_rfl, fun other mem same _ => ?_⟩⟩
  exact ((pairwise_cons.mp grouped.descending).1 other mem same.symm).le

theorem Grouped.filter_cons :
    (first :: pairs).filter (fun pair => Newest maxSeq (first :: pairs) pair) =
      first :: pairs.filter fun pair =>
        userKey pair.1 ≠ userKey first.1 ∧ Newest maxSeq pairs pair := by
  rw [filter_cons_of_pos (by simp [grouped.newest_head shown])]
  congr 1
  apply filter_congr
  intro pair mem
  exact decide_eq_decide.mpr (grouped.newest_cons shown mem)

end

/-- Behind a pair of `user`, the newest visible pairs of the other user keys are
emitted. -/
theorem Grouped.visible_some (grouped : Grouped pairs) (leads : Leads user pairs) :
    visible maxSeq (some user) pairs =
      pairs.filter fun pair => userKey pair.1 ≠ user ∧ Newest maxSeq pairs pair := by
  induction pairs generalizing user with
  | nil => rfl
  | cons first rest ih =>
    rw [visible]
    split
    · rename_i hidden
      rw [ih grouped.of_cons leads.of_cons,
        filter_cons_of_neg (by simp [not_newest_of_hidden hidden])]
      simp only [newest_cons_of_hidden hidden]
    rename_i shown
    have shown := not_lt.mp shown
    split
    · rename_i isLast
      obtain rfl := Option.some.inj isLast
      rw [ih grouped.of_cons leads.of_cons, filter_cons_of_neg (by simp)]
      apply filter_congr
      intro pair mem
      simp only [grouped.newest_cons shown mem]
      simp
    rename_i isNew
    have different : userKey first.1 ≠ user := fun same => isNew (congrArg some same.symm)
    rw [remember, if_neg (by simp), ih grouped.of_cons grouped.leads,
      filter_cons_of_pos (by simp [different, grouped.newest_head shown])]
    congr 1
    apply filter_congr
    intro pair mem
    -- behind a pair of another user key there is none of `user`
    have behind : userKey pair.1 ≠ user := fun same => different
      (leads first pair ((singleton_sublist.mpr mem).cons_cons first) same)
    simp only [grouped.newest_cons shown mem]
    simp [behind]

/-- The state in which nothing has been emitted hides the empty user key exactly when no
visible pair of it comes next. -/
theorem Grouped.visible_none_iff (grouped : Grouped pairs) (leads : Leads [] pairs) :
    visible maxSeq none pairs = visible maxSeq (some []) pairs ↔
      ¬ [[]] <+: shownUsers maxSeq pairs := by
  induction pairs with
  | nil => simp [visible, shownUsers]
  | cons first rest ih =>
    rw [visible, visible, shownUsers]
    split
    · rename_i hidden
      rw [ih grouped.of_cons leads.of_cons, filter_cons_of_neg (by simpa using hidden)]
      rfl
    rename_i shown
    rw [filter_cons_of_pos (by simpa using shown), map_cons, if_neg (by simp)]
    by_cases empty : userKey first.1 = []
    · rw [if_pos (by rw [empty]), grouped.of_cons.visible_some leads.of_cons, empty]
      apply iff_of_false
      · intro same
        have mem := same ▸ mem_cons_self
        simp [empty] at mem
      · simp
    rw [if_neg fun same => empty (Option.some.inj same).symm]
    apply iff_of_true
    · simp [remember, empty]
    · simpa using empty

/-- The snapshot iterator emits the newest visible version of every user key, in
order, exactly when the first two pairs within its bound are not both of the empty
user key. -/
theorem Grouped.visible_eq_newest_iff (grouped : Grouped pairs) :
    visible maxSeq none pairs = pairs.filter (fun pair => Newest maxSeq pairs pair) ↔
      ¬ [[], []] <+: shownUsers maxSeq pairs := by
  induction pairs with
  | nil => simp [visible, shownUsers]
  | cons first rest ih =>
    rw [visible, shownUsers]
    split
    · rename_i hidden
      rw [filter_cons_of_neg (by simp [not_newest_of_hidden hidden]),
        filter_cons_of_neg (by simpa using hidden)]
      simp only [newest_cons_of_hidden hidden]
      exact ih grouped.of_cons
    rename_i shown
    have shown := not_lt.mp shown
    rw [if_neg (by simp), grouped.filter_cons shown, cons.injEq, eq_self, true_and,
      filter_cons_of_pos (by simpa using shown), map_cons, cons_prefix_cons,
      ← grouped.of_cons.visible_some grouped.leads]
    by_cases empty : userKey first.1 = []
    · have leads := grouped.leads
      rw [empty] at leads ⊢
      rw [remember, if_pos ⟨rfl, rfl⟩, grouped.of_cons.visible_none_iff leads]
      simp [shownUsers]
    · rw [remember, if_neg fun both => empty both.2]
      simp [empty]

end

/-- A snapshot of an iterator whose pairs are grouped yields the newest visible version
of every user key exactly when the first two pairs within the bound are not both of
the empty user key. -/
theorem snapshot_newest_iff {it : σ} {pairs : List (Bytes × Option Bytes)} {final : Option ε}
    (drains : Drains it pairs final) (grouped : Grouped pairs) (maxSeq : Nat) {rounds : Nat}
    (enough : pairs.length < rounds) :
    Drains (SnapshotIterator.new it maxSeq rounds : SnapshotIterator σ ε)
        (pairs.filter fun pair => Newest maxSeq pairs pair) final ↔
      ¬ [[], []] <+: shownUsers maxSeq pairs := by
  rw [← grouped.visible_eq_newest_iff]
  have yields := SnapshotIterator.new_drains drains maxSeq enough
  constructor
  · exact fun newest => (yields.unique newest).1
  · intro same
    rwa [same] at yields

/-- A memtable with two versions of `user`. -/
def twoVersions (user : Bytes) : List Entry :=
  [⟨makeInternalKey user 2, .new (some [50])⟩, ⟨makeInternalKey user 1, .new (some [49])⟩]

theorem twoVersions_grouped {user : Bytes} : Grouped ((twoVersions user).map SSTable.shown) where
  together _ _ _ sub := by simpa [twoVersions] using sub.length_le
  descending := by
    have newer : seqNum (makeInternalKey user 1) < seqNum (makeInternalKey user 2) := by
      rw [seqNum_makeInternalKey (by decide), seqNum_makeInternalKey (by decide)]
      decide
    simp [twoVersions, SSTable.shown, newer]

/-- Of two versions of a key that is not empty, the snapshot shows the newer one. -/
theorem snapshot_newest_of_two :
    Drains (SnapshotIterator.new (ScanIterator.memtable ⟨twoVersions [97], none⟩) 2 3)
      [(makeInternalKey [97] 2, some [50])] none :=
  (snapshot_newest_iff (ScanIterator.memtable_drains (twoVersions [97])) twoVersions_grouped 2
    (by decide)).mpr (by decide)

/-- Of two versions of the empty key, the snapshot shows both. -/
theorem snapshot_empty_twice :
    Grouped ((twoVersions []).map SSTable.shown) ∧
      Drains (SnapshotIterator.new (ScanIterator.memtable ⟨twoVersions [], none⟩) 2 3)
        [(makeInternalKey [] 2, some [50]), (makeInternalKey [] 1, some [49])] none :=
  ⟨twoVersions_grouped, SnapshotIterator.new_drains
    (ScanIterator.memtable_drains (twoVersions [])) 2 (by decide)⟩

end Theseon.Iterator
