import Theseon.DB.State
import Theseon.SSTable.Reader

/-!
# Point reads

`getAt` asks the active memtable, the immutable memtables, the L0 tables and the
tables of the deeper levels, in this order, and takes the first answer.  It
returns the newest visible version of all of them when they are layered.
-/

namespace Theseon

open Lib KV SSTable

/-- What `getAt` consults. -/
inductive Source where
  | memtable (m : Memtable)
  | table (r : Reader)

namespace Source

/-- The versions a source holds. -/
def entries : Source → List Entry
  | memtable m => m.entries
  | table r => r.entries

/-- The answer of one source.  A table that cannot be read is skipped. -/
def getAt (user : Bytes) (maxSeq : Nat) : Source → Option Value
  | memtable m => m.getAt user maxSeq
  | table r =>
    if r.mayContain user then
      match r.getAt user maxSeq with
      | .ok found => found
      | .error _ => none
    else none

/-- The source can answer every read: its keys are internal keys, and a table is
well formed and undamaged. -/
def Sound : Source → Prop
  | memtable m => ∀ entry ∈ m.entries, entry.Long
  | table r => r.WellFormed ∧ r.Healthy

theorem Sound.long {source : Source} (sound : source.Sound) {entry : Entry}
    (mem : entry ∈ source.entries) : entry.Long := by
  cases source with
  | memtable m => exact sound entry mem
  | table r => exact sound.1.long entry mem

/-- A sound source answers with its newest visible version. -/
theorem Sound.getAt_newestAt {source : Source} (sound : source.Sound) {user : Bytes}
    (unshadowed : UnshadowedFor source.entries user) (maxSeq : Nat) :
    NewestAt source.entries user maxSeq (source.getAt user maxSeq) := by
  cases source with
  | memtable m => exact lookupAt_newestAt m.sorted sound unshadowed maxSeq
  | table r =>
    obtain ⟨wellFormed, healthy⟩ := sound
    obtain ⟨result, answer, newest⟩ := r.getAt_newestAt healthy wellFormed unshadowed maxSeq
    simp only [getAt, entries]
    split
    · rw [answer]
      exact newest
    -- without the filter the table would have answered nothing as well
    rename_i absent
    rw [Reader.getAt, if_neg absent] at answer
    obtain rfl := Except.ok.inj answer
    exact newest

end Source

namespace DB

/-- The sources of a read, in the order in which `getAt` asks them. -/
def sources (db : DB) : List Source :=
  .memtable db.active :: db.immutables.map .memtable ++
    (db.l0 ++ (db.levels.drop 1).flatten).map .table

def getAt (db : DB) (user : Bytes) (maxSeq : Nat) : Option Value :=
  db.sources.findSome? (Source.getAt user maxSeq)

def currentSeq (db : DB) : Nat :=
  db.nextSeq

def get (db : DB) (user : Bytes) : Option Value :=
  db.getAt user db.currentSeq

/-- All versions that the engine holds. -/
def entries (db : DB) : List Entry :=
  db.sources.flatMap Source.entries

/-- Every source is sound and the sources are layered. -/
structure Readable (db : DB) : Prop where
  sound : ∀ source ∈ db.sources, source.Sound
  layered : Layered Source.entries db.sources

theorem Readable.getAt_newestAt {db : DB} (readable : db.Readable) {user : Bytes}
    (unshadowed : UnshadowedFor db.entries user) (maxSeq : Nat) :
    NewestAt db.entries user maxSeq (db.getAt user maxSeq) := by
  refine readable.layered.findSome?_newestAt Source.entries ?_
  intro source sourceMem
  refine (readable.sound source sourceMem).getAt_newestAt (unshadowed.mono ?_) maxSeq
  intro entry entryMem
  exact List.mem_flatMap.mpr ⟨source, sourceMem, entryMem⟩

end DB

structure Snapshot where
  db : DB
  seq : Nat

def DB.getSnapshot (db : DB) : Snapshot :=
  ⟨db, db.currentSeq⟩

def Snapshot.get (s : Snapshot) (user : Bytes) : Option Value :=
  s.db.getAt user s.seq

end Theseon
