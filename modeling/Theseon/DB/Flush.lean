import Theseon.DB.Read

/-!
# Flushing a memtable

A flush writes the entries of the oldest immutable memtable to an L0 table that
carries the identifier of the memtable.  The entries pass through an iterator,
so a nil value is written as a tombstone.
-/

namespace Theseon

open Lib KV SSTable

/-- The loop of `flushMemtable`. -/
def addAll : Builder → List Entry → Except BuildError Builder
  | b, [] => .ok b
  | b, entry :: rest =>
    match b.add entry.key entry.value.viaIterator with
    | .error err => .error err
    | .ok next => addAll next rest

/-- The table that `flushMemtable` writes. -/
def flushTable (opts : Options) (mt : Memtable) : Except BuildError Reader :=
  match addAll (Builder.new mt.id opts.blockSize) mt.entries with
  | .error err => .error err
  | .ok builder => builder.finish

namespace DB

/-- The memory part of `flushMemtable`: the table becomes the newest one of L0 and
the oldest immutable memtable is dropped. -/
def installFlushed (db : DB) (table : Reader) : DB :=
  { db with l0 := table :: db.l0, immutables := db.immutables.dropLast }

/-- A flush of the oldest immutable memtable that runs to its end.  If the table
cannot be built the memtable stays. -/
def flush (opts : Options) (db : DB) : Option DB :=
  match db.immutables.getLast? with
  | none => none
  | some mt =>
    match flushTable opts mt with
    | .error _ => none
    | .ok table => some (db.installFlushed table)

end DB

/-- What a flush writes for an entry. -/
def flushedEntry (entry : Entry) : Entry :=
  ⟨entry.key, entry.value.viaIterator⟩

theorem flushedEntry_of_clean {entry : Entry} (clean : entry.value.Clean) :
    flushedEntry entry = entry := by
  rw [flushedEntry, clean.viaIterator_eq]

variable {entries : List Entry} {opts : Options}

theorem map_flushedEntry (clean : ∀ entry ∈ entries, entry.value.Clean) :
    entries.map flushedEntry = entries := by
  rw [List.map_congr_left fun entry mem => flushedEntry_of_clean (clean entry mem), List.map_id']

theorem addAll_eq_ok {b final : Builder} (sound : b.Sound) (long : ∀ entry ∈ entries, entry.Long)
    (done : addAll b entries = .ok final) :
    final.Sound ∧ final.contents = b.contents ++ entries.map flushedEntry := by
  induction entries generalizing b with
  | nil =>
    cases done
    exact ⟨sound, by simp⟩
  | cons entry rest ih =>
    rw [addAll] at done
    split at done
    · cases done
    rename_i next added
    have nextSound := sound.add (long entry (by simp)) added
    rcases Builder.add_eq_ok added with ⟨_, contents, _⟩
    rw [(Value.clean_viaIterator _).stored_eq] at contents
    rcases ih nextSound (fun later mem => long later (List.mem_cons_of_mem _ mem)) done with
      ⟨finalSound, finalContents⟩
    refine ⟨finalSound, ?_⟩
    rw [finalContents, contents, List.map_cons, List.append_assoc]
    rfl

theorem addAll_id {b final : Builder} (done : addAll b entries = .ok final) : final.id = b.id := by
  induction entries generalizing b with
  | nil =>
    cases done
    rfl
  | cons entry rest ih =>
    rw [addAll] at done
    split at done
    · cases done
    rename_i next added
    rcases Builder.add_eq_ok added with ⟨_, _, _, _, _, id, _⟩
    exact (ih done).trans id

/-- The flushed table carries the identifier of its memtable. -/
theorem flushTable_id {mt : Memtable} {table : Reader} (done : flushTable opts mt = .ok table) :
    table.id = mt.id := by
  rw [flushTable] at done
  split at done
  · cases done
  rename_i builder added
  rw [Builder.finish_id done, addAll_id added]
  rfl

/-- The flushed table holds what the memtable held. -/
theorem flushTable_eq_ok {mt : Memtable} {table : Reader} (long : ∀ entry ∈ mt.entries, entry.Long)
    (done : flushTable opts mt = .ok table) :
    table.entries = mt.entries.map flushedEntry ∧ table.WellFormed ∧ table.Healthy := by
  rw [flushTable] at done
  split at done
  · cases done
  rename_i builder added
  rcases addAll_eq_ok (Builder.new_sound _ _) long added with ⟨sound, contents⟩
  rcases Builder.finish_eq_ok sound done with ⟨entries, wellFormed, healthy⟩
  refine ⟨?_, wellFormed, healthy⟩
  rw [entries, contents]
  rfl

/-- What a flush does, if it happens. -/
theorem DB.flush_eq_some {db next : DB} (flushed : db.flush opts = some next) :
    ∃ older mt table, db.immutables = older ++ [mt] ∧ flushTable opts mt = .ok table ∧
      next = { db with l0 := table :: db.l0, immutables := older } := by
  rw [flush] at flushed
  split at flushed
  · cases flushed
  rename_i mt found
  split at flushed
  · cases flushed
  rename_i table built
  have split : db.immutables = db.immutables.dropLast ++ [mt] := by
    rw [List.dropLast_append_getLast?]
    exact found
  cases flushed
  exact ⟨_, mt, table, split, built, rfl⟩

end Theseon
