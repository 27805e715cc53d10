import Theseon.Compaction.Picker
import Theseon.Iterator.MergeErrors
import Theseon.Lib.Outcome
import Theseon.SSTable.Iterator

/-!
# Executing a compaction

`execute` merges all input tables and writes the merged entries into new tables,
closing a table once it has reached the target size.  The identifiers of the new
tables are an argument, because other parts of the engine draw from the same
counter while the compaction runs.

A successful compaction writes exactly what its merge emitted, in order.
-/

namespace Theseon.Compaction

open Lib KV SSTable Iterator

inductive ExecuteError where
  | addKey (err : BuildError)
  | finishTable (id : Nat) (err : BuildError)
  | mergeIterate (err : ReadError)
  deriving DecidableEq, Repr

/-- The value of a merged pair: a nil value is written as a tombstone. -/
def mergedValue (value : Option Bytes) : Value :=
  match value with
  | none => .newTombstone
  | some data => .new (some data)

/-- The parameters of `Execute` apart from the task. -/
structure ExecuteOptions where
  blockSize : Int
  targetFileSize : Int
  /-- `ids n` is the identifier of the `n`-th table. -/
  ids : Nat → Nat

/-- The tables written so far and the one being written. -/
structure Output where
  tables : List Reader
  builder : Option Builder

namespace Output

/-- No table has been started. -/
def empty : Output :=
  ⟨[], none⟩

def finishCurrentBuilder (out : Output) : Except ExecuteError Output :=
  match out.builder with
  | none => .ok out
  | some builder =>
    match builder.finish with
    | .error err => .error (.finishTable builder.id err)
    | .ok table => .ok ⟨out.tables ++ [table], none⟩

/-- The table being written; `startNewBuilder` if there is none. -/
def current (opts : ExecuteOptions) (out : Output) : Builder :=
  out.builder.getD (Builder.new (opts.ids out.tables.length) opts.blockSize)

/-- One round of the loop of `Execute` for a merged pair. -/
def write (opts : ExecuteOptions) (out : Output) (pair : Bytes × Option Bytes) :
    Except ExecuteError Output :=
  match (out.current opts).add pair.1 (mergedValue pair.2) with
  | .error err => .error (.addKey err)
  | .ok builder =>
    let out := { out with builder := some builder }
    -- the size is compared as `uint64`
    if opts.targetFileSize % 2 ^ 64 ≤ builder.estimatedSize then out.finishCurrentBuilder
    else .ok out

end Output

/-- The loop of `Execute`, with `fuel` an upper bound on its rounds. -/
def executeLoop (opts : ExecuteOptions) :
    Nat → MergeIterator SSTableIterator ReadError → Output →
      Except ExecuteError (MergeIterator SSTableIterator ReadError × Output)
  | 0, merge, out => .ok (merge, out)
  | fuel + 1, merge, out =>
    if merge.valid then
      match out.write opts (Iter.key merge, Iter.value merge) with
      | .error err => .error err
      | .ok out => executeLoop opts fuel merge.step out
    else .ok (merge, out)

/-- The merge of a task: the tables of the input level come first. -/
def CompactionTask.merge (task : CompactionTask) : MergeIterator SSTableIterator ReadError :=
  .new (task.allInputs.map Reader.scan)

/-- The number of entries of all input tables. -/
def CompactionTask.size (task : CompactionTask) : Nat :=
  (task.allInputs.map fun r => r.entries.length).sum

/-- `Execute`: the new tables. -/
def execute (opts : ExecuteOptions) (task : CompactionTask) : Except ExecuteError (List Reader) :=
  match executeLoop opts task.size task.merge .empty with
  | .error err => .error err
  | .ok (merge, out) =>
    match merge.err with
    | some err => .error (.mergeIterate err)
    | none => out.finishCurrentBuilder.map Output.tables

/-! ## Writing a list of pairs -/

/-- The loop of `Execute` over the pairs that the merge emits. -/
def writeAll (opts : ExecuteOptions) :
    Output → List (Bytes × Option Bytes) → Except ExecuteError Output
  | out, [] => .ok out
  | out, pair :: rest =>
    match out.write opts pair with
    | .error err => .error err
    | .ok out => writeAll opts out rest

/-- The loop writes what the merge emits and leaves the merge at its end. -/
theorem executeLoop_eq (opts : ExecuteOptions) {fuel : Nat}
    {merge : MergeIterator SSTableIterator ReadError} {emitted : List (Bytes × Option Bytes)}
    {final : Option ReadError} (drains : Drains merge emitted final)
    (enough : emitted.length ≤ fuel) (out : Output) :
    executeLoop opts fuel merge out =
      (writeAll opts out emitted).map fun written => (merge.after emitted.length, written) := by
  induction drains generalizing fuel out with
  | @stop merge invalid =>
    have stopped : merge.valid = false := invalid
    cases fuel with
    | zero => rfl
    | succ fuel =>
      simp only [executeLoop, stopped, Bool.false_eq_true, if_false]
      rfl
  | @step merge rest final valid drains ih =>
    have going : merge.valid = true := valid
    cases fuel with
    | zero => simp at enough
    | succ fuel =>
      simp only [executeLoop, going, if_true, writeAll]
      cases out.write opts (Iter.key merge, Iter.value merge) with
      | error err => rfl
      | ok next =>
        simp only [List.length_cons, MergeIterator.after_succ']
        exact ih (by simpa using enough) next

/-! ## The identifiers of the new tables -/

/-- The tables carry the identifiers in the order in which they were drawn. -/
structure Output.Numbered (opts : ExecuteOptions) (out : Output) : Prop where
  tables : out.tables.map Reader.id = (List.range out.tables.length).map opts.ids
  builder : ∀ b, out.builder = some b → b.id = opts.ids out.tables.length

namespace Output

variable {opts : ExecuteOptions} {out next : Output}

theorem empty_numbered (opts : ExecuteOptions) : Numbered opts empty :=
  ⟨rfl, fun _ started => nomatch started⟩

theorem Numbered.current (numbered : out.Numbered opts) :
    (out.current opts).id = opts.ids out.tables.length := by
  cases started : out.builder with
  | none =>
    rw [Output.current, started]
    rfl
  | some b =>
    rw [Output.current, started]
    exact numbered.builder b started

theorem Numbered.finishCurrentBuilder (numbered : out.Numbered opts)
    (done : out.finishCurrentBuilder = .ok next) : next.Numbered opts := by
  rw [Output.finishCurrentBuilder] at done
  split at done
  · cases done
    exact numbered
  rename_i builder started
  split at done
  · cases done
  rename_i table finished
  cases done
  constructor
  · have id : table.id = opts.ids out.tables.length :=
      (Builder.finish_id finished).trans (numbered.builder builder started)
    simp [numbered.tables, List.range_succ, id]
  · intro b restarted
    cases restarted

theorem Numbered.write (numbered : out.Numbered opts) {pair : Bytes × Option Bytes}
    (done : out.write opts pair = .ok next) : next.Numbered opts := by
  rw [Output.write] at done
  split at done
  · cases done
  rename_i added addEq
  have grown : ({ out with builder := some added } : Output).Numbered opts := by
    constructor
    · exact numbered.tables
    · intro b isAdded
      cases isAdded
      rcases Builder.add_eq_ok addEq with ⟨_, _, _, _, _, addedId, _⟩
      exact addedId.trans numbered.current
  simp only at done
  split at done
  · exact grown.finishCurrentBuilder done
  · cases done
    exact grown

end Output

theorem executeLoop_numbered {opts : ExecuteOptions} {fuel : Nat}
    {merge final : MergeIterator SSTableIterator ReadError} {out next : Output}
    (numbered : out.Numbered opts) (done : executeLoop opts fuel merge out = .ok (final, next)) :
    next.Numbered opts := by
  induction fuel generalizing merge out with
  | zero =>
    cases done
    exact numbered
  | succ fuel ih =>
    rw [executeLoop] at done
    split at done
    · split at done
      · cases done
      · rename_i written wrote
        exact ih (numbered.write wrote) done
    · cases done
      exact numbered

/-- The new tables carry the identifiers that were drawn, in order. -/
theorem execute_ids {opts : ExecuteOptions} {task : CompactionTask} {tables : List Reader}
    (done : execute opts task = .ok tables) :
    tables.map Reader.id = (List.range tables.length).map opts.ids := by
  rw [execute] at done
  split at done
  · cases done
  rename_i merge out looped
  split at done
  · cases done
  rcases map_eq_ok.mp done with ⟨last, finished, rfl⟩
  have numbered := executeLoop_numbered (Output.empty_numbered opts) looped
  exact (numbered.finishCurrentBuilder finished).tables

end Theseon.Compaction
