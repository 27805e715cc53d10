import Theseon.SSTable.Builder

/-!
# Picking a compaction

`pickCompaction` takes all L0 tables when there are enough of them, and
otherwise the first table of the first level that has outgrown its target.
Overlaps with the output level are decided on user keys.
-/

namespace Theseon.Compaction

open Lib KV SSTable

structure Config where
  l0CompactionTrigger : Int
  levelSizeBase : Int
  levelSizeMultiplier : Int
  maxLevels : Int
  deriving DecidableEq, Repr

def defaultConfig : Config where
  l0CompactionTrigger := 4
  levelSizeBase := 256 * 1024 * 1024
  levelSizeMultiplier := 10
  maxLevels := 7

/-- The value of an `int64` computation. -/
def wrapInt64 (x : Int) : Int :=
  x.bmod (2 ^ 64)

structure CompactionTask where
  inputLevel : Nat
  outputLevel : Nat
  inputs : List Reader
  overlapping : List Reader
  minKey : Bytes
  maxKey : Bytes

def CompactionTask.allInputs (task : CompactionTask) : List Reader :=
  task.inputs ++ task.overlapping

/-- `LevelState`: `levels` is indexed by level number and its entry 0 is unused. -/
structure LevelState where
  l0 : List Reader
  levels : List (List Reader)

/-- The tables of a level, none for a level that does not exist. -/
def LevelState.level (state : LevelState) (level : Nat) : List Reader :=
  state.levels.getD level []

def LevelState.levelSize (state : LevelState) (level : Nat) : Nat :=
  if level = 0 then 0 else ((state.level level).map Reader.fileSize).sum

/-- `keyRange`: the bounds found so far are nil at first. -/
def keyRange (handles : List Reader) : Option Bytes × Option Bytes :=
  handles.foldl
    (fun range h =>
      (match range.1 with
        | none => some h.firstKey
        | some minKey => if h.firstKey < minKey then some h.firstKey else some minKey,
       match range.2 with
        | none => some h.lastKey
        | some maxKey => if maxKey < h.lastKey then some h.lastKey else some maxKey))
    (none, none)

/-- The test of `findOverlapping`, on user keys. -/
def overlaps (minKey maxKey : Bytes) (h : Reader) : Bool :=
  userKey h.firstKey ≤ userKey maxKey ∧ userKey minKey ≤ userKey h.lastKey

def findOverlapping (level : List Reader) (minKey maxKey : Bytes) : List Reader :=
  level.filter (overlaps minKey maxKey)

def pickL0Compaction (state : LevelState) : Option CompactionTask :=
  if state.l0 = [] then none
  else
    let range := keyRange state.l0
    let minKey := range.1.getD []
    let maxKey := range.2.getD []
    some
      { inputLevel := 0
        outputLevel := 1
        inputs := state.l0
        overlapping := findOverlapping (state.level 1) minKey maxKey
        minKey := minKey
        maxKey := maxKey }

def pickLevelCompaction (state : LevelState) (level : Nat) : Option CompactionTask :=
  match state.level level with
  | [] => none
  | input :: _ =>
    some
      { inputLevel := level
        outputLevel := level + 1
        inputs := [input]
        overlapping := findOverlapping (state.level (level + 1)) input.firstKey input.lastKey
        minKey := input.firstKey
        maxKey := input.lastKey }

/-- The loop of `PickCompaction` over the levels, with `fuel` the number of
levels not yet visited. -/
def pickLevels (state : LevelState) (cfg : Config) : Nat → Nat → Int → Option CompactionTask
  | 0, _, _ => none
  | fuel + 1, level, levelTarget =>
    if levelTarget < state.levelSize level then pickLevelCompaction state level
    else pickLevels state cfg fuel (level + 1) (wrapInt64 (levelTarget * cfg.levelSizeMultiplier))

def pickCompaction (state : LevelState) (cfg : Config) : Option CompactionTask :=
  if cfg.l0CompactionTrigger ≤ state.l0.length then pickL0Compaction state
  else pickLevels state cfg (cfg.maxLevels - 2).toNat 1 cfg.levelSizeBase

end Theseon.Compaction
