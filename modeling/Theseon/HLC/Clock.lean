import Theseon.HLC.Timestamp

/-!
# The hybrid logical clock

`Now` draws a timestamp for an event of the own node, `Update` moves the clock past
a timestamp that has been received, unless that timestamp is too far ahead.
-/

namespace Theseon.HLC

structure Clock where
  nodeID : Theseon.Lib.Bytes
  last : Timestamp
  maxDrift : Int64
  deriving DecidableEq, Repr

/-- The received timestamp is too far ahead. -/
inductive ClockError where
  | clockDrift
  deriving DecidableEq, Repr

namespace Clock

/-- A clock that has drawn nothing.  The default drift is one minute. -/
def new (nodeID : Theseon.Lib.Bytes) : Clock :=
  ⟨nodeID, .zero, 60000000000⟩

/-- Draw a timestamp when the physical clock reads `pt`. -/
def now (c : Clock) (pt : Int64) : Timestamp × Clock :=
  let drawn : Timestamp :=
    if c.last.wallTime < pt then ⟨pt, 0, c.nodeID⟩
    else ⟨c.last.wallTime, c.last.logical + 1, c.nodeID⟩
  (drawn, { c with last := drawn })

/-- The wall time after a timestamp has been received. -/
def mergedWall (c : Clock) (pt : Int64) (received : Timestamp) : Int64 :=
  let newWall := if pt < c.last.wallTime then c.last.wallTime else pt
  if newWall < received.wallTime then received.wallTime else newWall

/-- The counter that goes with the wall time. -/
def mergedLogical (c : Clock) (newWall : Int64) (received : Timestamp) : UInt32 :=
  if newWall = c.last.wallTime ∧ newWall = received.wallTime then
    (if c.last.logical < received.logical then received.logical else c.last.logical) + 1
  else if newWall = c.last.wallTime then c.last.logical + 1
  else if newWall = received.wallTime then received.logical + 1
  else 0

/-- Merge a received timestamp when the physical clock reads `pt`. -/
def update (c : Clock) (pt : Int64) (received : Timestamp) : Except ClockError Clock :=
  if 0 < c.maxDrift ∧ c.maxDrift < received.wallTime - pt then .error .clockDrift
  else
    let newWall := c.mergedWall pt received
    .ok { c with last := ⟨newWall, c.mergedLogical newWall received, c.nodeID⟩ }

end Clock

end Theseon.HLC
