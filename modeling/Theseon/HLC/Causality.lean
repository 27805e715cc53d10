import Theseon.HLC.Clock
import Theseon.Lib.Machine

/-!
# Causality of the hybrid logical clock

A session is a clock together with the record of what its calls have answered.  The
physical clock may read anything at each call, and anything may be received.  As
long as no call raises a counter that has reached its maximum, every timestamp that
`Now` draws is above everything drawn or accepted before.
-/

namespace Theseon.HLC

open Lib

namespace Timestamp

/-- The wall time and the counter, to be compared lexicographically. -/
def stamp (t : Timestamp) : Lex (Int × Nat) :=
  toLex (t.wallTime.toInt, t.logical.toNat)

variable {t u : Timestamp}

theorem stamp_lt_iff :
    t.stamp < u.stamp ↔
      t.wallTime.toInt < u.wallTime.toInt ∨
        t.wallTime.toInt = u.wallTime.toInt ∧ t.logical.toNat < u.logical.toNat :=
  Prod.Lex.toLex_lt_toLex

theorem stamp_le_iff :
    t.stamp ≤ u.stamp ↔
      t.wallTime.toInt < u.wallTime.toInt ∨
        t.wallTime.toInt = u.wallTime.toInt ∧ t.logical.toNat ≤ u.logical.toNat :=
  Prod.Lex.toLex_le_toLex

/-- The names of the nodes only decide between equal stamps. -/
theorem lt_of_stamp_lt (below : t.stamp < u.stamp) : t < u := by
  rw [lt_iff_key_lt, key, key, Prod.Lex.toLex_lt_toLex, Prod.Lex.toLex_lt_toLex]
  rcases stamp_lt_iff.mp below with wall | ⟨wall, logical⟩
  · exact .inl wall
  · exact .inr ⟨wall, .inl logical⟩

end Timestamp

/-- The largest value of a logical counter. -/
def maxLogical : UInt32 := 4294967295

/-- A counter below its maximum is raised without wrapping. -/
theorem toNat_add_one_of_ne_max {logical : UInt32} (below : logical ≠ maxLogical) :
    (logical + 1).toNat = logical.toNat + 1 := by
  have other : logical.toNat ≠ 4294967295 := fun same => below (UInt32.toNat_inj.mp same)
  have bound := logical.toNat_lt
  rw [UInt32.toNat_add]
  apply Nat.mod_eq_of_lt
  have one : UInt32.toNat 1 = 1 := rfl
  omega

namespace Clock

variable {c next : Clock} {pt : Int64} {received : Timestamp}

/-! ## One call -/

theorem stamp_lt_now (free : c.last.wallTime < pt ∨ c.last.logical ≠ maxLogical) :
    c.last.stamp < (c.now pt).1.stamp := by
  rw [Timestamp.stamp_lt_iff, now]
  dsimp only
  split
  · rename_i ahead
    exact .inl (Int64.lt_iff_toInt_lt.mp ahead)
  rename_i behind
  have raised := toNat_add_one_of_ne_max (free.resolve_left behind)
  exact .inr ⟨rfl, raised ▸ Nat.lt_succ_self _⟩

/-- The merged wall time is the greatest of the three. -/
theorem le_mergedWall :
    c.last.wallTime ≤ c.mergedWall pt received ∧ received.wallTime ≤ c.mergedWall pt received := by
  simp only [mergedWall, Int64.le_iff_toInt_le]
  split
  · split <;> rename_i behind ahead <;> rw [Int64.lt_iff_toInt_lt] at behind ahead <;> omega
  · split <;> rename_i behind ahead <;> rw [Int64.lt_iff_toInt_lt] at behind ahead <;> omega

/-- The counters that would be raised are below their maximum. -/
structure MergesFreely (c : Clock) (pt : Int64) (received : Timestamp) : Prop where
  last : c.mergedWall pt received = c.last.wallTime → c.last.logical ≠ maxLogical
  received : c.mergedWall pt received = received.wallTime → received.logical ≠ maxLogical

instance mergesFreelyDecidable : Decidable (c.MergesFreely pt received) :=
  decidable_of_iff
    ((c.mergedWall pt received = c.last.wallTime → c.last.logical ≠ maxLogical) ∧
      (c.mergedWall pt received = received.wallTime → received.logical ≠ maxLogical))
    ⟨fun both => ⟨both.1, both.2⟩, fun free => ⟨free.last, free.received⟩⟩

/-- The merged counter is above the counter of each side that has the merged wall
time. -/
theorem le_mergedLogical (free : c.MergesFreely pt received) :
    (c.mergedWall pt received = c.last.wallTime →
      c.last.logical.toNat ≤ (c.mergedLogical (c.mergedWall pt received) received).toNat) ∧
    (c.mergedWall pt received = received.wallTime →
      received.logical.toNat ≤ (c.mergedLogical (c.mergedWall pt received) received).toNat) := by
  rw [mergedLogical]
  split
  · rename_i both
    have ownRaised := toNat_add_one_of_ne_max (free.last both.1)
    have receivedRaised := toNat_add_one_of_ne_max (free.received both.2)
    split
    · rename_i smaller
      rw [UInt32.lt_iff_toNat_lt] at smaller
      omega
    rename_i larger
    rw [UInt32.lt_iff_toNat_lt] at larger
    omega
  rename_i notBoth
  split
  · rename_i own
    rw [toNat_add_one_of_ne_max (free.last own)]
    exact ⟨fun _ => Nat.le_succ _, fun other => absurd ⟨own, other⟩ notBoth⟩
  rename_i notOwn
  split
  · rename_i other
    rw [toNat_add_one_of_ne_max (free.received other)]
    exact ⟨fun own => absurd own notOwn, fun _ => Nat.le_succ _⟩
  · rename_i notOther
    exact ⟨fun own => absurd own notOwn, fun other => absurd other notOther⟩

/-- A stamp is not above a later wall time, nor above the same with a larger
counter. -/
theorem stamp_le_of_wall {t u : Timestamp} (wall : t.wallTime ≤ u.wallTime)
    (logical : u.wallTime = t.wallTime → t.logical.toNat ≤ u.logical.toNat) :
    t.stamp ≤ u.stamp := by
  rw [Timestamp.stamp_le_iff]
  rcases Int.lt_or_eq_of_le (Int64.le_iff_toInt_le.mp wall) with earlier | same
  · exact .inl earlier
  · exact .inr ⟨same, logical (Int64.toInt_inj.mp same.symm)⟩

/-- An accepted timestamp is not too far ahead. -/
theorem near_of_update (accepted : c.update pt received = .ok next) :
    ¬(0 < c.maxDrift ∧ c.maxDrift < received.wallTime - pt) := by
  intro far
  rw [update, if_pos far] at accepted
  cases accepted

/-- An accepted timestamp moves the clock past itself and never back. -/
theorem stamp_le_update (free : c.MergesFreely pt received)
    (accepted : c.update pt received = .ok next) :
    c.last.stamp ≤ next.last.stamp ∧ received.stamp ≤ next.last.stamp := by
  have near := near_of_update accepted
  rw [update, if_neg near] at accepted
  cases accepted
  rcases @le_mergedWall c pt received with ⟨ownWall, receivedWall⟩
  rcases le_mergedLogical free with ⟨ownLogical, receivedLogical⟩
  exact ⟨stamp_le_of_wall ownWall ownLogical, stamp_le_of_wall receivedWall receivedLogical⟩

end Clock

/-! ## Sessions -/

/-- A call together with what the physical clock reads during it. -/
inductive Call where
  | now (pt : Int64)
  | update (pt : Int64) (received : Timestamp)
  deriving DecidableEq, Repr

/-- What a call has answered. -/
inductive Event where
  | drawn (t : Timestamp)
  | accepted (received : Timestamp)
  | refused (received : Timestamp)
  deriving DecidableEq, Repr

/-- The timestamps that a later draw has to exceed. -/
def Event.bounds : Event → Option Timestamp
  | .drawn t => some t
  | .accepted received => some received
  | .refused _ => none

/-- A clock and the record of its calls, newest first. -/
structure Session where
  clock : Clock
  events : List Event
  deriving DecidableEq, Repr

namespace Session

/-- No call has been made yet. -/
def start (clock : Clock) : Session :=
  ⟨clock, []⟩

def call (s : Session) : Call → Session
  | .now pt => ⟨(s.clock.now pt).2, .drawn (s.clock.now pt).1 :: s.events⟩
  | .update pt received =>
    match s.clock.update pt received with
    | .ok next => ⟨next, .accepted received :: s.events⟩
    | .error _ => { s with events := .refused received :: s.events }

/-- Every call can be made at any time. -/
def step (s : Session) (c : Call) : Option Session :=
  some (s.call c)

/-- Everything drawn is above what was drawn or accepted before it. -/
def Causal (s : Session) : Prop :=
  ∀ later t past, s.events = later ++ .drawn t :: past →
    ∀ event ∈ past, ∀ u ∈ event.bounds, u.less t = true

/-- The call does not raise a counter that has reached its maximum: `Now` finds the
physical clock ahead or the counter below, and a received timestamp is too far ahead
to be merged or meets counters below. -/
def RaisesFreely (s : Session) : Call → Prop
  | .now pt => s.clock.last.wallTime < pt ∨ s.clock.last.logical ≠ maxLogical
  | .update pt received =>
    (0 < s.clock.maxDrift ∧ s.clock.maxDrift < received.wallTime - pt) ∨
      s.clock.MergesFreely pt received

instance raisesFreelyDecidable : ∀ s c, Decidable (RaisesFreely s c)
  | _, .now _ => inferInstanceAs (Decidable (_ ∨ _))
  | _, .update _ _ => inferInstanceAs (Decidable (_ ∨ _))

/-- The clock is not behind anything drawn or accepted. -/
structure Ahead (s : Session) : Prop where
  clock : ∀ event ∈ s.events, ∀ u ∈ event.bounds, u.stamp ≤ s.clock.last.stamp
  causal : s.Causal

theorem ahead_start (clock : Clock) : (start clock).Ahead where
  clock event among := by cases among
  causal later t past split := by
    cases later <;> cases split

variable {s : Session}

/-- An event that draws nothing keeps the record causal. -/
theorem Causal.cons (causal : s.Causal) {clock : Clock} {event : Event}
    (fresh : ∀ t, event = .drawn t → ∀ earlier ∈ s.events, ∀ u ∈ earlier.bounds,
      u.less t = true) : Causal ⟨clock, event :: s.events⟩ := by
  intro later t past split
  cases later with
  | nil =>
    cases split
    exact fresh t rfl
  | cons head later =>
    exact causal later t past (List.cons.inj split).2

theorem Ahead.now (ahead : s.Ahead) {pt : Int64} (free : s.RaisesFreely (.now pt)) :
    (s.call (.now pt)).Ahead := by
  have drawnAbove : s.clock.last.stamp < (s.clock.now pt).1.stamp := Clock.stamp_lt_now free
  constructor
  · intro event among u bound
    rcases List.mem_cons.mp among with rfl | among
    · cases bound
      exact le_refl _
    · exact (ahead.clock event among u bound).trans drawnAbove.le
  · apply ahead.causal.cons
    rintro t ⟨⟩ earlier among u bound
    rw [Timestamp.less_iff_lt]
    exact Timestamp.lt_of_stamp_lt ((ahead.clock earlier among u bound).trans_lt drawnAbove)

theorem Ahead.update (ahead : s.Ahead) {pt : Int64} {received : Timestamp}
    (free : s.RaisesFreely (.update pt received)) : (s.call (.update pt received)).Ahead := by
  rw [call]
  split
  · rename_i next accepted
    rcases Clock.stamp_le_update (free.resolve_left (Clock.near_of_update accepted)) accepted with
      ⟨forward, past⟩
    constructor
    · intro event among u bound
      rcases List.mem_cons.mp among with rfl | among
      · cases bound
        exact past
      · exact (ahead.clock event among u bound).trans forward
    · apply ahead.causal.cons
      rintro t ⟨⟩
  constructor
  · intro event among u bound
    rcases List.mem_cons.mp among with rfl | among
    · cases bound
    · exact ahead.clock event among u bound
  · apply ahead.causal.cons
    rintro t ⟨⟩

/-- In a session whose calls never raise a counter at its maximum, every drawn
timestamp is above everything drawn or accepted before it. -/
theorem causal_of_raisesFreely {clock : Clock}
    (reached : Reached step RaisesFreely (start clock) s) : s.Causal := by
  have ahead : s.Ahead := by
    apply reached.invariant Ahead (ahead_start clock)
    intro state next action ahead free stepped
    cases stepped
    cases action with
    | now pt => exact ahead.now free
    | update pt received => exact ahead.update free
  exact ahead.causal

/-- A physical clock that stands still, then falls behind a received timestamp. -/
theorem standing_clock_draws_upwards :
    ∃ s : Session,
      Reached step RaisesFreely (start (.new [97])) s ∧ s.Causal ∧
        s.events = [.drawn ⟨9, 5, [97]⟩, .accepted ⟨9, 3, [98]⟩, .drawn ⟨5, 1, [97]⟩,
          .drawn ⟨5, 0, [97]⟩] := by
  have evaluated : runAllowed step RaisesFreely (start (.new [97]))
      [.now 5, .now 5, .update 4 ⟨9, 3, [98]⟩, .now 3] =
        some ⟨⟨[97], ⟨9, 5, [97]⟩, 60000000000⟩,
          [.drawn ⟨9, 5, [97]⟩, .accepted ⟨9, 3, [98]⟩, .drawn ⟨5, 1, [97]⟩,
            .drawn ⟨5, 0, [97]⟩]⟩ := by
    decide +kernel
  have reached := Reached.start.runAllowed evaluated
  exact ⟨_, reached, causal_of_raisesFreely reached, rfl⟩

/-- A received counter at its maximum wraps when it is raised, and the next draw is
below the timestamp that was accepted. -/
theorem wrapped_counter_draws_below :
    ∃ s : Session,
      run step (start (.new [97])) [.update 0 ⟨1, maxLogical, [98]⟩, .now 0] = some s ∧
        s.events = [.drawn ⟨1, 1, [97]⟩, .accepted ⟨1, maxLogical, [98]⟩] ∧ ¬s.Causal := by
  refine ⟨_, rfl, by decide +kernel, ?_⟩
  intro causal
  have above := causal [] ⟨1, 1, [97]⟩ [.accepted ⟨1, maxLogical, [98]⟩] (by decide +kernel) _
    (List.mem_singleton.mpr rfl) _ rfl
  revert above
  decide +kernel

end Session

end Theseon.HLC
