import TrackFusion.Motion.Kalman
import TrackFusion.Time

/-!
# Motion over time

* `Dynamics`: how an estimate moves on, with a bound on the length of a step.
* `Estimate`: a filter and the time it is valid for.
* `Estimate.advance`: the estimate at a later time; a long way is gone in equal steps.
* `Estimate.at`: the filter at any time, for a look ahead that leaves the estimate as it is.
-/

namespace TrackFusion

/-- The dynamics of a state of size `n`. -/
structure Dynamics (n : Nat) (α : Type) where
  /-- The filter after one step of some seconds; nothing if that fails. -/
  step : α → Kalman n α → Option (Kalman n α)
  /-- The longest step, if positive. -/
  dtMax : α

/-- A filter and the time that it is valid for. -/
structure Estimate (n : Nat) (α : Type) where
  filter : Kalman n α
  time : Time α
  deriving BEq, DecidableEq

/-- Applies a partial function some number of times, until it fails. -/
def iterate {β : Type} (f : β → Option β) : Nat → β → Option β
  | 0, x => some x
  | n + 1, x => (f x).bind (iterate f n)

variable {α : Type} [Scalar α] {n : Nat}

namespace Dynamics

/-- How many equal steps a way of `dt` seconds takes. They can be counted in 64 bits as long as
`dt / d.dtMax` is below `2 ^ 64 - 1`. -/
def stepCount (d : Dynamics n α) (dt : α) : Nat :=
  if 0 < d.dtMax then Scalar.floor (dt / d.dtMax) + 1 else 1

/-- The filter after `dt` seconds. -/
def run (d : Dynamics n α) (dt : α) (f : Kalman n α) : Option (Kalman n α) :=
  let count := d.stepCount dt
  iterate (d.step (dt / (count : α))) count f

end Dynamics

namespace Estimate

/-- The estimate at a time that is not earlier; nothing if it is, or if a step fails. -/
def advance (e : Estimate n α) (d : Dynamics n α) (t : Time α) : Option (Estimate n α) :=
  let dt : α := t - e.time
  if dt < 0 then none else (d.run dt e.filter).map fun f => ⟨f, t⟩

/-- Ways of at most so many seconds are not worth a step. -/
def minHorizon : α := 0.001

/-- The filter as it will be at a time. For earlier times it is the present one. -/
def at? (e : Estimate n α) (d : Dynamics n α) (t : Time α) : Option (Kalman n α) :=
  let dt : α := t - e.time
  let dt := if dt < 0 then 0 else dt
  if minHorizon < dt then d.run dt e.filter else some e.filter

/-- The estimate corrected by a measurement of the time it is valid for; nothing if that fails. -/
def correct {m : Nat} (e : Estimate n α) (y : Vec m α) (c : Mat m n α) (r : Mat m m α) :
    Option (Estimate n α) :=
  (e.filter.correct y c r).toOption.map fun f => { e with filter := f }

/-- The estimate with another mean. -/
def mapMean (e : Estimate n α) (g : Vec n α → Vec n α) : Estimate n α :=
  { e with filter := { e.filter with mean := g e.filter.mean } }

end Estimate

/-- The longest step of the usual dynamics, in seconds. -/
def usualDtMax : α := 0.11

/-- Variance reported for what a motion does not estimate. -/
def unestimatedVariance : α := 0.1 * 0.1

/-- Metres per second of kilometres per hour. -/
def kilometresPerHour (v : α) : α := v * 1000.0 / 3600.0

end TrackFusion
