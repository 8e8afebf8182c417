import TrackFusion.Input.Settings
import TrackFusion.Object.Detection

/-!
# Input streams

The batches of one channel wait in a queue, in the order in which they arrived. If there are too
many, the oldest arrival goes.

* `Stream.push`: a batch arrives.
* `Stream.release`: the batches whose stamps lie in a window leave.
* `Stream.health`: how punctual the channel is.
-/

namespace TrackFusion

/-- Smoothed timing of a channel, in seconds. -/
structure Timing (α : Type) where
  latencyMean : α
  latencyVar : α
  intervalMean : α
  intervalVar : α

/-- How punctual a channel is at some time. -/
structure Health (α : Type) where
  name : String
  queued : Nat
  timing : Timing α
  /-- Age of the newest measurement. -/
  measurementAge? : Option α
  /-- Time since a batch last arrived. -/
  arrivalAge? : Option α
  /-- Nothing has arrived yet, or not for longer than usual. -/
  isDelayed : Bool

/-- When the newest batch was measured and when it arrived. -/
structure Arrival (α : Type) where
  measured : Time α
  received : Time α

structure Stream (α : Type) where
  index : Nat
  settings : ChannelSettings α
  queue : List (Batch α)
  timing : Timing α
  latest? : Option (Arrival α)
  /-- Whether the channel was last reported as delayed. -/
  reportedDelay : Bool

variable {α : Type} [Scalar α]

namespace Timing

/-- Weight of a new value in the statistics. -/
def gain : α := 0.05

/-- Takes a new value into a mean and a variance. -/
def smooth (mean var x : α) : α × α :=
  let mean := (1.0 - gain) * mean + gain * x
  let d := x - mean
  (mean, (1.0 - gain) * var + gain * d * d)

def initial (expectedRate : α) : Timing α where
  latencyMean := 0.10
  latencyVar := 0
  intervalMean := if 0 < expectedRate then 1.0 / expectedRate else 0
  intervalVar := 0

/-- After a time between two arrivals. -/
def addInterval (t : Timing α) (interval : α) : Timing α :=
  let (mean, var) := smooth t.intervalMean t.intervalVar interval
  { t with intervalMean := mean, intervalVar := var }

/-- After a time from measurement to arrival. -/
def addLatency (t : Timing α) (latency : α) : Timing α :=
  let (mean, var) := smooth t.latencyMean t.latencyVar latency
  { t with latencyMean := mean, latencyVar := var }

/-- Deviations by which an interval may exceed the mean. -/
def tolerance : α := 3.0

/-- Longer silence counts as a delay. -/
def patience (t : Timing α) : α := t.intervalMean + tolerance * Scalar.sqrt t.intervalVar

end Timing

namespace Stream

def ofSettings (index : Nat) (s : ChannelSettings α) : Stream α where
  index := index
  settings := s
  queue := []
  timing := .initial s.expectedRate
  latest? := none
  reportedDelay := false

/-- How many batches may wait; there is always room for one. -/
def capacity (s : Stream α) : Nat := Nat.max s.settings.queueSize 1

/-- A batch arrives at the time `now`. The oldest arrivals beyond the capacity are evicted. -/
def push (s : Stream α) (b : Batch α) (now : Time α) : Stream α :=
  let queue := s.queue ++ [{ b with channel := s.index }]
  let timing :=
    match s.latest? with
    | some last => s.timing.addInterval (now - last.received)
    | none => s.timing
  { s with
    queue := queue.drop (queue.length - s.capacity)
    timing := timing.addLatency (now - b.stamp)
    latest? := some ⟨b.stamp, now⟩ }

/-- Whether a batch was measured before a window. -/
def isStale (oldest : Time α) (b : Batch α) : Bool := decide (b.stamp < oldest)

/-- Whether a batch was measured in a window. -/
def isDue (oldest latest : Time α) (b : Batch α) : Bool :=
  !isStale oldest b && decide (b.stamp ≤ latest)

/-- Takes out the batches that were measured in a window. Those from before it are discarded, and
those from after it stay. -/
def release (s : Stream α) (oldest latest : Time α) : List (Batch α) × Stream α :=
  (s.queue.filter (isDue oldest latest),
    { s with queue := s.queue.filter fun b => !isStale oldest b && !isDue oldest latest b })

def health (s : Stream α) (now : Time α) : Health α :=
  let age? := s.latest?.map fun a => now - a.received
  { name := s.settings.longName
    queued := s.queue.length
    timing := s.timing
    measurementAge? := s.latest?.map fun a => now - a.measured
    arrivalAge? := age?
    isDelayed :=
      match age? with
      | none => true
      | some age => decide (s.timing.patience < age) }

end Stream

end TrackFusion
