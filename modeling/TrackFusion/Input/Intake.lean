import TrackFusion.Decimal.Rounding
import TrackFusion.Input.Stream
import TrackFusion.Log

/-!
# Intake

All streams of a tracker. At each cycle it releases the batches inside a window of ages, in the
order of their stamps, and reports channels that have fallen silent or come back.

* `Intake.push`: a batch arrives on a channel.
* `Intake.window`: from when to when batches are released.
* `Intake.release`: one cycle.
* `DelayReport`: what is reported about a channel.
-/

namespace TrackFusion

/-- A change in the punctuality of a channel. -/
inductive DelayReport (α : Type) where
  /-- Nothing has arrived for too many seconds. -/
  | delayed (name : String) (age : α)
  | recovered (name : String)
  deriving DecidableEq

def DelayReport.record : DelayReport Float → LogRecord
  | delayed name age =>
    ⟨.warning, name ++ " is delayed, last message " ++ Decimal.fixed 3 age ++ "s ago"⟩
  | recovered name => ⟨.info, name ++ " is back on time"⟩

structure Intake (α : Type) where
  streams : List (Stream α)
  settings : WindowSettings α
  /-- Stamp of the newest batch released so far. -/
  latest : Time α

/-- What one cycle releases. -/
structure Release (α : Type) where
  batches : List (Batch α)
  reports : List (DelayReport α)

variable {α : Type} [Scalar α]

/-- What there is to report about a stream, and the stream that remembers it. A channel on which
nothing has arrived yet is not reported. -/
def Stream.reportDelay (s : Stream α) (now : Time α) : Option (DelayReport α) × Stream α :=
  let h := s.health now
  match h.arrivalAge? with
  | none => (none, s)
  | some age =>
    let report :=
      if s.reportedDelay = h.isDelayed then none
      else if h.isDelayed then some (.delayed h.name age)
      else some (.recovered h.name)
    (report, { s with reportedDelay := h.isDelayed })

namespace Intake

/-- The streams of some channels, at least one. -/
def ofSettings (channels : List (ChannelSettings α)) (window : WindowSettings α) (now : Time α) :
    Except Error (Intake α) :=
  match channels with
  | [] => throw .noInputStreams
  | _ => return ⟨channels.mapIdx Stream.ofSettings, window, now⟩

/-- A batch arrives on a channel, if there is such a channel. -/
def push? (m : Intake α) (channel : Nat) (b : Batch α) (now : Time α) : Option (Intake α) :=
  (m.streams[channel]?).map fun s => { m with streams := m.streams.set channel (s.push b now) }

/-- Whether the first channel has something to release. -/
def isReady (m : Intake α) : Bool :=
  match m.streams with
  | [] => false
  | s :: _ => !s.queue.isEmpty

/-- The first and the last stamp that are released. Nothing from before the newest batch released so
far is. -/
def window (m : Intake α) (now : Time α) : Time α × Time α :=
  ((now - m.settings.acceptableLatency).later m.latest, now - m.settings.targetLatency)

/-- Whether a batch may stand before another one in a release. -/
def precedes (a b : Batch α) : Bool := Scalar.order a.stamp.seconds b.stamp.seconds != .gt

/-- Releases the batches in the window, sorted by stamp; of equal stamps, those of earlier channels
and of earlier arrival come first. -/
def release (m : Intake α) (now : Time α) : Release α × Intake α :=
  let (oldest, latest) := m.window now
  let reported := m.streams.map fun s => s.reportDelay now
  let released := reported.map fun (_, s) => s.release oldest latest
  let batches := (released.flatMap Prod.fst).mergeSort precedes
  (⟨batches, reported.filterMap Prod.fst⟩,
    { m with
      streams := released.map Prod.snd
      latest := (batches.getLast?.map Batch.stamp).getD m.latest })

end Intake

end TrackFusion
