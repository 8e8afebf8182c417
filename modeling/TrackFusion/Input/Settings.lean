import TrackFusion.Error
import TrackFusion.Json.Encode
import TrackFusion.Json.Reader
import TrackFusion.Scalar

/-!
# Settings of the inputs

* `ChannelSettings`: one source of batches.
* `WindowSettings`: which batches are released by their age.
-/

namespace TrackFusion

/-- A source of batches. -/
structure ChannelSettings (α : Type) where
  topic : String
  longName : String
  shortName : String
  /-- Batches per second. -/
  expectedRate : α
  /-- Batches that may wait. -/
  queueSize : Nat
  deriving BEq, DecidableEq

/-- Ages in seconds between which batches are released. -/
structure WindowSettings (α : Type) where
  /-- Younger batches wait. -/
  targetLatency : α
  /-- Older batches are dropped. -/
  acceptableLatency : α
  deriving BEq, DecidableEq

variable {α : Type} [Scalar α]

namespace ChannelSettings

def usual : ChannelSettings α where
  topic := "/perception/object_recognition/detection/objects"
  longName := "detected_objects"
  shortName := "all"
  expectedRate := 10.0
  queueSize := 2

/-- The first reason why the settings make no sense. -/
def fault? (s : ChannelSettings α) : Option String :=
  if s.queueSize = 0 then some (s.longName ++ ": queue_size must be at least 1")
  else if !(Scalar.isFinite s.expectedRate && decide (0 < s.expectedRate)) then
    some (s.longName ++ ": expected_rate must be positive")
  else none

def check (s : ChannelSettings α) : Except Error Unit :=
  match s.fault? with
  | some reason => throw (.invalidConfig reason)
  | none => return ()

open Json

variable [Number α]

/-- The members of the JSON form, in their order. -/
def fields : List (Reader.Field (ChannelSettings α)) :=
  [ .optional "topic" Reader.string fun s x => { s with topic := x },
    .optional "long_name" Reader.string fun s x => { s with longName := x },
    .optional "short_name" Reader.string fun s x => { s with shortName := x },
    .optional "expected_rate" Reader.number fun s x => { s with expectedRate := x },
    .optional "queue_size" (Reader.natural (Nat.pow 2 64)) fun s x => { s with queueSize := x } ]

def reader : Reader (ChannelSettings α) := Reader.record fields usual

def toJson (s : ChannelSettings α) : Value :=
  .obj [
    ("topic", .str s.topic),
    ("long_name", .str s.longName),
    ("short_name", .str s.shortName),
    ("expected_rate", .ofNumber s.expectedRate),
    ("queue_size", .ofNat s.queueSize)]

end ChannelSettings

namespace WindowSettings

def usual : WindowSettings α where
  targetLatency := 0.15
  acceptableLatency := 0.35

/-- Fails unless some ages lie between the two. -/
def check (s : WindowSettings α) : Except Error Unit :=
  if 0 ≤ s.targetLatency ∧ s.targetLatency < s.acceptableLatency then return ()
  else throw (.invalidConfig "acceptable_latency must exceed target_latency")

open Json

variable [Number α]

/-- The members of the JSON form, in their order. -/
def fields : List (Reader.Field (WindowSettings α)) :=
  [ .optional "target_latency" Reader.number fun s x => { s with targetLatency := x },
    .optional "acceptable_latency" Reader.number fun s x => { s with acceptableLatency := x } ]

def reader : Reader (WindowSettings α) := Reader.record fields usual

def toJson (s : WindowSettings α) : Value :=
  .obj [
    ("target_latency", .ofNumber s.targetLatency),
    ("acceptable_latency", .ofNumber s.acceptableLatency)]

end WindowSettings

end TrackFusion
