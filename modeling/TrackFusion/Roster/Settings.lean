import TrackFusion.Error
import TrackFusion.Json.Encode
import TrackFusion.Json.Reader
import TrackFusion.Scalar

/-!
# Settings of the roster

* `RosterSettings`: when tracks are believed, forgotten and merged.
* `RosterSettings.check`: whether the bounds make sense.
-/

namespace TrackFusion

structure RosterSettings (α : Type) where
  /-- Detections that a track needs to be published as confirmed. -/
  confirmAfter : Nat
  /-- Seconds without a detection after which a track is forgotten. -/
  maxElapsed : α
  /-- Tracks that are farther apart are never merged. -/
  mergeDistance : α
  /-- Tracks that overlap more are merged. -/
  minOverlap : α
  /-- The same if the class of one of the tracks is unknown. -/
  minOverlapUnknown : α
  deriving BEq, DecidableEq

namespace RosterSettings

variable {α : Type} [Scalar α]

def usual : RosterSettings α where
  confirmAfter := 3
  maxElapsed := 1.0
  mergeDistance := 5.0
  minOverlap := 0.1
  minOverlapUnknown := 0.001

/-- Whether a number is a share. -/
def isShare (v : α) : Bool := decide (0 ≤ v) && decide (v ≤ 1)

/-- The first reason why the settings make no sense. -/
def fault? (s : RosterSettings α) : Option String :=
  if !(Scalar.isFinite s.maxElapsed && decide (0 < s.maxElapsed)) then
    some "max_elapsed_time must be positive"
  else if !(Scalar.isFinite s.mergeDistance && decide (0 ≤ s.mergeDistance)) then
    some "distance_threshold must be non-negative"
  else if !isShare s.minOverlap then some "min_iou must be in [0, 1]"
  else if !isShare s.minOverlapUnknown then some "min_iou_for_unknown_object must be in [0, 1]"
  else none

def check (s : RosterSettings α) : Except Error Unit :=
  match s.fault? with
  | some reason => throw (.invalidConfig reason)
  | none => return ()

open Json

variable [Number α]

/-- The members of the JSON form, in their order. -/
def fields : List (Reader.Field (RosterSettings α)) :=
  let count := Reader.natural (Nat.pow 2 32)
  [ .optional "confident_count_threshold" count fun s x => { s with confirmAfter := x },
    .optional "max_elapsed_time" Reader.number fun s x => { s with maxElapsed := x },
    .optional "distance_threshold" Reader.number fun s x => { s with mergeDistance := x },
    .optional "min_iou" Reader.number fun s x => { s with minOverlap := x },
    .optional "min_iou_for_unknown_object" Reader.number fun s x =>
      { s with minOverlapUnknown := x } ]

def reader : Reader (RosterSettings α) := Reader.record fields usual

def toJson (s : RosterSettings α) : Value :=
  .obj [
    ("confident_count_threshold", .ofNat s.confirmAfter),
    ("max_elapsed_time", .ofNumber s.maxElapsed),
    ("distance_threshold", .ofNumber s.mergeDistance),
    ("min_iou", .ofNumber s.minOverlap),
    ("min_iou_for_unknown_object", .ofNumber s.minOverlapUnknown)]

end RosterSettings

end TrackFusion
