import TrackFusion.Track.Classes
import TrackFusion.Track.Kind

/-!
# Tracks

A track is an object that is followed over time: an identity, a model for its motion, smoothed
classes and a count of its detections.

* `Track.spawn`: a new track at a detection.
* `Track.predict?`, `measure`, `miss`: what happens to a track at each batch.
* `Track.exportAt?`: the track as it is published.
-/

namespace TrackFusion

structure Track (α : Type) where
  id : TrackId
  kind : TrackKind
  classes : List (Classification α)
  existence : α
  model : TrackModel α
  /-- Batches without a detection since the last one with a detection. -/
  missStreak : Nat
  /-- Batches without a detection. -/
  misses : Nat
  /-- Detections, the first one included. -/
  hits : Nat
  lastMeasured : Time α

namespace Track

variable {α : Type} [Scalar α]

/-- A new track. The detection it starts from counts. -/
def spawn (id : TrackId) (t : Time α) (d : Detection α) (kind : TrackKind) : Track α where
  id := id
  kind := kind
  classes := d.classes
  existence := d.existence
  model := kind.spawn t d d.label
  missStreak := 0
  misses := 0
  hits := 1
  lastMeasured := t

def label (t : Track α) : Label := mostLikely t.classes

/-- Seconds since the last detection. -/
def elapsed (t : Track α) (now : Time α) : α := now - t.lastMeasured

/-- Whether the track has had enough detections to be believed. -/
def isConfirmed (t : Track α) (threshold : Nat) : Bool := decide (threshold ≤ t.hits)

/-- The track at a later time, within its limits, if it can be carried on to it. -/
def predict? (t : Track α) (now : Time α) : Option (Track α) :=
  (t.model.predict? now).map fun m => { t with model := m.limit }

def limit (t : Track α) : Track α := { t with model := t.model.limit }

/-- The track after a detection that belongs to it, observed from `ego`, and whether the estimate
could be corrected. -/
def measure (t : Track α) (d : Detection α) (now : Time α) (ego : Isometry α) : Track α × Bool :=
  let (model, ok) := t.model.measure d now ego
  ({ t with
      classes := blendClasses t.classes d.classes
      existence := d.existence
      model := model
      missStreak := 0
      hits := t.hits + 1
      lastMeasured := now },
    ok)

/-- The track after a batch without a detection for it. -/
def miss (t : Track α) : Track α :=
  { t with missStreak := t.missStreak + 1, misses := t.misses + 1 }

/-- Whether a variance is one. -/
def properVariance (v : α) : Bool := Scalar.isFinite v && decide (0 < v)

/-- The track as it is published for a time, unless the variances of its position are useless. -/
def exportAt? (t : Track α) (now : Time α) : Option (TrackedObject α) :=
  match t.model.stateAt? now with
  | none => none
  | some (k, shape) =>
    if properVariance (k.poseCov Axis.x Axis.x) && properVariance (k.poseCov Axis.y Axis.y) then
      some ⟨t.id, t.existence, t.classes, k, shape⟩
    else none

end Track

end TrackFusion
