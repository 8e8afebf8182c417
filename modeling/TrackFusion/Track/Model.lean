import TrackFusion.Track.BoxTrack
import TrackFusion.Track.PassThrough
import TrackFusion.Track.PointTrack

/-!
# Track models

The estimate behind a track is one of four kinds, for good.

* `TrackModel`: the four kinds.
* `predict?`, `limit`, `measure`, `stateAt?`: what every kind can do.
-/

namespace TrackFusion

/-- The estimate behind a track. -/
inductive TrackModel (α : Type) where
  /-- Motion with a heading, and a smoothed box. -/
  | box (t : BoxTrack α)
  /-- Position and velocity. -/
  | point (t : PointTrack α)
  /-- Position and velocity, of which only positions are measured. -/
  | unclassified (t : PointTrack α)
  /-- No estimate beyond the latest detection. -/
  | passThrough (t : PassThrough α)

namespace TrackModel

variable {α : Type} [Scalar α]

/-- The model at a later time, if it can be carried on to it. -/
def predict? (m : TrackModel α) (t : Time α) : Option (TrackModel α) :=
  match m with
  | box b => (b.predict? t).map box
  | point p => (p.predict? t).map point
  | unclassified p => (p.predict? t).map unclassified
  | passThrough p => some (passThrough p)

/-- The model within its physical limits. -/
def limit : TrackModel α → TrackModel α
  | box b => box b.limit
  | point p => point p.limit
  | unclassified p => unclassified p.limit
  | passThrough p => passThrough p

/-- The model after a detection that belongs to it, observed from `ego`, and whether the estimate
could be corrected. -/
def measure (m : TrackModel α) (d : Detection α) (t : Time α) (ego : Isometry α) :
    TrackModel α × Bool :=
  match m with
  | box b =>
    let (b, ok) := b.measure d ego
    (box b, ok)
  | point p =>
    let (p, ok) := p.measure d true
    (point p, ok)
  | unclassified p =>
    let (p, ok) := p.measure d false
    (unclassified p, ok)
  | passThrough _ => (passThrough ⟨d, t⟩, true)

/-- Kinematics and shape at a time; the model stays as it is. -/
def stateAt? (m : TrackModel α) (t : Time α) : Option (Kinematics α × Shape α) :=
  match m with
  | box b => b.stateAt? t
  | point p => p.stateAt? t
  | unclassified p => p.stateAt? t
  | passThrough p => some (p.stateAt t)

end TrackModel

end TrackFusion
