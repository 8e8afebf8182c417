import TrackFusion.Label
import TrackFusion.Object.Shape
import TrackFusion.Time
import TrackFusion.TrackId

/-!
# Detections and tracked objects

* `Detection`: what a detector reports about one object.
* `Batch`: what a detector reports at one time.
* `TrackedObject`, `Message`: what is published about the tracks.
-/

namespace TrackFusion

/-- One object as a detector sees it. -/
structure Detection (α : Type) where
  existence : α
  classes : List (Classification α)
  kinematics : Kinematics α
  shape : Shape α

/-- The objects that one detector saw at one time. -/
structure Batch (α : Type) where
  stamp : Time α
  /-- The frame of reference of the poses. -/
  frame : String
  /-- The channel that the batch came in on. -/
  channel : Nat
  objects : List (Detection α)

/-- One track as it is published. -/
structure TrackedObject (α : Type) where
  id : TrackId
  existence : α
  classes : List (Classification α)
  kinematics : Kinematics α
  shape : Shape α

/-- The tracks that are published at one time. -/
structure Message (α : Type) where
  stamp : Time α
  frame : String
  objects : List (TrackedObject α)

variable {α : Type} [Scalar α]

def Detection.label (d : Detection α) : Label := mostLikely d.classes

def TrackedObject.label (o : TrackedObject α) : Label := mostLikely o.classes

end TrackFusion
