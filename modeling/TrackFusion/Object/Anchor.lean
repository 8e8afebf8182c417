import TrackFusion.Object.Shape

/-!
# Anchors

The side or corner of a box that faces an observer is seen best. When the size of a box changes it
is this part that stays where it was, and not the centre.

* `Anchor.facing`: the part of a box nearest to an observer.
* `Anchor.offset`: how the centre of a box moves if its anchor stays.
-/

namespace TrackFusion

/-- Where a coordinate lies relative to a band around zero. -/
inductive Band where
  | above
  | within
  | below
  deriving DecidableEq, Repr

/-- Part of a box: whether it lies ahead and whether it lies to the left of the centre. The inside
is neither ahead nor behind, and neither left nor right. -/
structure Anchor where
  ahead : Band
  left : Band
  deriving DecidableEq, Repr

variable {α : Type} [Scalar α]

/-- The band that reaches to `half` on both sides of zero; it includes `half` only. -/
def Band.of (v half : α) : Band :=
  if half < v then .above else if -half < v then .within else .below

/-- `v` with the sign of the band. -/
def Band.signed (b : Band) (v : α) : α :=
  match b with
  | above => v
  | within => 0
  | below => -v

namespace Anchor

/-- The part of a box around `pose` that is nearest to an observer. -/
def facing (pose : Pose α) (length width : α) (observer : Point α) : Anchor :=
  let p := (observer - pose.point).turnBack pose.yaw
  ⟨.of p.x (length * 0.5), .of p.y (width * 0.5)⟩

/-- The way, in the frame of the object, from the centre of a box that has grown by the given
amounts to the old centre, if the anchor stayed where it was. -/
def offset (a : Anchor) (dLength dWidth : α) : Point α :=
  ⟨a.ahead.signed (dLength * 0.5), a.left.signed (dWidth * 0.5)⟩

end Anchor

end TrackFusion
