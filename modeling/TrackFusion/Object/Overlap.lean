import TrackFusion.Geometry.Clip
import TrackFusion.Object.Shape

/-!
# Overlap of objects

* `overlap`: intersection over union of the footprints of two objects.
-/

namespace TrackFusion

variable {α : Type} [Scalar α]

/-- Smaller areas count as empty. -/
def negligibleArea : α := 1e-6

/-- Intersection over union of two footprints: zero if one of them or their intersection is empty,
or if the union is below `minUnion`. -/
def overlap (poseA : Pose α) (shapeA : Shape α) (poseB : Pose α) (shapeB : Shape α)
    (minUnion : α) : α :=
  let a := footprint poseA shapeA
  let b := footprint poseB shapeB
  let areaA := Polygon.area a
  let areaB := Polygon.area b
  if areaA < negligibleArea then 0
  else if areaB < negligibleArea then 0
  else
    let shared := Polygon.sharedArea a b
    if shared < negligibleArea then 0
    else
      let union := areaA + areaB - shared
      if union < minUnion then 0 else Scalar.min (shared / union) 1

end TrackFusion
