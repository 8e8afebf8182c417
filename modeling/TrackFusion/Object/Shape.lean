import TrackFusion.Geometry.Hull
import TrackFusion.Object.Kinematics

/-!
# Shapes

* `Box`, `Shape`: the extent of an object.
* `footprint`: the outline of an object on the ground.
* `Shape.enclosingBox`: any shape as a box, at the pose of its centre.
-/

namespace TrackFusion

/-- A box in the frame of the object. -/
structure Box (α : Type) where
  length : α
  width : α
  height : α
  deriving BEq, DecidableEq

/-- Extent of an object. The points of a polygon are relative to the pose. -/
inductive Shape (α : Type) where
  | box (b : Box α)
  | cylinder (diameter height : α)
  | polygon (outline : List (Point α)) (height : α)
  deriving BEq, DecidableEq

variable {α : Type} [Scalar α]

/-- Mixes a share `gain` of another box in. -/
def Box.blend (a b : Box α) (gain : α) : Box α :=
  let mix (u v : α) := (1.0 - gain) * u + gain * v
  ⟨mix a.length b.length, mix a.width b.width, mix a.height b.height⟩

/-- The smallest box along the heading around an outline, and the pose of its centre. Less than
three points have none. -/
def boxAround? (pose : Pose α) (outline : List (Point α)) (height : α) : Option (Pose α × Box α) :=
  if outline.length < 3 then none
  else
    let (x₀, x₁) := Polygon.extent (outline.map Point.x)
    let (y₀, y₁) := Polygon.extent (outline.map Point.y)
    let centre : Point α := ⟨(x₁ + x₀) * 0.5, (y₁ + y₀) * 0.5⟩
    some (pose.shift (centre.rotate pose.yaw), ⟨x₁ - x₀, y₁ - y₀, height⟩)

/-- Vertices that stand for a circle. -/
def circleVertices : Nat := 16

/-- The corners of a rectangle around the origin, counter-clockwise from the front left. -/
def rectangle (length width : α) : List (Point α) :=
  let a := length * 0.5
  let b := width * 0.5
  [⟨a, b⟩, ⟨-a, b⟩, ⟨-a, -b⟩, ⟨a, -b⟩]

/-- A regular polygon in a circle around the origin. -/
def circle (diameter : α) : List (Point α) :=
  let r := diameter * 0.5
  (List.range circleVertices).map fun (i : Nat) =>
    let angle : α := 2.0 * Scalar.pi * (i : α) / (circleVertices : α)
    ⟨r * Scalar.cos angle, r * Scalar.sin angle⟩

namespace Shape

/-- Area of the footprint. -/
def area : Shape α → α
  | box b => b.length * b.width
  | cylinder diameter _ =>
    let r := diameter * 0.5
    Scalar.pi * r * r
  | polygon outline _ => Polygon.area outline

def height : Shape α → α
  | box b => b.height
  | cylinder _ h => h
  | polygon _ h => h

/-- The outline relative to the pose. -/
def outline : Shape α → List (Point α)
  | box b => rectangle b.length b.width
  | cylinder diameter _ => circle diameter
  | polygon outline _ => outline

/-- The shape as a box and the pose of its centre. A polygon without area has no extent. -/
def enclosingBox (pose : Pose α) : Shape α → Pose α × Box α
  | box b => (pose, b)
  | cylinder diameter h => (pose, ⟨diameter, diameter, h⟩)
  | polygon outline h => (boxAround? pose outline h).getD (pose, ⟨0, 0, h⟩)

def isBox : Shape α → Bool
  | box _ => true
  | _ => false

end Shape

/-- The convex outline of an object in the world. -/
def footprint (pose : Pose α) (shape : Shape α) : List (Point α) :=
  Polygon.convexHull (shape.outline.map fun p => p.rotate pose.yaw + pose.point)

end TrackFusion
