import TrackFusion.Geometry.Point

/-!
# Polygons

A polygon is the list of its vertices.

* `edges`: the sides, each from one vertex to the next.
* `area`: the area by the sum over the sides.
* `extent`: the least and the greatest of some coordinates.
-/

namespace TrackFusion.Polygon

variable {α : Type} [Scalar α]

/-- The sides of a polygon; the last one leads back to the first vertex. -/
def edges {β : Type} (ps : List β) : List (β × β) := ps.zip (ps.tail ++ ps.head?.toList)

/-- The area, negative if the vertices run clockwise. Less than three points have none. -/
def signedArea (ps : List (Point α)) : α :=
  if ps.length < 3 then 0
  else
    let twice := (edges ps).foldl (fun acc (a, b) => acc + (a.x * b.y - b.x * a.y)) 0
    0.5 * twice

def area (ps : List (Point α)) : α := Scalar.abs (signedArea ps)

/-- The least and the greatest number of a list. If there is none, the interval is empty: it runs
from infinity down to minus infinity. -/
def extent (xs : List α) : α × α :=
  match xs.filter fun x => !Scalar.isNaN x with
  | [] => (1 / 0, -(1 / 0))
  | x :: xs => (xs.foldl Scalar.min x, xs.foldl Scalar.max x)

end TrackFusion.Polygon
