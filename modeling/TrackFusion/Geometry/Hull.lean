import TrackFusion.Geometry.Polygon

/-!
# Convex hulls

The hull of a set of points is put together from a lower and an upper chain over the points in
order.

* `push`: extends a chain by a point, dropping the points that would not turn left.
* `convexHull`: the hull, counter-clockwise from the first point.
-/

namespace TrackFusion

variable {α : Type} [Scalar α]

/-- The order of points from left to right, and upwards on a vertical line. -/
def Point.order (p q : Point α) : Ordering :=
  (Scalar.order p.x q.x).then (Scalar.order p.y q.y)

namespace Polygon

/-- The points in order, without neighbours that are equal. -/
def sorted (ps : List (Point α)) : List (Point α) :=
  (ps.mergeSort fun p q => p.order q != .gt).eraseReps

/-- A chain, last point first, with `p` added. Points that lie on or to the right of the way to `p`
are dropped. -/
def push (p : Point α) : List (Point α) → List (Point α)
  | b :: a :: rest => if Point.cross a b p ≤ 0 then push p (a :: rest) else p :: b :: a :: rest
  | chain => p :: chain

/-- The chain over some points, in their order. -/
def chain (ps : List (Point α)) : List (Point α) :=
  (ps.foldl (fun c p => push p c) []).reverse

/-- The convex hull, counter-clockwise. Of points on one line it has the two ends. -/
def convexHull (ps : List (Point α)) : List (Point α) :=
  let ps := sorted ps
  if ps.length < 3 then ps
  else
    -- the two chains have their ends in common
    chain ps ++ (chain ps.reverse).tail.dropLast

end Polygon

end TrackFusion
