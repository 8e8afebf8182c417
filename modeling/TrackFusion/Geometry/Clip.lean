import TrackFusion.Geometry.Polygon

/-!
# Clipping

* `clip`: the part of a polygon inside a convex one, cut off side by side.
* `sharedArea`: the area that two convex polygons share.
-/

namespace TrackFusion.Polygon

variable {α : Type} [Scalar α]

/-- Where the line through `p` and `q` meets the line through `a` and `b`, unless the two run too
nearly in parallel to tell. -/
def meet? (p q a b : Point α) : Option (Point α) :=
  let d := Point.cross a b p
  let e := Point.cross a b q
  if Scalar.abs (d - e) < 1.0 / 4503599627370496.0 then none
  else some (p + (q - p).scale (d / (d - e)))

/-- What one side of a polygon leaves behind to the left of the line from `a` to `b`: its first
point if that is inside, and the point where it crosses the line. -/
def clipSide (a b : Point α) (side : Point α × Point α) : List (Point α) :=
  let inside (p : Point α) := decide (0 ≤ Point.cross a b p)
  let kept := if inside side.1 then [side.1] else []
  let crossing := if inside side.1 != inside side.2 then (meet? side.1 side.2 a b).toList else []
  kept ++ crossing

/-- The part of a polygon to the left of a line. -/
def clipLine (ps : List (Point α)) (line : Point α × Point α) : List (Point α) :=
  (edges ps).flatMap (clipSide line.1 line.2)

/-- The part of a polygon inside a convex polygon that runs counter-clockwise. -/
def clip (subject convex : List (Point α)) : List (Point α) :=
  (edges convex).foldl clipLine subject

/-- The area that two convex polygons share. -/
def sharedArea (a b : List (Point α)) : α :=
  if a.length < 3 ∨ b.length < 3 then 0 else area (clip a b)

end TrackFusion.Polygon
