import TrackFusion.Scalar

/-!
# Points of the plane

Points, which are also the vectors between them.

* `cross`: on which side of a line a point lies.
-/

namespace TrackFusion

/-- A point or a vector of the plane. -/
structure Point (α : Type) where
  x : α
  y : α
  deriving BEq, DecidableEq

namespace Point

variable {α : Type} [Scalar α]

instance : Zero (Point α) := ⟨⟨0, 0⟩⟩
instance : Add (Point α) := ⟨fun p q => ⟨p.x + q.x, p.y + q.y⟩⟩
instance : Sub (Point α) := ⟨fun p q => ⟨p.x - q.x, p.y - q.y⟩⟩

def scale (p : Point α) (c : α) : Point α := ⟨p.x * c, p.y * c⟩

/-- The point turned around the origin by an angle. -/
def rotate (p : Point α) (angle : α) : Point α :=
  let s := Scalar.sin angle
  let c := Scalar.cos angle
  ⟨p.x * c - p.y * s, p.x * s + p.y * c⟩

/-- The point turned back around the origin by an angle. -/
def turnBack (p : Point α) (angle : α) : Point α :=
  let s := Scalar.sin angle
  let c := Scalar.cos angle
  ⟨p.x * c + p.y * s, -p.x * s + p.y * c⟩

/-- Twice the area of the triangle `o a b`: positive if `b` lies to the left of the line from `o`
to `a`. -/
def cross (o a b : Point α) : α := (a.x - o.x) * (b.y - o.y) - (a.y - o.y) * (b.x - o.x)

end Point

end TrackFusion
