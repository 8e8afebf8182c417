import TrackFusion.Scalar

/-!
# Angles

* `Angle.normalize`: the representative of an angle in `(-π, π]`.
* `Angle.difference`: the signed angle between two headings.
-/

namespace TrackFusion.Angle

variable {α : Type} [Scalar α]

/-- The representative of an angle in `(-π, π]`. -/
def normalize (angle : α) : α :=
  let turn := 2.0 * Scalar.pi
  let a := Scalar.modulo angle turn
  if Scalar.pi < a then a - turn else a

/-- The representative of an angle modulo `2 * range` in `[-range, range)`. -/
def wrap (range angle : α) : α := Scalar.modulo (angle + range) (2.0 * range) - range

/-- The angle from the heading `b` to the heading `a`, at most half a turn either way. Unless the
front is told from the back, opposite headings are the same and it is at most a quarter turn. -/
def difference (a b : α) (frontBack : Bool) : α :=
  let range := if frontBack then Scalar.pi else Scalar.pi / 2.0
  wrap range (wrap range a - wrap range b)

end TrackFusion.Angle
