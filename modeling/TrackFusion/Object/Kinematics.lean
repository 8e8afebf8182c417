import TrackFusion.Geometry.Point
import TrackFusion.Linear.Matrix

/-!
# Kinematics

Pose, velocity and their uncertainty, as a detector or a track reports them.

* `Pose`, `Twist`, `Heading`, `Kinematics`.
* `Axis`: the rows and columns of a covariance of all six degrees of freedom, with
  `Mat.restrict` and `Mat.spread` to take blocks out of such a matrix and to put them in.
-/

namespace TrackFusion

/-- Position and heading. -/
structure Pose (α : Type) where
  x : α
  y : α
  z : α
  yaw : α
  deriving BEq, DecidableEq

/-- Velocity in the frame of the object: ahead, to the left, and turning. -/
structure Twist (α : Type) where
  vx : α
  vy : α
  wz : α
  deriving BEq, DecidableEq

/-- How far the heading of a detection can be trusted. -/
inductive Heading where
  | unavailable
  /-- The axis is known, but not which end is the front. -/
  | signUnknown
  | available
  deriving DecidableEq, Repr

/-- Pose and twist with their covariances. What is marked as absent carries no information, whatever
stands in its place. -/
structure Kinematics (α : Type) where
  pose : Pose α
  poseCov : Mat 6 6 α
  hasPoseCov : Bool
  heading : Heading
  twist : Twist α
  hasTwist : Bool
  twistCov : Mat 6 6 α
  hasTwistCov : Bool

/-! ### Axes -/

namespace Axis

def x : Fin 6 := 0
def y : Fin 6 := 1
def z : Fin 6 := 2
def roll : Fin 6 := 3
def pitch : Fin 6 := 4
def yaw : Fin 6 := 5

/-- The axes of the plane. -/
def plane : Fin 2 → Fin 6
  | 0 => x
  | 1 => y

/-- The axes of a planar pose. -/
def planarPose : Fin 3 → Fin 6
  | 0 => x
  | 1 => y
  | 2 => yaw

end Axis

namespace Mat

variable {α : Type} {m n : Nat}

/-- The block of the rows and columns `axes`. -/
def restrict (a : Mat n n α) (axes : Fin m → Fin n) : Mat m m α :=
  ofFn fun i j => a (axes i) (axes j)

/-- A larger matrix with a block spread over the rows and columns that have a place in it; the
others have `rest` on the diagonal and zeros elsewhere. -/
def spread [Scalar α] (place : Fin n → Option (Fin m)) (a : Mat m m α) (rest : α) : Mat n n α :=
  ofFn fun i j =>
    match place i, place j with
    | some k, some l => a k l
    | _, _ => if i = j then rest else 0

/-- Two blocks along the diagonal. -/
def blockDiagonal [Scalar α] (a : Mat m m α) (b : Mat n n α) : Mat (m + n) (m + n) α :=
  ofFn fun i j =>
    i.addCases (fun k => j.addCases (fun l => a k l) fun _ => 0)
      fun k => j.addCases (fun _ => 0) fun l => b k l

end Mat

namespace Pose

variable {α : Type}

def origin [Scalar α] : Pose α := ⟨0, 0, 0, 0⟩

/-- The place in the plane. -/
def point (p : Pose α) : Point α := ⟨p.x, p.y⟩

/-- The pose moved within the plane. -/
def shift [Scalar α] (p : Pose α) (d : Point α) : Pose α :=
  { p with x := p.x + d.x, y := p.y + d.y }

/-- Distance within the plane. -/
def distance [Scalar α] (a b : Pose α) : α := Scalar.hypot (a.x - b.x) (a.y - b.y)

end Pose

def Point.toVec {α : Type} (p : Point α) : Vec 2 α := ⟨#v[p.x, p.y]⟩

namespace Twist

variable {α : Type} [Scalar α]

def zero : Twist α := ⟨0, 0, 0⟩

/-- The linear velocity in the world, for an object with the given heading. -/
def worldVelocity (t : Twist α) (yaw : α) : Point α := Point.rotate ⟨t.vx, t.vy⟩ yaw

end Twist

/-- Kinematics of a pose of which nothing else is known. -/
def Kinematics.ofPose {α : Type} [Scalar α] (pose : Pose α) : Kinematics α where
  pose := pose
  poseCov := 0
  hasPoseCov := false
  heading := .signUnknown
  twist := .zero
  hasTwist := false
  twistCov := 0
  hasTwistCov := false

/-! ### Turning covariances -/

variable {α : Type} [Scalar α]

/-- The matrix that turns the plane by an angle. -/
def rotation (angle : α) : Mat 2 2 α :=
  let s := Scalar.sin angle
  let c := Scalar.cos angle
  .ofRows #v[#v[c, -s], #v[s, c]]

/-- Covariance in the world of a variance along a heading and one across it. -/
def turnedVariance (along across yaw : α) : Mat 2 2 α :=
  let s := Scalar.sin yaw
  let c := Scalar.cos yaw
  let xx := along * c * c + across * s * s
  let xy := 0.5 * (along - across) * Scalar.sin (2.0 * yaw)
  let yy := along * s * s + across * c * c
  .ofRows #v[#v[xx, xy], #v[xy, yy]]

end TrackFusion
