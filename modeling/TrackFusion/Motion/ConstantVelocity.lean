import TrackFusion.Motion.Dynamics
import TrackFusion.Object.Kinematics

/-!
# Constant velocity

The state is `(x, y, vx, vy)` in the world.

* `ConstantVelocity.Params`: noise and limits of the motion, with its `dynamics`.
* `correctPosition`, `correctVelocity`: the two kinds of measurement.
* `kinematicsAt?`: the motion at any time, as an object reports it.
-/

namespace TrackFusion.ConstantVelocity

/-- Variances of the noise per second squared, and the greatest velocities. -/
structure Params (α : Type) where
  varX : α
  varY : α
  varVx : α
  varVy : α
  maxVx : α
  maxVy : α
  dtMax : α

/-! Places in the state. -/

namespace State

def x : Fin 4 := Place.first
def y : Fin 4 := Place.second
def vx : Fin 4 := Place.third
def vy : Fin 4 := Place.fourth

end State

variable {α : Type} [Scalar α]

namespace Params

def usual : Params α where
  varX := 0.5 * 0.5
  varY := 0.5 * 0.5
  varVx := 9.8 * 0.3 * (9.8 * 0.3)
  varVy := 9.8 * 0.3 * (9.8 * 0.3)
  maxVx := kilometresPerHour 60.0
  maxVy := kilometresPerHour 60.0
  dtMax := usualDtMax

/-- Parameters with the given standard deviations of the noise, and the usual limits. -/
def ofDeviations (x y vx vy : α) : Params α :=
  { usual with varX := x * x, varY := y * y, varVx := vx * vx, varVy := vy * vy }

def withLimits (p : Params α) (maxVx maxVy : α) : Params α :=
  { p with maxVx := maxVx, maxVy := maxVy }

/-- Position moves on by the velocity. -/
def transition (dt : α) : Mat 4 4 α :=
  .ofRows #v[#v[1, 0, dt, 0], #v[0, 1, 0, dt], #v[0, 0, 1, 0], #v[0, 0, 0, 1]]

/-- Noise of a step. -/
def noise (p : Params α) (dt : α) : Mat 4 4 α :=
  let t := dt * dt
  .diagonal ⟨#v[p.varX * t, p.varY * t, p.varVx * t, p.varVy * t]⟩

def dynamics (p : Params α) : Dynamics 4 α where
  step dt f := f.predictLinear (transition dt) (p.noise dt)
  dtMax := p.dtMax

/-- The state with its velocities cut to the limits. -/
def limit (p : Params α) (x : Vec 4 α) : Vec 4 α :=
  (x.set State.vx (Scalar.clamp (-p.maxVx) p.maxVx (x State.vx))).set State.vy
    (Scalar.clamp (-p.maxVy) p.maxVy (x State.vy))

end Params

/-- The estimate at a position and a velocity, of whose covariances only the variances count. -/
def initial (t : Time α) (p : Point α) (poseCov : Mat 6 6 α) (v : Point α) (twistCov : Mat 6 6 α) :
    Estimate 4 α :=
  ⟨⟨⟨#v[p.x, p.y, v.x, v.y]⟩,
    .diagonal ⟨#v[poseCov Axis.x Axis.x, poseCov Axis.y Axis.y,
      twistCov Axis.x Axis.x, twistCov Axis.y Axis.y]⟩⟩, t⟩

/-- The estimate corrected by a position with its covariance. -/
def correctPosition (e : Estimate 4 α) (p : Point α) (cov : Mat 2 2 α) : Option (Estimate 4 α) :=
  e.correct p.toVec (Kalman.observeFirst 2 4) cov

/-- The estimate corrected by a position and a velocity in the world with their covariances. -/
def correctVelocity (e : Estimate 4 α) (p : Point α) (cov : Mat 2 2 α) (v : Point α)
    (velocityCov : Mat 2 2 α) : Option (Estimate 4 α) :=
  e.correct ⟨#v[p.x, p.y, v.x, v.y]⟩ 1 (cov.blockDiagonal velocityCov)

/-- Places of the position in the state. -/
def positions : Fin 2 → Fin 4
  | 0 => State.x
  | 1 => State.y

/-- Places of the velocity in the state. -/
def velocities : Fin 2 → Fin 4
  | 0 => State.vx
  | 1 => State.vy

/-- The axes of a covariance over all six that a position or a linear velocity has. -/
def linearAxes (i : Fin 6) : Option (Fin 2) :=
  if i = Axis.x then some Place.first else if i = Axis.y then some Place.second else none

/-- Kinematics of a state, for an object with the given heading. The velocity turns into the frame
of the object. -/
def kinematics (f : Kalman 4 α) (yaw : α) : Kinematics α where
  pose := ⟨f.mean State.x, f.mean State.y, 0, yaw⟩
  poseCov := (f.cov.restrict positions).spread linearAxes unestimatedVariance
  hasPoseCov := true
  heading := .signUnknown
  twist :=
    let v := Point.turnBack ⟨f.mean State.vx, f.mean State.vy⟩ yaw
    ⟨v.x, v.y, 0⟩
  hasTwist := true
  twistCov :=
    ((rotation yaw).transpose.congruence (f.cov.restrict velocities)).spread linearAxes
      unestimatedVariance
  hasTwistCov := true

/-- Kinematics at a time. -/
def kinematicsAt? (e : Estimate 4 α) (p : Params α) (t : Time α) (yaw : α) :
    Option (Kinematics α) :=
  (e.at? p.dynamics t).map fun f => kinematics f yaw

end TrackFusion.ConstantVelocity
