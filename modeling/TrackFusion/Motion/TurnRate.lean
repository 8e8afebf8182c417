import TrackFusion.Geometry.Angle
import TrackFusion.Motion.Dynamics
import TrackFusion.Object.Kinematics

/-!
# Constant turn rate and velocity

The state is `(x, y, yaw, v, ω)`: position in the world, heading, speed along the heading and turn
rate.

* `TurnRate.Params`: noise and limits of the motion, with its `dynamics`.
* `unwrap`: the measured heading next to the estimated one.
* `correctPosition`, `correctHeading`, `correctSpeed`: the three kinds of measurement.
* `kinematicsAt?`: the motion at any time, as an object reports it.
-/

namespace TrackFusion.TurnRate

/-- Variances of the noise per second squared, along and across the heading for the position, and
the greatest speed and turn rate. -/
structure Params (α : Type) where
  varX : α
  varY : α
  varYaw : α
  varSpeed : α
  varTurn : α
  maxSpeed : α
  maxTurn : α
  dtMax : α

/-! Places in the state. -/

namespace State

def x : Fin 5 := Place.first
def y : Fin 5 := Place.second
def yaw : Fin 5 := Place.third
def speed : Fin 5 := Place.fourth
def turn : Fin 5 := Place.fifth

end State

variable {α : Type} [Scalar α]

namespace Params

/-- Parameters with the given standard deviations of the noise, and low limits. -/
def ofDeviations (x y yaw speed turn : α) : Params α where
  varX := x * x
  varY := y * y
  varYaw := yaw * yaw
  varSpeed := speed * speed
  varTurn := turn * turn
  maxSpeed := kilometresPerHour 10.0
  maxTurn := Scalar.degrees 30.0
  dtMax := usualDtMax

def usual : Params α :=
  ofDeviations 0.5 0.5 (Scalar.degrees 20.0) (kilometresPerHour 10.0) (Scalar.degrees 30.0)

def withLimits (p : Params α) (maxSpeed maxTurn : α) : Params α :=
  { p with maxSpeed := maxSpeed, maxTurn := maxTurn }

/-- The state after a step. -/
def next (s : Vec 5 α) (dt : α) : Vec 5 α :=
  let yaw := s State.yaw
  let v := s State.speed
  let ω := s State.turn
  ⟨#v[s State.x + v * Scalar.cos yaw * dt, s State.y + v * Scalar.sin yaw * dt, yaw + ω * dt, v, ω]⟩

/-- The derivative of the step. -/
def transition (x : Vec 5 α) (dt : α) : Mat 5 5 α :=
  let s := Scalar.sin (x State.yaw)
  let c := Scalar.cos (x State.yaw)
  let v := x State.speed
  .ofRows #v[
    #v[1, 0, -v * s * dt, c * dt, 0],
    #v[0, 1, v * c * dt, s * dt, 0],
    #v[0, 0, 1, 0, dt],
    #v[0, 0, 0, 1, 0],
    #v[0, 0, 0, 0, 1]]

/-- Noise of a step at a heading. -/
def noise (p : Params α) (yaw dt : α) : Mat 5 5 α :=
  let t := dt * dt
  (turnedVariance (p.varX * t) (p.varY * t) yaw).blockDiagonal
    (.diagonal ⟨#v[p.varYaw * t, p.varSpeed * t, p.varTurn * t]⟩ : Mat 3 3 α)

def dynamics (p : Params α) : Dynamics 5 α where
  step dt f := f.predict (next f.mean dt) (transition f.mean dt) (p.noise (f.mean State.yaw) dt)
  dtMax := p.dtMax

/-- The state with its speed and turn rate cut to the limits and its heading in `(-π, π]`. -/
def limit (p : Params α) (x : Vec 5 α) : Vec 5 α :=
  ((x.set State.speed (Scalar.clamp (-p.maxSpeed) p.maxSpeed (x State.speed))).set State.turn
    (Scalar.clamp (-p.maxTurn) p.maxTurn (x State.turn))).set State.yaw
      (Angle.normalize (x State.yaw))

end Params

/-- The measured heading, moved by whole periods next to the estimated one. A period is a full turn
if the front is told from the back, and half a turn if it is not. -/
def unwrap (estimated measured : α) (heading : Heading) : α :=
  let limit := if heading = .available then Scalar.pi else Scalar.pi / 2.0
  let period := 2.0 * limit
  let turns := Scalar.round ((estimated - measured) / period)
  measured + turns * period

/-- The estimate corrected by a position. -/
def correctPosition (e : Estimate 5 α) (p : Point α) (cov : Mat 2 2 α) : Option (Estimate 5 α) :=
  e.correct p.toVec (Kalman.observeFirst 2 5) cov

/-- The estimate corrected by a position and a heading. -/
def correctHeading (e : Estimate 5 α) (p : Point α) (yaw : α) (cov : Mat 3 3 α)
    (heading : Heading) : Option (Estimate 5 α) :=
  let yaw := unwrap (e.filter.mean State.yaw) yaw heading
  e.correct ⟨#v[p.x, p.y, yaw]⟩ (Kalman.observeFirst 3 5) cov

/-- The estimate corrected by a position, a heading and a speed. -/
def correctSpeed (e : Estimate 5 α) (p : Point α) (yaw : α) (cov : Mat 3 3 α) (speed : α)
    (speedVar : α) (heading : Heading) : Option (Estimate 5 α) :=
  let yaw := unwrap (e.filter.mean State.yaw) yaw heading
  e.correct ⟨#v[p.x, p.y, yaw, speed]⟩ (Kalman.observeFirst 4 5)
    (cov.blockDiagonal (.ofRows #v[#v[speedVar]] : Mat 1 1 α))

/-- The estimate with its position moved. -/
def shift (e : Estimate 5 α) (d : Point α) : Estimate 5 α :=
  e.mapMean fun s => (s.set State.x (s State.x + d.x)).set State.y (s State.y + d.y)

/-- The axes of a covariance over all six that the pose of a state has. -/
def poseAxes (i : Fin 6) : Option (Fin 5) :=
  if i = Axis.x then some State.x else if i = Axis.y then some State.y
  else if i = Axis.yaw then some State.yaw else none

/-- The axes of a covariance over all six that the twist of a state has. -/
def twistAxes (i : Fin 6) : Option (Fin 5) :=
  if i = Axis.x then some State.speed else if i = Axis.yaw then some State.turn else none

/-- Kinematics of a state. -/
def kinematics (f : Kalman 5 α) : Kinematics α where
  pose := ⟨f.mean State.x, f.mean State.y, 0, f.mean State.yaw⟩
  poseCov := f.cov.spread poseAxes unestimatedVariance
  hasPoseCov := true
  heading := .available
  twist := ⟨f.mean State.speed, 0, f.mean State.turn⟩
  hasTwist := true
  twistCov := f.cov.spread twistAxes unestimatedVariance
  hasTwistCov := true

/-- Kinematics at a time. -/
def kinematicsAt? (e : Estimate 5 α) (p : Params α) (t : Time α) : Option (Kinematics α) :=
  (e.at? p.dynamics t).map kinematics

end TrackFusion.TurnRate
