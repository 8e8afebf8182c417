import TrackFusion.Object.Detection

/-!
# Tracks without a filter

The latest detection is reported as it is, moved along its twist.
-/

namespace TrackFusion

/-- The latest detection of a track and its time. -/
structure PassThrough (α : Type) where
  detection : Detection α
  measuredAt : Time α

namespace PassThrough

variable {α : Type} [Scalar α]

/-- Variance reported for a pose of which none is known. -/
def nominalVariance : α := 0.1

/-- A pose covariance with the nominal variance for position and heading. -/
def nominalCov (cov : Mat 6 6 α) : Mat 6 6 α :=
  .ofFn fun i j =>
    if i = j ∧ (i = Axis.x ∨ i = Axis.y ∨ i = Axis.z ∨ i = Axis.yaw) then nominalVariance
    else cov i j

/-- The pose after some seconds with a constant twist along the present heading. -/
def moved (k : Kinematics α) (dt : α) : Pose α :=
  let pose := k.pose.shift ((k.twist.worldVelocity k.pose.yaw).scale dt)
  { pose with yaw := pose.yaw + k.twist.wz * dt }

/-- Kinematics and shape at a time; those for earlier times are the present ones. -/
def stateAt (p : PassThrough α) (t : Time α) : Kinematics α × Shape α :=
  let k := p.detection.kinematics
  let dt : α := Scalar.max (t - p.measuredAt) 0
  let k := if k.hasTwist then { k with pose := moved k dt } else k
  let k :=
    if k.hasPoseCov then k else { k with poseCov := nominalCov k.poseCov, hasPoseCov := true }
  (k, p.detection.shape)

end PassThrough

end TrackFusion
