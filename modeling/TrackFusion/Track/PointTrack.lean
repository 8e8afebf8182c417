import TrackFusion.Object.Detection
import TrackFusion.Track.BoxTrack

/-!
# Tracks with a position and a velocity

For objects without a class, and wherever a heading cannot be relied on. Heading and shape are those
of the latest detection.

* `PointTrack.spawn`, `predict`, `limit`, `measure`: the life of the estimate.
* `PointTrack.stateAt?`: what is reported for a time.
-/

namespace TrackFusion

/-- Estimate for an object of which only the position and the velocity are filtered. -/
structure PointTrack (α : Type) where
  profile : PointProfile α
  estimate : Estimate 4 α
  z : α
  yaw : α
  shape : Shape α

namespace PointTrack

variable {α : Type} [Scalar α]

/-- Covariance in the world of the linear velocity of an object. -/
def worldVelocityCov (k : Kinematics α) : Mat 2 2 α :=
  (rotation k.pose.yaw).congruence (k.twistCov.restrict Axis.plane)

/-- Covariance of the estimate at a first detection. -/
def initialCov (p : PointProfile α) (k : Kinematics α) : Mat 4 4 α :=
  let position := if k.hasPoseCov then k.poseCov.restrict Axis.plane
    else turnedVariance p.initialX p.initialY k.pose.yaw
  let velocity := if k.hasTwistCov then worldVelocityCov k
    else turnedVariance p.initialVx p.initialVy k.pose.yaw
  position.blockDiagonal velocity

/-- The estimate at a first detection. -/
def spawn (t : Time α) (d : Detection α) (p : PointProfile α) : PointTrack α :=
  let k := d.kinematics
  let v := if k.hasTwist then k.twist.worldVelocity k.pose.yaw else 0
  { profile := p
    estimate := ⟨⟨⟨#v[k.pose.x, k.pose.y, v.x, v.y]⟩, initialCov p k⟩, t⟩
    z := k.pose.z
    yaw := k.pose.yaw
    shape := d.shape }

/-- The estimate at a later time, if the motion can be carried on to it. -/
def predict? (p : PointTrack α) (t : Time α) : Option (PointTrack α) :=
  (p.estimate.advance p.profile.motion.dynamics t).map fun e => { p with estimate := e }

/-- The estimate within the limits of the motion. -/
def limit (p : PointTrack α) : PointTrack α :=
  { p with estimate := p.estimate.mapMean p.profile.motion.limit }

/-- Covariance of a measured position. -/
def measuredCov (p : PointProfile α) (k : Kinematics α) : Mat 2 2 α :=
  if k.hasPoseCov then k.poseCov.restrict Axis.plane
  else turnedVariance p.measuredX p.measuredY k.pose.yaw

/-- Covariance of a measured velocity in the world. -/
def measuredVelocityCov (p : PointProfile α) (k : Kinematics α) : Mat 2 2 α :=
  if k.hasTwistCov then worldVelocityCov k
  else turnedVariance p.measuredVx p.measuredVy k.pose.yaw

/-- The estimate corrected by a position, and by the velocity too if that is to count and is
measured. -/
def correct? (p : PointTrack α) (k : Kinematics α) (velocityCounts : Bool) :
    Option (Estimate 4 α) :=
  let cov := measuredCov p.profile k
  if velocityCounts && k.hasTwist then
    ConstantVelocity.correctVelocity p.estimate k.pose.point cov
      (k.twist.worldVelocity k.pose.yaw) (measuredVelocityCov p.profile k)
  else ConstantVelocity.correctPosition p.estimate k.pose.point cov

/-- The track after a detection that belongs to it, and whether the estimate could be corrected. -/
def measure (p : PointTrack α) (d : Detection α) (velocityCounts : Bool) : PointTrack α × Bool :=
  let k := d.kinematics
  let corrected := p.correct? k velocityCounts
  ({ p with
      estimate := (corrected.getD p.estimate).mapMean p.profile.motion.limit
      z := smoothHeight p.z k.pose.z
      yaw := k.pose.yaw
      shape := d.shape },
    corrected.isSome)

/-- The heading of a reported shape: a circle has none. -/
def heading : Shape α → Heading
  | .cylinder .. => .unavailable
  | _ => .signUnknown

/-- Kinematics and shape at a time. -/
def stateAt? (p : PointTrack α) (t : Time α) : Option (Kinematics α × Shape α) :=
  (ConstantVelocity.kinematicsAt? p.estimate p.profile.motion t p.yaw).map fun k =>
    ({ k with pose := { k.pose with z := p.z }, heading := heading p.shape }, p.shape)

end PointTrack

end TrackFusion
