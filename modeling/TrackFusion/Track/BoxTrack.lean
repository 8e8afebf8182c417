import TrackFusion.Frame.Isometry
import TrackFusion.Object.Anchor
import TrackFusion.Object.Detection
import TrackFusion.Track.Profile

/-!
# Tracks with a box and a heading

For vehicles, bicycles and pedestrians: the motion has a heading and a turn rate, and the box is
smoothed.

* `BoxTrack.spawn`, `predict`, `limit`, `measure`: the life of the estimate.
* `BoxTrack.stateAt?`: what is reported for a time.
-/

namespace TrackFusion

/-- How much of the height of a track stays when a new one is measured. -/
def heightGain {α : Type} [Scalar α] : α := 0.9

/-- The height of a track after a measurement. -/
def smoothHeight {α : Type} [Scalar α] (z measured : α) : α :=
  heightGain * z + (1.0 - heightGain) * measured

/-- Estimate for an object with a box and a heading. -/
structure BoxTrack (α : Type) where
  profile : BoxProfile α
  estimate : Estimate 5 α
  z : α
  box : Box α

namespace BoxTrack

variable {α : Type} [Scalar α]

/-- Covariance of the estimate at a first detection. -/
def initialCov (p : BoxProfile α) (k : Kinematics α) (yaw : α) : Mat 5 5 α :=
  let position := if k.hasPoseCov then k.poseCov.restrict Axis.plane
    else turnedVariance p.initialX p.initialY yaw
  let yawVar := if k.hasPoseCov then k.poseCov Axis.yaw Axis.yaw else p.initialYaw
  let speedVar := if k.hasTwistCov then k.twistCov Axis.x Axis.x else p.initialSpeed
  let turnVar := if k.hasTwistCov then k.twistCov Axis.yaw Axis.yaw else p.initialTurn
  position.blockDiagonal (.diagonal ⟨#v[yawVar, speedVar, turnVar]⟩ : Mat 3 3 α)

/-- The estimate at a first detection. -/
def spawn (t : Time α) (d : Detection α) (p : BoxProfile α) : BoxTrack α :=
  let k := d.kinematics
  let (pose, box) := d.shape.enclosingBox k.pose
  let speed := if k.hasTwist then k.twist.vx else 0
  let turn := if k.hasTwist then k.twist.wz else 0
  { profile := p
    estimate := ⟨⟨⟨#v[pose.x, pose.y, pose.yaw, speed, turn]⟩, initialCov p k pose.yaw⟩, t⟩
    z := pose.z
    box := box }

/-- The estimate at a later time, if the motion can be carried on to it. -/
def predict? (b : BoxTrack α) (t : Time α) : Option (BoxTrack α) :=
  (b.estimate.advance b.profile.motion.dynamics t).map fun e => { b with estimate := e }

/-- The estimate within the limits of the motion. -/
def limit (b : BoxTrack α) : BoxTrack α :=
  { b with estimate := b.estimate.mapMean b.profile.motion.limit }

/-- Without a heading from the detector, its variance is taken to be this much larger. -/
def unavailableYawScale : α := 1e3

/-- Covariance of a measured planar pose. -/
def measuredCov (p : BoxProfile α) (k : Kinematics α) (yaw : α) : Mat 3 3 α :=
  if k.hasPoseCov then k.poseCov.restrict Axis.planarPose
  else
    let yawVar := if k.heading = .unavailable then p.measuredYaw * unavailableYawScale
      else p.measuredYaw
    (turnedVariance p.measuredX p.measuredY yaw).blockDiagonal (.ofRows #v[#v[yawVar]] : Mat 1 1 α)

/-- Pose of the estimate, on the ground. -/
def pose (b : BoxTrack α) : Pose α :=
  let x := b.estimate.filter.mean
  ⟨x TurnRate.State.x, x TurnRate.State.y, 0, x TurnRate.State.yaw⟩

/-- The way, in the frame of the object, from the centre of the measured box to where that of the
track would be with the side facing the observer in its place. -/
def anchorOffset (b : BoxTrack α) (measured : Box α) (ego : Isometry α) : Point α :=
  let observer : Point α := ⟨ego.origin.x, ego.origin.y⟩
  (Anchor.facing b.pose b.box.length b.box.width observer).offset
    (measured.length - b.box.length) (measured.width - b.box.width)

/-- The estimate corrected by a pose, and by the speed if it is measured and near enough. -/
def correct? (b : BoxTrack α) (k : Kinematics α) (pose : Pose α) : Option (Estimate 5 α) :=
  let cov := measuredCov b.profile k pose.yaw
  let speed := b.estimate.filter.mean TurnRate.State.speed
  if k.hasTwist && decide (Scalar.abs (speed - k.twist.vx) < b.profile.speedTolerance) then
    let speedVar := if k.hasTwistCov then k.twistCov Axis.x Axis.x else b.profile.measuredSpeed
    TurnRate.correctSpeed b.estimate pose.point pose.yaw cov k.twist.vx speedVar k.heading
  else TurnRate.correctHeading b.estimate pose.point pose.yaw cov k.heading

/-- The track after a detection that belongs to it, and whether the estimate could be corrected. The
measured centre is first moved to where a box with the size of the track would have it; as the box
takes on a share of the measured size, the estimated centre moves back by the same share. -/
def measure (b : BoxTrack α) (d : Detection α) (ego : Isometry α) : BoxTrack α × Bool :=
  let k := d.kinematics
  let (pose, measured) := d.shape.enclosingBox k.pose
  let accepted := b.profile.accepts d.shape measured
  let offset := if accepted && b.profile.anchored then b.anchorOffset measured ego else 0
  let way := offset.rotate b.pose.yaw
  let corrected := b.correct? k (pose.shift way)
  let estimate := (corrected.getD b.estimate).mapMean b.profile.motion.limit
  let z := smoothHeight b.z pose.z
  if accepted then
    let estimate :=
      if offset != 0 then TurnRate.shift estimate (way.scale (-b.profile.shapeGain)) else estimate
    ({ b with estimate := estimate, z := z, box := b.profile.blendBox b.box measured },
      corrected.isSome)
  else ({ b with estimate := estimate, z := z }, corrected.isSome)

/-- Kinematics and shape at a time. -/
def stateAt? (b : BoxTrack α) (t : Time α) : Option (Kinematics α × Shape α) :=
  (TurnRate.kinematicsAt? b.estimate b.profile.motion t).map fun k =>
    ({ k with pose := { k.pose with z := b.z } }, .box b.box)

end BoxTrack

end TrackFusion
