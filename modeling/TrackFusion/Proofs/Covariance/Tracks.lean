import TrackFusion.Proofs.Covariance.Motion
import TrackFusion.Proofs.Roster.Times
import TrackFusion.Proofs.Track.Reachable

/-!
# Covariances of tracks

Whatever happens to a track, its estimate has a covariance, if the detections have: for a new track,
along any way in time, and through any corrections. Scalars are the reals, so nothing is rounded.

* `Kinematics.Proper`, `BoxProfile.Proper`, `PointProfile.Proper`: what comes in is as it should be.
* `BoxTrack.keeps_sound`, `PointTrack.keeps_sound`: the invariant, kept by each step.
* `BoxTrack.Sound.predict?_uncertain` and its twin: noise leaves a doubt about the position.
-/

namespace TrackFusion

/-! ### What comes in -/

/-- Covariances that are not marked as absent are covariances. -/
structure Kinematics.Proper (k : Kinematics ℝ) : Prop where
  pose : k.hasPoseCov = true → k.poseCov.IsCovariance
  twist : k.hasTwistCov = true → k.twistCov.IsCovariance

def Detection.Proper (d : Detection ℝ) : Prop := d.kinematics.Proper

namespace Kinematics.Proper

variable {k : Kinematics ℝ} (hk : k.Proper)

include hk

/-! What is measured counts, and if it is not then what is assumed does. -/

theorem position {along across : ℝ} (ha : 0 ≤ along) (hc : 0 ≤ across) (yaw : ℝ) :
    (if k.hasPoseCov then k.poseCov.restrict Axis.plane
      else turnedVariance along across yaw).IsCovariance := by
  split
  · rename_i hpose
    exact (hk.pose hpose).restrict Axis.plane
  · exact isCovariance_turnedVariance ha hc yaw

theorem velocity {along across : ℝ} (ha : 0 ≤ along) (hc : 0 ≤ across) (yaw : ℝ) :
    (if k.hasTwistCov then PointTrack.worldVelocityCov k
      else turnedVariance along across yaw).IsCovariance := by
  split
  · rename_i htwist
    exact ((hk.twist htwist).restrict Axis.plane).congruence _
  · exact isCovariance_turnedVariance ha hc yaw

theorem poseVar {v : ℝ} (hv : 0 ≤ v) (i : Fin 6) :
    0 ≤ if k.hasPoseCov then k.poseCov i i else v := by
  split
  · rename_i hpose
    exact (hk.pose hpose).diag_nonneg i
  · exact hv

theorem twistVar {v : ℝ} (hv : 0 ≤ v) (i : Fin 6) :
    0 ≤ if k.hasTwistCov then k.twistCov i i else v := by
  split
  · rename_i htwist
    exact (hk.twist htwist).diag_nonneg i
  · exact hv

end Kinematics.Proper

/-- No variance is negative. -/
structure BoxProfile.Proper (p : BoxProfile ℝ) : Prop where
  measuredX : 0 ≤ p.measuredX
  measuredY : 0 ≤ p.measuredY
  measuredYaw : 0 ≤ p.measuredYaw
  measuredSpeed : 0 ≤ p.measuredSpeed
  initialX : 0 ≤ p.initialX
  initialY : 0 ≤ p.initialY
  initialYaw : 0 ≤ p.initialYaw
  initialSpeed : 0 ≤ p.initialSpeed
  initialTurn : 0 ≤ p.initialTurn
  motion : p.motion.Proper

/-- No variance is negative. -/
structure PointProfile.Proper (p : PointProfile ℝ) : Prop where
  measuredX : 0 ≤ p.measuredX
  measuredY : 0 ≤ p.measuredY
  measuredVx : 0 ≤ p.measuredVx
  measuredVy : 0 ≤ p.measuredVy
  initialX : 0 ≤ p.initialX
  initialY : 0 ≤ p.initialY
  initialVx : 0 ≤ p.initialVx
  initialVy : 0 ≤ p.initialVy
  motion : p.motion.Proper

/-! ### Boxes -/

namespace BoxTrack

/-- The covariance is one, and so are those that will be taken from the profile. -/
structure Sound (b : BoxTrack ℝ) : Prop where
  profile : b.profile.Proper
  cov : b.estimate.filter.cov.IsCovariance

/-- The noise leaves a doubt about the position. -/
def Restless (b : BoxTrack ℝ) : Prop := 0 < b.profile.motion.varX ∧ 0 < b.profile.motion.varY

/-- There is a doubt about the position along both axes. -/
def IsUncertain (b : BoxTrack ℝ) : Prop :=
  0 < b.estimate.filter.cov TurnRate.State.x TurnRate.State.x ∧
    0 < b.estimate.filter.cov TurnRate.State.y TurnRate.State.y

variable {p : BoxProfile ℝ} {k : Kinematics ℝ}

theorem initialCov_isCovariance (hp : p.Proper) (hk : k.Proper) (yaw : ℝ) :
    (initialCov p k yaw).IsCovariance := by
  have hposition := hk.position hp.initialX hp.initialY yaw
  refine hposition.blockDiagonal (Mat.isCovariance_diagonal fun i => ?_)
  fin_cases i
  · exact hk.poseVar hp.initialYaw Axis.yaw
  · exact hk.twistVar hp.initialSpeed Axis.x
  · exact hk.twistVar hp.initialTurn Axis.yaw

theorem measuredCov_isCovariance (hp : p.Proper) (hk : k.Proper) (yaw : ℝ) :
    (measuredCov p k yaw).IsCovariance := by
  unfold measuredCov
  split
  · rename_i hpose
    exact (hk.pose hpose).restrict Axis.planarPose
  · have hscale : (0 : ℝ) ≤ unavailableYawScale := by
      unfold unavailableYawScale
      norm_num
    refine (isCovariance_turnedVariance hp.measuredX hp.measuredY yaw).blockDiagonal
      (Mat.isCovariance_single ?_)
    split
    · exact mul_nonneg hp.measuredYaw hscale
    · exact hp.measuredYaw

theorem sound_spawn (hp : p.Proper) (t : Time ℝ) {d : Detection ℝ} (hd : d.Proper) :
    (spawn t d p).Sound :=
  ⟨hp, initialCov_isCovariance hp hd _⟩

variable {b : BoxTrack ℝ}

/-- **Ahead in time there is a doubt about the position**, and nothing is too far ahead. -/
theorem Sound.predict?_uncertain (h : b.Sound) (hr : b.Restless) {t : Time ℝ}
    (ht : b.estimate.time < t) : ∃ b', b.predict? t = some b' ∧ b'.IsUncertain := by
  have hle : b.estimate.time ≤ t := le_of_lt (α := ℝ) ht
  obtain ⟨e, he, -, hblur⟩ :=
    Estimate.advance_ok (TurnRate.sound h.profile.motion) h.cov hle
  refine ⟨{ b with estimate := e }, ?_, hblur ht _ ⟨.inl rfl, hr⟩, hblur ht _ ⟨.inr rfl, hr⟩⟩
  rw [BoxTrack.predict?, he]
  rfl

theorem Sound.correct? (h : b.Sound) (hk : k.Proper) {pose : Pose ℝ} {e : Estimate 5 ℝ}
    (he : b.correct? k pose = some e) : e.filter.cov.IsCovariance := by
  have hmeasured := measuredCov_isCovariance h.profile hk pose.yaw
  unfold BoxTrack.correct? at he
  dsimp only at he
  split at he
  · have hspeed := hk.twistVar h.profile.measuredSpeed Axis.x
    have hcov := hmeasured.blockDiagonal (Mat.isCovariance_single hspeed)
    exact Estimate.correct_isCovariance h.cov hcov he
  · exact Estimate.correct_isCovariance h.cov hmeasured he

/-- **Every step keeps the covariance of a box.** -/
theorem keeps_sound : Keeps Detection.Proper Sound where
  predict := by
    intro b b' t h hb'
    obtain ⟨e, he, rfl⟩ := Option.map_eq_some_iff.1 hb'
    have hmotion := TurnRate.sound h.profile.motion
    exact ⟨h.profile, Estimate.advance_isCovariance hmotion h.cov he⟩
  measure := by
    intro b d ego h hd
    obtain ⟨pose, g, hestimate⟩ := b.measure_estimate d ego
    refine ⟨?_, ?_⟩
    · rw [b.measure_profile]
      exact h.profile
    · rw [hestimate]
      show ((b.correct? d.kinematics pose).getD b.estimate).filter.cov.IsCovariance
      cases he : b.correct? d.kinematics pose with
      | none => exact h.cov
      | some e => exact h.correct? hd he
  limit h := ⟨h.profile, h.cov⟩

end BoxTrack

/-! ### Points -/

namespace PointTrack

/-- The covariance is one, and so are those that will be taken from the profile. -/
structure Sound (p : PointTrack ℝ) : Prop where
  profile : p.profile.Proper
  cov : p.estimate.filter.cov.IsCovariance

/-- The noise leaves a doubt about the position. -/
def Restless (p : PointTrack ℝ) : Prop := 0 < p.profile.motion.varX ∧ 0 < p.profile.motion.varY

/-- There is a doubt about the position along both axes. -/
def IsUncertain (p : PointTrack ℝ) : Prop :=
  0 < p.estimate.filter.cov ConstantVelocity.State.x ConstantVelocity.State.x ∧
    0 < p.estimate.filter.cov ConstantVelocity.State.y ConstantVelocity.State.y

variable {q : PointProfile ℝ} {k : Kinematics ℝ}

theorem initialCov_isCovariance (hq : q.Proper) (hk : k.Proper) :
    (initialCov q k).IsCovariance := by
  have hposition := hk.position hq.initialX hq.initialY k.pose.yaw
  have hvelocity := hk.velocity hq.initialVx hq.initialVy k.pose.yaw
  exact hposition.blockDiagonal hvelocity

theorem measuredCov_isCovariance (hq : q.Proper) (hk : k.Proper) :
    (measuredCov q k).IsCovariance :=
  hk.position hq.measuredX hq.measuredY k.pose.yaw

theorem measuredVelocityCov_isCovariance (hq : q.Proper) (hk : k.Proper) :
    (measuredVelocityCov q k).IsCovariance :=
  hk.velocity hq.measuredVx hq.measuredVy k.pose.yaw

theorem sound_spawn (hq : q.Proper) (t : Time ℝ) {d : Detection ℝ} (hd : d.Proper) :
    (spawn t d q).Sound :=
  ⟨hq, initialCov_isCovariance hq hd⟩

variable {p : PointTrack ℝ}

/-- **Ahead in time there is a doubt about the position**, and nothing is too far ahead. -/
theorem Sound.predict?_uncertain (h : p.Sound) (hr : p.Restless) {t : Time ℝ}
    (ht : p.estimate.time < t) : ∃ p', p.predict? t = some p' ∧ p'.IsUncertain := by
  have hle : p.estimate.time ≤ t := le_of_lt (α := ℝ) ht
  obtain ⟨e, he, -, hblur⟩ :=
    Estimate.advance_ok (ConstantVelocity.sound h.profile.motion) h.cov hle
  refine ⟨{ p with estimate := e }, ?_, hblur ht _ (.inl ⟨rfl, hr.1⟩),
    hblur ht _ (.inr ⟨rfl, hr.2⟩)⟩
  rw [PointTrack.predict?, he]
  rfl

theorem Sound.correct? (h : p.Sound) (hk : k.Proper) {counts : Bool} {e : Estimate 4 ℝ}
    (he : p.correct? k counts = some e) : e.filter.cov.IsCovariance := by
  have hposition := measuredCov_isCovariance h.profile hk
  unfold PointTrack.correct? at he
  dsimp only at he
  split at he
  · have hvelocity := measuredVelocityCov_isCovariance h.profile hk
    exact Estimate.correct_isCovariance h.cov (hposition.blockDiagonal hvelocity) he
  · exact Estimate.correct_isCovariance h.cov hposition he

/-- **Every step keeps the covariance of a point.** -/
theorem keeps_sound : Keeps Detection.Proper Sound where
  predict := by
    intro p p' t h hp'
    obtain ⟨e, he, rfl⟩ := Option.map_eq_some_iff.1 hp'
    have hmotion := ConstantVelocity.sound h.profile.motion
    exact ⟨h.profile, Estimate.advance_isCovariance hmotion h.cov he⟩
  measure := by
    intro p d counts h hd
    refine ⟨h.profile, ?_⟩
    show ((p.correct? d.kinematics counts).getD p.estimate).filter.cov.IsCovariance
    cases he : p.correct? d.kinematics counts with
    | none => exact h.cov
    | some e => exact h.correct? hd he
  limit h := ⟨h.profile, h.cov⟩

end PointTrack

end TrackFusion
