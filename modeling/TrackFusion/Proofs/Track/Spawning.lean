import TrackFusion.Proofs.Angles
import TrackFusion.Proofs.Covariance.Blocks
import TrackFusion.Proofs.Covariance.Models
import TrackFusion.Proofs.Enclosure
import TrackFusion.Proofs.Track.LookAhead
import TrackFusion.Proofs.Track.Measurement

/-!
# New tracks

What a track publishes at the time of the detection that it starts from is that detection, as far as
its kind has a place for it.

* `TrackKind.Shows`: a detection as the tracks of a kind show it.
* `BoxTrack.spawn_stateAt?`, `PointTrack.spawn_stateAt?`, `PassThrough.spawn_stateAt?`: the three
  sorts of models.
* `Track.spawn_export_ok`: all kinds of tracks.
-/

namespace TrackFusion

/-! ### What is shown of a detection -/

/-- The position is said to be known, and a variance of it is not one. -/
def Kinematics.Misplaced (k : Kinematics ℝ) : Prop :=
  k.hasPoseCov = true ∧ ¬ (0 < k.poseCov Axis.x Axis.x ∧ 0 < k.poseCov Axis.y Axis.y)

namespace Detection

variable (d : Detection ℝ)

/-- The height, the heading and the uncertainty of the position are those of the detection. -/
structure Shown (k : Kinematics ℝ) : Prop where
  z : k.pose.z = d.kinematics.pose.z
  yaw : k.pose.yaw = d.kinematics.pose.yaw
  positionCov : d.kinematics.hasPoseCov = true →
    k.poseCov.restrict Axis.plane = d.kinematics.poseCov.restrict Axis.plane

/-- A detection as a track with a box shows it. -/
structure ShownAsBox (k : Kinematics ℝ) (s : Shape ℝ) : Prop extends d.Shown k where
  box : ∃ c b, d.shape.BoxForm c b ∧ s = .box b ∧
    k.pose.point = d.kinematics.pose.point + c.rotate d.kinematics.pose.yaw
  yawVar : d.kinematics.hasPoseCov = true →
    k.poseCov Axis.yaw Axis.yaw = d.kinematics.poseCov Axis.yaw Axis.yaw
  vx : k.twist.vx = if d.kinematics.hasTwist then d.kinematics.twist.vx else 0
  wz : k.twist.wz = if d.kinematics.hasTwist then d.kinematics.twist.wz else 0

/-- A detection as a track with a position and a velocity shows it. -/
structure ShownAsPoint (k : Kinematics ℝ) (s : Shape ℝ) : Prop extends d.Shown k where
  shape : s = d.shape
  point : k.pose.point = d.kinematics.pose.point
  vx : k.twist.vx = if d.kinematics.hasTwist then d.kinematics.twist.vx else 0
  vy : k.twist.vy = if d.kinematics.hasTwist then d.kinematics.twist.vy else 0
  velocityCov : d.kinematics.hasTwistCov = true →
    k.twistCov.restrict Axis.plane = d.kinematics.twistCov.restrict Axis.plane

/-- A detection as a track without a filter shows it. -/
structure ShownAsIs (k : Kinematics ℝ) (s : Shape ℝ) : Prop extends d.Shown k where
  shape : s = d.shape
  point : k.pose.point = d.kinematics.pose.point
  twist : k.twist = d.kinematics.twist
  hasTwist : k.hasTwist = d.kinematics.hasTwist

end Detection

/-- A detection as the tracks of a kind show it. -/
def TrackKind.Shows (kind : TrackKind) (d : Detection ℝ) : Kinematics ℝ → Shape ℝ → Prop :=
  match kind with
  | constantVelocity => d.ShownAsPoint
  | unknown => d.ShownAsPoint
  | passThrough => d.ShownAsIs
  | _ => d.ShownAsBox

/-- There is a doubt about the position wherever the detection says nothing about it. -/
def Kinematics.DoubtsFor (k : Kinematics ℝ) (d : Detection ℝ) : Prop :=
  d.kinematics.hasPoseCov = false → ∀ i, 0 < k.poseCov.restrict Axis.plane i i

variable {t : Time ℝ} {d : Detection ℝ}

/-! ### New models -/

theorem Estimate.at?_self {n : ℕ} (e : Estimate n ℝ) (d : Dynamics n ℝ) :
    e.at? d e.time = some e.filter :=
  at?_near d minHorizon_nonneg (sub_self (G := ℝ) e.time.seconds).le

/-- What the position is said to be, or else what is assumed. -/
theorem Kinematics.placed {k : Kinematics ℝ} {along across yaw : ℝ} (h : 0 < along ∧ 0 < across)
    (hk : k.poseCov.restrict Axis.plane =
      if d.kinematics.hasPoseCov then d.kinematics.poseCov.restrict Axis.plane
      else turnedVariance along across yaw) :
    (d.kinematics.hasPoseCov = true →
      k.poseCov.restrict Axis.plane = d.kinematics.poseCov.restrict Axis.plane) ∧
    k.DoubtsFor d := by
  constructor
  · intro hgiven
    rw [hk, if_pos hgiven]
  · intro hnone i
    rw [hk, hnone, if_neg Bool.false_ne_true]
    exact turnedVariance_diag_pos h.1 h.2 yaw i

/-- The position block of what a box reports. -/
theorem TurnRate.kinematics_plane (f : Kalman 5 ℝ) :
    (kinematics f).poseCov.restrict Axis.plane = f.cov.restrict (Fin.castAdd 3) := by
  refine Mat.restrict_spread (fun i => ?_) f.cov _
  fin_cases i <;> rfl

/-- **A new track with a box shows its detection.** -/
theorem BoxTrack.spawn_stateAt? {p : BoxProfile ℝ} (hp : 0 < p.initialX ∧ 0 < p.initialY) :
    ∃ k s, (spawn t d p).stateAt? t = some (k, s) ∧ d.ShownAsBox k s ∧ k.DoubtsFor d := by
  obtain ⟨c, b, hform, hbox⟩ := d.shape.enclosingBox_spec d.kinematics.pose
  let pose := d.kinematics.pose
  let centre := (d.shape.enclosingBox pose).1
  have hpoint : centre.point = pose.point + c.rotate pose.yaw := congrArg (fun x => x.1.point) hbox
  have hyaw : centre.yaw = pose.yaw := congrArg (fun x => x.1.yaw) hbox
  have hz : centre.z = pose.z := congrArg (fun x => x.1.z) hbox
  have hsize : (d.shape.enclosingBox pose).2 = b := congrArg Prod.snd hbox
  let new := spawn t d p
  -- the model is asked about its own time, so that nothing is carried on
  have hstate : new.stateAt? t = some (new.report new.estimate.filter) := by
    rw [stateAt?_eq]
    exact congrArg (Option.map new.report) (new.estimate.at?_self _)
  have hplane : (TurnRate.kinematics new.estimate.filter).poseCov.restrict Axis.plane =
      if d.kinematics.hasPoseCov then d.kinematics.poseCov.restrict Axis.plane
      else turnedVariance p.initialX p.initialY centre.yaw :=
    (TurnRate.kinematics_plane _).trans (Mat.restrict_blockDiagonal_left ..)
  obtain ⟨hposition, hdoubts⟩ := Kinematics.placed hp hplane
  exact ⟨_, _, hstate,
    { z := hz
      yaw := hyaw
      positionCov := hposition
      box := ⟨c, b, hform, congrArg Shape.box hsize, hpoint⟩
      yawVar := fun hgiven => if_pos hgiven
      vx := rfl
      wz := rfl }, hdoubts⟩

namespace ConstantVelocity

/-- The position block of what a point reports. -/
theorem kinematics_plane (f : Kalman 4 ℝ) (yaw : ℝ) :
    (kinematics f yaw).poseCov.restrict Axis.plane = f.cov.restrict (Fin.castAdd 2) := by
  have hblock : (kinematics f yaw).poseCov.restrict Axis.plane =
      (f.cov.restrict positions).restrict id := by
    refine Mat.restrict_spread (fun i => ?_) _ _
    fin_cases i <;> rfl
  rw [hblock]
  ext i j
  fin_cases i <;> fin_cases j <;> rfl

/-- The velocity block of what a point reports, which is turned into the frame of the object. -/
theorem kinematics_velocity (f : Kalman 4 ℝ) (yaw : ℝ) :
    (kinematics f yaw).twistCov.restrict Axis.plane =
      (rotation yaw).transpose.congruence (f.cov.restrict (Fin.natAdd 2)) := by
  have hvelocities : (velocities : Fin 2 → Fin 4) = Fin.natAdd 2 := by
    ext i
    fin_cases i <;> rfl
  have hblock : (kinematics f yaw).twistCov.restrict Axis.plane =
      ((rotation yaw).transpose.congruence (f.cov.restrict velocities)).restrict id := by
    refine Mat.restrict_spread (fun i => ?_) _ _
    fin_cases i <;> rfl
  rw [hblock, hvelocities]
  ext i j
  exact Mat.restrict_apply ..

end ConstantVelocity

/-- **A new track with a position and a velocity shows its detection.** -/
theorem PointTrack.spawn_stateAt? {p : PointProfile ℝ} (hp : 0 < p.initialX ∧ 0 < p.initialY) :
    ∃ k s, (spawn t d p).stateAt? t = some (k, s) ∧ d.ShownAsPoint k s ∧ k.DoubtsFor d := by
  let yaw := d.kinematics.pose.yaw
  let new := spawn t d p
  have hstate : new.stateAt? t = some (new.report new.estimate.filter) := by
    rw [stateAt?_eq]
    exact congrArg (Option.map new.report) (new.estimate.at?_self _)
  have hplane : (ConstantVelocity.kinematics new.estimate.filter yaw).poseCov.restrict Axis.plane =
      if d.kinematics.hasPoseCov then d.kinematics.poseCov.restrict Axis.plane
      else turnedVariance p.initialX p.initialY yaw :=
    (ConstantVelocity.kinematics_plane _ _).trans (Mat.restrict_blockDiagonal_left ..)
  obtain ⟨hposition, hdoubts⟩ := Kinematics.placed hp hplane
  have hblock : new.estimate.filter.cov.restrict (Fin.natAdd 2) =
      if d.kinematics.hasTwistCov then worldVelocityCov d.kinematics
      else turnedVariance p.initialVx p.initialVy yaw := Mat.restrict_blockDiagonal_right ..
  -- the velocity went into the frame of the world, and comes back
  have hvelocity : Point.turnBack
      (if d.kinematics.hasTwist then d.kinematics.twist.worldVelocity yaw else 0) yaw =
      if d.kinematics.hasTwist then ⟨d.kinematics.twist.vx, d.kinematics.twist.vy⟩ else 0 := by
    split
    · exact Point.turnBack_rotate _ yaw
    · simp [Point.turnBack, Point.zero_eq]
  refine ⟨_, _, hstate,
    { z := rfl
      yaw := rfl
      positionCov := hposition
      shape := rfl
      point := rfl
      vx := ?_
      vy := ?_
      velocityCov := ?_ }, hdoubts⟩
  · refine (congrArg Point.x hvelocity).trans ?_
    split <;> rfl
  · refine (congrArg Point.y hvelocity).trans ?_
    split <;> rfl
  · intro hgiven
    refine (ConstantVelocity.kinematics_velocity new.estimate.filter yaw).trans ?_
    rw [hblock, if_pos hgiven]
    exact turnBack_congruence yaw _

namespace PassThrough

/-- In no time nothing moves. -/
theorem moved_zero (k : Kinematics ℝ) : moved k 0 = k.pose := by
  simp [moved, Pose.shift, Point.scale]

theorem nominalVariance_pos : (0 : ℝ) < nominalVariance := by
  unfold nominalVariance
  norm_num

theorem spawn_stateAt_eq (t : Time ℝ) (d : Detection ℝ) :
    (PassThrough.mk d t).stateAt t =
      (if d.kinematics.hasPoseCov then d.kinematics
        else { d.kinematics with poseCov := nominalCov d.kinematics.poseCov, hasPoseCov := true },
        d.shape) := by
  have hdt : Scalar.max (t - t : ℝ) 0 = 0 := by
    rw [show (t - t : ℝ) = 0 from sub_self (G := ℝ) t.seconds, ExactScalar.scalar_max_eq, max_self]
  unfold stateAt
  dsimp only
  rw [hdt, moved_zero, ite_self]

/-- **A new track without a filter shows its detection.** -/
theorem spawn_stateAt? (t : Time ℝ) (d : Detection ℝ) :
    ∃ k s, (PassThrough.mk d t).stateAt t = (k, s) ∧ d.ShownAsIs k s ∧ k.DoubtsFor d := by
  refine ⟨_, _, spawn_stateAt_eq t d, ?_⟩
  cases hgiven : d.kinematics.hasPoseCov with
  | true =>
    rw [if_pos rfl]
    refine ⟨⟨⟨rfl, rfl, fun _ => rfl⟩, rfl, rfl, rfl, rfl⟩, fun hnone => ?_⟩
    exact absurd (hgiven.symm.trans hnone) (by decide)
  | false =>
    rw [if_neg Bool.false_ne_true]
    refine ⟨⟨⟨rfl, rfl, fun h => ?_⟩, rfl, rfl, rfl, rfl⟩, fun _ i => ?_⟩
    · exact absurd (hgiven.symm.trans h) (by decide)
    · have hentry : (nominalCov d.kinematics.poseCov).restrict Axis.plane i i = nominalVariance := by
        rw [Mat.restrict_apply, nominalCov, Mat.ofFn_apply, if_pos]
        fin_cases i
        · exact ⟨rfl, .inl rfl⟩
        · exact ⟨rfl, .inr (.inl rfl)⟩
      show 0 < (nominalCov d.kinematics.poseCov).restrict Axis.plane i i
      rw [hentry]
      exact nominalVariance_pos

end PassThrough

/-! ### New tracks of all kinds -/

theorem BoxProfile.initial_pos {k : TrackKind} {l : Label} {p : BoxProfile ℝ}
    (h : k.boxProfile? l = some p) : 0 < p.initialX ∧ 0 < p.initialY := by
  rcases TrackKind.boxProfile?_cases h with rfl | rfl | rfl | rfl
  all_goals
    constructor <;>
      simp only [normalVehicle, bigVehicle, bicycle, pedestrian, square] <;> norm_num

theorem PointProfile.initial_pos {p : PointProfile ℝ} (h : p = .generic ∨ p = .unclassified) :
    0 < p.initialX ∧ 0 < p.initialY := by
  rcases h with rfl | rfl
  all_goals
    constructor <;> simp only [generic, unclassified, square] <;> norm_num

theorem TrackKind.spawn_stateAt? (kind : TrackKind) (t : Time ℝ) (d : Detection ℝ) (l : Label) :
    ∃ k s, (kind.spawn t d l).stateAt? t = some (k, s) ∧ kind.Shows d k s ∧ k.DoubtsFor d := by
  unfold spawn
  split
  · next p hp =>
    have hshows : kind.Shows d = d.ShownAsBox := by
      cases kind with
      | constantVelocity | unknown | passThrough => cases hp
      | _ => rfl
    rw [hshows]
    exact BoxTrack.spawn_stateAt? (BoxProfile.initial_pos hp)
  · next hnone =>
    cases kind with
    | constantVelocity => exact PointTrack.spawn_stateAt? (PointProfile.initial_pos (.inl rfl))
    | unknown => exact PointTrack.spawn_stateAt? (PointProfile.initial_pos (.inr rfl))
    | passThrough =>
      obtain ⟨k, s, hstate, hshows⟩ := PassThrough.spawn_stateAt? t d
      exact ⟨k, s, congrArg some hstate, hshows⟩
    | _ => cases hnone

/-- Whether what is shown can be published is up to the detection. -/
theorem Detection.Shown.placed_iff {k : Kinematics ℝ} (h : d.Shown k) (hdoubts : k.DoubtsFor d) :
    (0 < k.poseCov Axis.x Axis.x ∧ 0 < k.poseCov Axis.y Axis.y) ↔ ¬ d.kinematics.Misplaced := by
  have hx (c : Mat 6 6 ℝ) : c Axis.x Axis.x = c.restrict Axis.plane 0 0 :=
    (c.restrict_apply Axis.plane 0 0).symm
  have hy (c : Mat 6 6 ℝ) : c Axis.y Axis.y = c.restrict Axis.plane 1 1 :=
    (c.restrict_apply Axis.plane 1 1).symm
  unfold Kinematics.Misplaced
  rw [hx, hy, hx, hy]
  cases hgiven : d.kinematics.hasPoseCov with
  | true =>
    rw [h.positionCov hgiven]
    simp
  | false =>
    have hpos := hdoubts hgiven
    simp [hpos 0, hpos 1]

theorem TrackKind.Shows.shown {kind : TrackKind} {k : Kinematics ℝ} {s : Shape ℝ}
    (h : kind.Shows d k s) : d.Shown k := by
  cases kind <;> exact h.toShown

theorem Track.properVariance_eq (v : ℝ) : properVariance v = decide (0 < v) := rfl

/-- **What a new track publishes** at the time of its detection is the detection as the tracks of
its kind show it. It publishes nothing only if the detection says where the object is, with a
variance that is not one. -/
theorem Track.spawn_export_ok (id : TrackId) (t : Time ℝ) (d : Detection ℝ) (kind : TrackKind) :
    (d.kinematics.Misplaced ∧ (spawn id t d kind).exportAt? t = none) ∨
    (¬ d.kinematics.Misplaced ∧ ∃ k s, kind.Shows d k s ∧
      (spawn id t d kind).exportAt? t = some ⟨id, d.existence, d.classes, k, s⟩) := by
  obtain ⟨k, s, hstate, hshows, hdoubts⟩ := kind.spawn_stateAt? t d d.label
  have hexport : (spawn id t d kind).exportAt? t =
      if 0 < k.poseCov Axis.x Axis.x ∧ 0 < k.poseCov Axis.y Axis.y then
        some ⟨id, d.existence, d.classes, k, s⟩
      else none := by
    rw [exportAt?_eq]
    show ((kind.spawn t d d.label).stateAt? t).bind _ = _
    rw [hstate]
    simp [properVariance_eq]
    rfl
  have hplaced := hshows.shown.placed_iff hdoubts
  by_cases h : d.kinematics.Misplaced
  · refine .inl ⟨h, ?_⟩
    rw [hexport, if_neg fun hpos => hplaced.1 hpos h]
  · refine .inr ⟨h, k, s, hshows, ?_⟩
    rw [hexport, if_pos (hplaced.2 h)]

end TrackFusion
