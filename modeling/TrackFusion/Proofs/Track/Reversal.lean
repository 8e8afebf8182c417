import TrackFusion.Proofs.Covariance.Blocks
import TrackFusion.Proofs.Track.Horizon
import TrackFusion.Proofs.Track.Measurement

/-!
# Fronts and backs

Where the front of an object is not told from its back, a detection and the same one reversed should
be measured alike. The heading is folded by half turns for that, and so is what is turned with it.
The speed is not.

* `TurnRate.unwrap_add_pi`, `turnedVariance_add_pi`: opposite headings.
* `BoxTrack.correct?_reversed`: to reverse an object is to reverse its speed.
* `BoxTrack.CountsAlike`, `countsAlike_iff`: the speeds for which that makes no difference.
* `BoxTrack.measure_reversed_ok`: what is measured alike.
-/

namespace TrackFusion

/-! ### Half turns -/

/-- Rounding moves along by one, but for the half that is rounded away from zero in both
directions. -/
theorem Scalar.round_sub_one {x : ℝ} (hx : x ≠ 1 / 2) :
    (round (x - 1) : ℝ) = round x - 1 := by
  rw [round_eq, round_eq]
  -- the two numbers are rounded by one rule, unless zero is between them
  rcases lt_or_ge x 0 with hneg | hnonneg
  · have hceil : ⌈x - 1 - 1 / 2⌉ = ⌈x - 1 / 2⌉ - 1 := by
      rw [sub_right_comm, Int.ceil_sub_one]
    rw [if_neg (by linarith), if_neg (by linarith), hceil]
    push_cast
    ring
  rcases lt_or_ge x 1 with hlt | hge
  · rw [if_neg (by linarith), if_pos hnonneg]
    rcases lt_or_gt_of_ne hx with hlow | hhigh
    · have hceil : ⌈x - 1 - 1 / 2⌉ = -1 := by
        rw [Int.ceil_eq_iff]
        push_cast
        constructor <;> linarith
      have hfloor : ⌊x + 1 / 2⌋ = 0 := by
        rw [Int.floor_eq_iff]
        push_cast
        constructor <;> linarith
      rw [hceil, hfloor]
      norm_num
    · have hceil : ⌈x - 1 - 1 / 2⌉ = 0 := by
        rw [Int.ceil_eq_iff]
        push_cast
        constructor <;> linarith
      have hfloor : ⌊x + 1 / 2⌋ = 1 := by
        rw [Int.floor_eq_iff]
        push_cast
        constructor <;> linarith
      rw [hceil, hfloor]
      norm_num
  · have hfloor : ⌊x - 1 + 1 / 2⌋ = ⌊x + 1 / 2⌋ - 1 := by
      rw [sub_add_eq_add_sub, Int.floor_sub_one]
    rw [if_pos (by linarith), if_pos hnonneg, hfloor]
    push_cast
    ring

/-- Unless the front is told from the back, a heading and the opposite one are folded to the same,
except where both are as near to the estimate. -/
theorem TurnRate.unwrap_add_pi {estimated measured : ℝ} {h : Heading} (hh : h ≠ .available)
    (hfold : estimated - measured ≠ Real.pi / 2) :
    unwrap estimated (measured + Real.pi) h = unwrap estimated measured h := by
  have hpi : Real.pi ≠ 0 := Real.pi_ne_zero
  have hperiod : (2.0 * (Scalar.pi / 2.0) : ℝ) = Real.pi := by
    show (2.0 * (Real.pi / 2.0) : ℝ) = Real.pi
    norm_num
  have hhalf : (estimated - measured) / Real.pi ≠ 1 / 2 := by
    rw [Ne, div_eq_iff hpi]
    intro hboundary
    exact hfold (by rw [hboundary]; ring)
  have hless : (estimated - (measured + Real.pi)) / Real.pi =
      (estimated - measured) / Real.pi - 1 := by
    field_simp
    ring
  unfold unwrap
  simp only [if_neg hh, hperiod]
  rw [hless, Scalar.round_sub_one hhalf]
  ring

/-! ### Reversed objects -/

/-- The same object, with what was its back taken for its front. -/
noncomputable def Kinematics.reversed (k : Kinematics ℝ) : Kinematics ℝ :=
  { k with
    pose := { k.pose with yaw := k.pose.yaw + Real.pi }
    twist := { k.twist with vx := -k.twist.vx, vy := -k.twist.vy } }

/-- An object in the same pose that moves the other way. -/
noncomputable def Kinematics.backwards (k : Kinematics ℝ) : Kinematics ℝ :=
  { k with twist := { k.twist with vx := -k.twist.vx, vy := -k.twist.vy } }

namespace Detection

noncomputable def reversed (d : Detection ℝ) : Detection ℝ :=
  { d with kinematics := d.kinematics.reversed }

noncomputable def backwards (d : Detection ℝ) : Detection ℝ :=
  { d with kinematics := d.kinematics.backwards }

variable {d : Detection ℝ} (hshape : ∀ outline height, d.shape ≠ .polygon outline height)

include hshape

theorem box_reversed : d.reversed.box = d.box := by
  unfold box reversed
  cases hs : d.shape with
  | box b => rfl
  | cylinder diameter height => rfl
  | polygon outline height => exact absurd hs (hshape outline height)

theorem centre_reversed : d.reversed.centre = { d.centre with yaw := d.centre.yaw + Real.pi } := by
  unfold centre reversed
  cases hs : d.shape with
  | box b => rfl
  | cylinder diameter height => rfl
  | polygon outline height => exact absurd hs (hshape outline height)

end Detection

/-! ### Corrections -/

namespace BoxTrack

variable {b : BoxTrack ℝ} {d : Detection ℝ} {k : Kinematics ℝ} {pose : Pose ℝ}

theorem measuredCov_reversed (p : BoxProfile ℝ) (k : Kinematics ℝ) (yaw : ℝ) :
    measuredCov p k.reversed (yaw + Real.pi) = measuredCov p k.backwards yaw := by
  unfold measuredCov
  rw [turnedVariance_add_pi]
  rfl

/-- **The heading is folded, but not the speed**: to take the back for the front is to see the
object move the other way. -/
theorem correct?_reversed (hheading : k.heading ≠ .available)
    (hfold : b.pose.yaw - pose.yaw ≠ Real.pi / 2) :
    b.correct? k.reversed { pose with yaw := pose.yaw + Real.pi } =
      b.correct? k.backwards pose := by
  have hcov := measuredCov_reversed b.profile k pose.yaw
  -- what is left over when heading and covariance are folded is the sign of the speed
  unfold correct? TurnRate.correctSpeed TurnRate.correctHeading
  dsimp only
  have hunwrap : TurnRate.unwrap (b.estimate.filter.mean TurnRate.State.yaw)
      (pose.yaw + Real.pi) k.reversed.heading =
      TurnRate.unwrap (b.estimate.filter.mean TurnRate.State.yaw) pose.yaw k.heading :=
    TurnRate.unwrap_add_pi hheading hfold
  rw [hcov, hunwrap]
  rfl

/-- The measured speed, if there is one and it is near enough to the estimated one to count. -/
noncomputable def seenSpeed? (b : BoxTrack ℝ) (k : Kinematics ℝ) : Option ℝ :=
  if k.hasTwist && decide (|b.estimate.filter.mean TurnRate.State.speed - k.twist.vx| <
    b.profile.speedTolerance) then some k.twist.vx else none

theorem seenSpeed?_eq_some (htwist : k.hasTwist = true)
    (hnear : |b.estimate.filter.mean TurnRate.State.speed - k.twist.vx| <
      b.profile.speedTolerance) : b.seenSpeed? k = some k.twist.vx := by
  unfold seenSpeed?
  rw [htwist, Bool.true_and, decide_eq_true hnear, if_pos rfl]

theorem seenSpeed?_eq_none (h : k.hasTwist = true → b.profile.speedTolerance ≤
    |b.estimate.filter.mean TurnRate.State.speed - k.twist.vx|) : b.seenSpeed? k = none := by
  refine if_neg fun hcounts => ?_
  obtain ⟨htwist, hnear⟩ := Bool.and_eq_true_iff.1 hcounts
  exact not_lt.2 (h htwist) (of_decide_eq_true hnear)

theorem vx_of_seenSpeed? {v : ℝ} (h : b.seenSpeed? k = some v) : k.twist.vx = v := by
  unfold seenSpeed? at h
  split at h
  · exact Option.some.inj h
  · cases h

/-- A correction knows of the twist only the speed that counts. -/
theorem correct?_eq (b : BoxTrack ℝ) (k : Kinematics ℝ) (pose : Pose ℝ) :
    b.correct? k pose =
      match b.seenSpeed? k with
      | some v =>
        TurnRate.correctSpeed b.estimate pose.point pose.yaw (measuredCov b.profile k pose.yaw) v
          (if k.hasTwistCov then k.twistCov Axis.x Axis.x else b.profile.measuredSpeed) k.heading
      | none =>
        TurnRate.correctHeading b.estimate pose.point pose.yaw
          (measuredCov b.profile k pose.yaw) k.heading := by
  have habs : (Scalar.abs : ℝ → ℝ) = fun x => |x| := rfl
  unfold correct? seenSpeed?
  rw [habs]
  dsimp only
  split <;> rfl

/-- The same speed counts, if one does, whether the object moves as it is seen or the other way. -/
def CountsAlike (b : BoxTrack ℝ) (k : Kinematics ℝ) : Prop :=
  b.seenSpeed? k.backwards = b.seenSpeed? k

/-- So it is only if there is no speed, or if it is too far from the estimated one both ways. -/
theorem countsAlike_iff : b.CountsAlike k ↔ (k.hasTwist = true → k.twist.vx = 0 ∨
    b.profile.speedTolerance ≤ |b.estimate.filter.mean TurnRate.State.speed - k.twist.vx| ∧
      b.profile.speedTolerance ≤ |b.estimate.filter.mean TurnRate.State.speed + k.twist.vx|) := by
  have hvx : k.backwards.twist.vx = -k.twist.vx := rfl
  unfold CountsAlike
  constructor
  · intro halike htwist
    by_contra! hcounts
    obtain ⟨hzero, hnear⟩ := hcounts
    -- a speed that counts one way would count the other way with the other sign
    have hopposite : k.twist.vx ≠ -k.twist.vx := fun h => hzero (self_eq_neg.1 h)
    by_cases hfront : |b.estimate.filter.mean TurnRate.State.speed - k.twist.vx| <
        b.profile.speedTolerance
    · rw [seenSpeed?_eq_some htwist hfront] at halike
      exact hopposite (vx_of_seenSpeed? halike).symm
    · have hback := hnear (not_lt.1 hfront)
      rw [← sub_neg_eq_add, ← hvx] at hback
      rw [seenSpeed?_eq_some (k := k.backwards) htwist hback] at halike
      exact hopposite (vx_of_seenSpeed? halike.symm)
  · intro h
    by_cases hzero : k.twist.vx = 0
    · unfold seenSpeed?
      rw [hvx, hzero, neg_zero]
      rfl
    · have hfar (htwist : k.hasTwist = true) := (h htwist).resolve_left hzero
      rw [seenSpeed?_eq_none fun htwist => (hfar htwist).1, seenSpeed?_eq_none]
      intro htwist
      rw [hvx, sub_neg_eq_add]
      exact (hfar htwist).2

theorem CountsAlike.correct?_backwards (h : b.CountsAlike k) (pose : Pose ℝ) :
    b.correct? k.backwards pose = b.correct? k pose := by
  rw [correct?_eq, correct?_eq, show b.seenSpeed? k.backwards = b.seenSpeed? k from h]
  rfl

/-! ### Measurements -/

/-- Detections of one shape with boxes of one size are moved alike. -/
theorem seenWay_congr (b : BoxTrack ℝ) (d d' : Detection ℝ) (ego : Isometry ℝ)
    (hshape : d.shape = d'.shape) (hbox : d.box = d'.box) :
    b.accepts d = b.accepts d' ∧ b.seenWay d ego = b.seenWay d' ego := by
  have haccepts : b.accepts d = b.accepts d' := by
    unfold accepts
    rw [hshape, hbox]
  refine ⟨haccepts, ?_⟩
  unfold seenWay seenOffset
  rw [haccepts, hbox]

/-- Detections that lead to one correction lead to one state. -/
theorem measure_congr {d d' : Detection ℝ} {ego : Isometry ℝ} (hshape : d.shape = d'.shape)
    (hbox : d.box = d'.box) (hz : d.centre.z = d'.centre.z)
    (hcorrected : b.corrected? d ego = b.corrected? d' ego) :
    b.measure d ego = b.measure d' ego := by
  obtain ⟨haccepts, hway⟩ := b.seenWay_congr d d' ego hshape hbox
  rw [measure_eq, measure_eq, hcorrected, hway, haccepts, hbox, hz]

/-- To measure a reversed object is to measure one that moves the other way. -/
theorem measure_reversed (ego : Isometry ℝ)
    (hshape : ∀ outline height, d.shape ≠ .polygon outline height)
    (hheading : d.kinematics.heading ≠ .available)
    (hfold : b.pose.yaw - d.kinematics.pose.yaw ≠ Real.pi / 2) :
    b.measure d.reversed ego = b.measure d.backwards ego := by
  have hbox : d.reversed.box = d.backwards.box := d.box_reversed hshape
  have hcentre := d.centre_reversed hshape
  have hz : d.reversed.centre.z = d.backwards.centre.z := by
    rw [hcentre]
    rfl
  refine measure_congr rfl hbox hz ?_
  -- the anchor depends on the size that is seen, and not on the heading
  have hway : b.seenWay d.reversed ego = b.seenWay d.backwards ego :=
    (b.seenWay_congr d.reversed d.backwards ego rfl hbox).2
  have hyaw : b.pose.yaw - (d.centre.shift (b.seenWay d.backwards ego)).yaw ≠ Real.pi / 2 := by
    show b.pose.yaw - d.centre.yaw ≠ Real.pi / 2
    rwa [d.centre_yaw]
  have hcorrect := correct?_reversed (k := d.kinematics) hheading hyaw
  unfold corrected?
  rw [hway, hcentre]
  exact hcorrect

/-- An object that moves the other way is measured alike if its speed counts alike. -/
theorem CountsAlike.measure_backwards (h : b.CountsAlike d.kinematics) (ego : Isometry ℝ) :
    b.measure d.backwards ego = b.measure d ego := by
  have hbox : d.backwards.box = d.box := rfl
  refine measure_congr rfl hbox rfl ?_
  unfold corrected?
  rw [(b.seenWay_congr d.backwards d ego rfl hbox).2]
  exact h.correct?_backwards _

/-- **Fronts and backs.** Where the front is not told from the back, a box or a cylinder and the
same object reversed leave a track in the same state, if the speed counts alike to the front and to
the back. In any case the only difference is the sign of the speed. The headings that are as near to
the estimated one as the opposite ones are left out; it is enough to do so on one side. -/
theorem measure_reversed_ok (b : BoxTrack ℝ) (d : Detection ℝ) (ego : Isometry ℝ)
    (hshape : ∀ outline height, d.shape ≠ .polygon outline height)
    (hheading : d.kinematics.heading ≠ .available)
    (hfold : b.pose.yaw - d.kinematics.pose.yaw ≠ Real.pi / 2) :
    b.measure d.reversed ego = b.measure d.backwards ego ∧
      (b.CountsAlike d.kinematics → b.measure d.reversed ego = b.measure d ego) := by
  have hreversed := measure_reversed ego hshape hheading hfold
  refine ⟨hreversed, fun halike => ?_⟩
  rw [hreversed, halike.measure_backwards]

end BoxTrack

/-! ### A slow bicycle

Its speed is a metre per second, and all that is known of it has a variance of one. -/

/-- Where every variance is one, that of every innovation is two. -/
theorem innovationCov_one (m : Vec 5 ℝ) :
    Kalman.innovationCov ⟨m, 1⟩ (Kalman.observeFirst 4 5) (1 : Mat 4 4 ℝ) =
      .diagonal (.ofFn fun _ => 2) := by
  ext i j
  rw [Kalman.innovationCov, Mat.add_apply, Mat.congruence, Mat.mul_apply, sum_eq]
  simp only [Mat.mul_apply, sum_eq, Mat.one_apply, Mat.transpose_apply, Mat.diagonal_apply,
    Vec.ofFn_apply, Kalman.observeFirst, Mat.ofFn_apply]
  fin_cases i <;> fin_cases j <;> simp [Fin.sum_univ_succ] <;> norm_num

theorem inverse_two : (Mat.diagonal (.ofFn fun _ => 2) : Mat 4 4 ℝ).inverse? =
    some (.diagonal (.ofFn fun _ => 1 / 2)) := by
  have hcofactor : Mat.ofFn (Mat.cofactor (Mat.diagonal (.ofFn fun _ => 2) : Mat 4 4 ℝ)) =
      .diagonal (.ofFn fun _ => 8) := by
    ext i j
    rw [Mat.ofFn_apply, Mat.cofactor]
    fin_cases i <;> fin_cases j <;> simp [Mat.others] <;> norm_num
  rw [Mat.inverse?, Mat.inverse4?, hcofactor]
  simp +decide only [Mat.transpose_apply, Mat.diagonal_apply, Vec.ofFn_apply, if_true, if_false,
    zero_mul, add_zero, ExactScalar.beq_eq]
  rw [if_neg (by norm_num), Option.some.injEq]
  ext i j
  rw [Mat.scale_apply, Mat.transpose_apply, Mat.diagonal_apply, Mat.diagonal_apply,
    Vec.ofFn_apply, Vec.ofFn_apply]
  by_cases h : i = j
  · rw [if_pos h.symm, if_pos h]
    norm_num
  · rw [if_neg (Ne.symm h), if_neg h, zero_mul]

/-- The measured speed then counts as much as the estimated one. -/
theorem correct_speed_one (e : Estimate 5 ℝ) (he : e.filter.cov = 1) (y : Vec 4 ℝ) :
    ∃ e', e.correct y (Kalman.observeFirst 4 5) 1 = some e' ∧
      e'.filter.mean TurnRate.State.speed =
        (e.filter.mean TurnRate.State.speed + y 3) / 2 := by
  obtain ⟨⟨m, c⟩, t⟩ := e
  obtain rfl : c = 1 := he
  let c : Mat 4 5 ℝ := Kalman.observeFirst 4 5
  let k : Mat 5 4 ℝ := (1 : Mat 5 5 ℝ) * c.transpose *
    (Mat.diagonal (.ofFn fun _ => (1 / 2 : ℝ)) : Mat 4 4 ℝ)
  have hgain : Kalman.gain? ⟨m, 1⟩ c (1 : Mat 4 4 ℝ) = some k := by
    rw [Kalman.gain?, innovationCov_one, inverse_two]
    rfl
  let next : Vec 5 ℝ := m + k * Kalman.innovation ⟨m, 1⟩ y c
  have hmean : next TurnRate.State.speed = (m TurnRate.State.speed + y 3) / 2 := by
    rw [Vec.add_apply, Mat.mulVec_apply, sum_eq]
    simp +decide [c, k, Kalman.innovation, Kalman.observeFirst, sum_eq, Fin.sum_univ_succ,
      TurnRate.State.speed]
    ring
  have hcorrect : Kalman.correct ⟨m, 1⟩ y c (1 : Mat 4 4 ℝ) =
      .ok ⟨next, (Kalman.joseph 1 k c 1).symmetrize⟩ := by
    unfold Kalman.correct
    rw [hgain]
    exact if_pos (Vec.isFinite_eq next)
  refine ⟨⟨⟨next, (Kalman.joseph 1 k c 1).symmetrize⟩, t⟩, ?_, hmean⟩
  unfold Estimate.correct
  rw [hcorrect]
  rfl

namespace BoxTrack

/-- A bicycle that moves ahead at a metre per second. -/
noncomputable def slowBicycle : BoxTrack ℝ where
  profile := .bicycle
  estimate := ⟨⟨⟨#v[0, 0, 0, 1, 0]⟩, 1⟩, ⟨0⟩⟩
  z := 0
  box := ⟨2.0, 1, 1⟩

/-- A detection of a bicycle with some speed. -/
noncomputable def seenBicycle (speed : ℝ) : Detection ℝ where
  existence := 1
  classes := [⟨.bicycle, 1⟩]
  kinematics :=
    { Kinematics.ofPose .origin with
      poseCov := 1
      hasPoseCov := true
      twist := ⟨speed, 0, 0⟩
      hasTwist := true
      twistCov := 1
      hasTwistCov := true }
  shape := .box ⟨2.0, 1, 1⟩

/-- All that is measured of the bicycle is as uncertain as it can be. -/
theorem measuredCov_seenBicycle (v yaw : ℝ) :
    (measuredCov slowBicycle.profile (seenBicycle v).kinematics yaw).blockDiagonal
      (.ofRows #v[#v[(seenBicycle v).kinematics.twistCov Axis.x Axis.x]] : Mat 1 1 ℝ) = 1 := by
  have hplane : Function.Injective Axis.planarPose := by decide
  have hcov : measuredCov slowBicycle.profile (seenBicycle v).kinematics yaw =
      (1 : Mat 6 6 ℝ).restrict Axis.planarPose := if_pos rfl
  have hvar : (seenBicycle v).kinematics.twistCov Axis.x Axis.x = 1 := by
    show (1 : Mat 6 6 ℝ) Axis.x Axis.x = 1
    rw [Mat.one_apply, if_pos rfl]
  have hsingle : (.ofRows #v[#v[1]] : Mat 1 1 ℝ) = 1 := by
    ext i j
    obtain rfl := Subsingleton.elim i 0
    obtain rfl := Subsingleton.elim j 0
    rw [Mat.one_apply, if_pos rfl]
    rfl
  rw [hcov, hvar, hsingle, Mat.restrict_one hplane, Mat.blockDiagonal_one]

/-- A speed that counts is met halfway. -/
theorem speed_slowBicycle {v : ℝ} (hnear : |1 - v| < kilometresPerHour 10.0)
    (hlow : -kilometresPerHour 80.0 ≤ (1 + v) / 2) (hhigh : (1 + v) / 2 ≤ kilometresPerHour 80.0)
    (ego : Isometry ℝ) :
    (slowBicycle.measure (seenBicycle v) ego).1.estimate.filter.mean TurnRate.State.speed =
      (1 + v) / 2 := by
  let pose := (seenBicycle v).centre.shift (slowBicycle.seenWay (seenBicycle v) ego)
  let yaw := TurnRate.unwrap 0 pose.yaw .signUnknown
  let y : Vec 4 ℝ := ⟨#v[pose.point.x, pose.point.y, yaw, v]⟩
  have hcorrect : slowBicycle.corrected? (seenBicycle v) ego =
      slowBicycle.estimate.correct y (Kalman.observeFirst 4 5) 1 := by
    rw [← measuredCov_seenBicycle v pose.yaw]
    refine (correct?_eq ..).trans ?_
    rw [seenSpeed?_eq_some (b := slowBicycle) (k := (seenBicycle v).kinematics) rfl hnear]
    rfl
  obtain ⟨e, he, hspeed⟩ := correct_speed_one slowBicycle.estimate rfl y
  have hmean : e.filter.mean TurnRate.State.speed = (1 + v) / 2 := hspeed
  rw [measure_eq, hcorrect.trans he]
  show (TurnRate.shift (e.mapMean _) _).filter.mean TurnRate.State.speed = _
  rw [TurnRate.shift_speed]
  show slowBicycle.profile.motion.limit e.filter.mean TurnRate.State.speed = _
  rw [TurnRate.limit_speed, hmean]
  exact Scalar.clamp_eq hlow hhigh

theorem backwards_seenBicycle (v : ℝ) : (seenBicycle v).backwards = seenBicycle (-v) := by
  have htwist : (⟨-v, -0, 0⟩ : Twist ℝ) = ⟨-v, 0, 0⟩ := by rw [neg_zero]
  unfold seenBicycle Detection.backwards Kinematics.backwards
  dsimp only
  rw [htwist]

/-- What is said about reversed objects is said about the bicycle. -/
theorem seenBicycle_applies (v : ℝ) :
    (∀ outline height, (seenBicycle v).shape ≠ .polygon outline height) ∧
      (seenBicycle v).kinematics.heading ≠ .available ∧
      ∀ n : ℤ, slowBicycle.pose.yaw - (seenBicycle v).kinematics.pose.yaw ≠
        (2 * n + 1) * (Real.pi / 2) := by
  refine ⟨nofun, nofun, fun n h => ?_⟩
  have hzero : (0 - 0 : ℝ) = (2 * n + 1) * (Real.pi / 2) := h
  rw [sub_zero, zero_eq_mul] at hzero
  rcases hzero with hodd | hpi
  · have hcast : (2 * n + 1 : ℤ) = 0 := by exact_mod_cast hodd
    omega
  · exact absurd hpi Real.pi_div_two_pos.ne'

/-- A speed that is out of reach both ways does not count. -/
theorem measure_reversed_ok_slowBicycle :
    slowBicycle.CountsAlike (seenBicycle 10).kinematics ∧
      slowBicycle.measure (seenBicycle 10).reversed .identity =
        slowBicycle.measure (seenBicycle 10) .identity := by
  obtain ⟨hshape, hheading, hfold⟩ := seenBicycle_applies 10
  have hquarter : slowBicycle.pose.yaw - (seenBicycle 10).kinematics.pose.yaw ≠ Real.pi / 2 := by
    simpa using hfold 0
  have hfront : kilometresPerHour 10.0 ≤ |(1 : ℝ) - 10| := by
    unfold kilometresPerHour
    norm_num
  have hback : kilometresPerHour 10.0 ≤ |(1 : ℝ) + 10| := by
    unfold kilometresPerHour
    norm_num
  have halike : slowBicycle.CountsAlike (seenBicycle 10).kinematics :=
    countsAlike_iff.2 fun _ => .inr ⟨hfront, hback⟩
  exact ⟨halike, (measure_reversed_ok slowBicycle (seenBicycle 10) .identity hshape hheading
    hquarter).2 halike⟩

/-- A speed within reach both ways counts both ways: seen as it is, the bicycle goes on, and seen
reversed it stops. -/
theorem slowBicycle_stops :
    (∀ outline height, (seenBicycle 1).shape ≠ .polygon outline height) ∧
      (seenBicycle 1).kinematics.heading ≠ .available ∧
      (∀ n : ℤ, slowBicycle.pose.yaw - (seenBicycle 1).kinematics.pose.yaw ≠
        (2 * n + 1) * (Real.pi / 2)) ∧
      slowBicycle.measure (seenBicycle 1).reversed .identity ≠
        slowBicycle.measure (seenBicycle 1) .identity := by
  obtain ⟨hshape, hheading, hfold⟩ := seenBicycle_applies 1
  refine ⟨hshape, hheading, hfold, fun hsame => ?_⟩
  have hquarter : slowBicycle.pose.yaw - (seenBicycle 1).kinematics.pose.yaw ≠ Real.pi / 2 := by
    simpa using hfold 0
  have hahead : (slowBicycle.measure (seenBicycle 1) .identity).1.estimate.filter.mean
      TurnRate.State.speed = (1 + 1) / 2 := by
    refine speed_slowBicycle ?_ ?_ ?_ _ <;> unfold kilometresPerHour <;> norm_num
  have hback : (slowBicycle.measure (seenBicycle (-1)) .identity).1.estimate.filter.mean
      TurnRate.State.speed = (1 + -1) / 2 := by
    refine speed_slowBicycle ?_ ?_ ?_ _ <;> unfold kilometresPerHour <;> norm_num
  rw [← backwards_seenBicycle, ← measure_reversed .identity hshape hheading hquarter, hsame,
    hahead] at hback
  norm_num at hback

end BoxTrack

end TrackFusion
