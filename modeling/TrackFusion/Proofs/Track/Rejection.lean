import TrackFusion.Proofs.Covariance.Blocks
import TrackFusion.Proofs.Track.Measurement
import TrackFusion.Proofs.Track.Reachable

/-!
# Measurements that are rejected

A measurement is rejected if the filter cannot be corrected by it. The filter itself is left alone
then, but what is kept beside it is not: the height, the heading and the shape are taken over all
the same, and so is what follows from them for the position.

* `TrackModel.SameFilter`: models that only differ in their means and beside the filter.
* `BoxTrack.Foresees`, `PointTrack.Foresees`: a detection that has nothing new beside the filter.
* `TrackModel.measure_rejected_iff`: what a rejected measurement leaves as it was.
-/

namespace TrackFusion

variable {α : Type} [ExactScalar α]

theorem smoothHeight_eq_iff {z z' : α} : smoothHeight z z' = z ↔ z' = z := by
  have hgain : (heightGain : α) = 9 / 10 := by
    rw [heightGain, ExactScalar.ofScientific_eq]
    norm_num
  have hone : (1.0 : α) = 1 := by
    rw [ExactScalar.ofScientific_eq]
    norm_num
  have hsmooth : smoothHeight z z' - z = (z' - z) / 10 := by
    rw [smoothHeight, hgain, hone]
    ring
  rw [← sub_eq_zero, hsmooth, div_eq_zero_iff, sub_eq_zero]
  norm_num

/-- The estimates that a model keeps whatever happens to the means. -/
def Estimate.SameFilter {n : ℕ} (e e' : Estimate n α) : Prop :=
  e'.time = e.time ∧ e'.filter.cov = e.filter.cov

namespace BoxTrack

/-- A detection that tells nothing new about what is kept beside the filter, for an estimate within
its limits. -/
structure Foresees (b : BoxTrack α) (d : Detection α) (ego : Isometry α) : Prop where
  limit : b.limit = b
  height : d.centre.z = b.z
  box : b.accepts d = true → b.profile.blendBox b.box d.box = b.box
  still : (b.seenWay d ego).scale b.profile.shapeGain = 0

variable {b : BoxTrack α} {d : Detection α} {ego : Isometry α}

/-- An estimate is where it was after a shift within its limits if it was within them and the shift
is none. -/
theorem shift_limit_eq_iff {e : Estimate 5 α} {p : TurnRate.Params α} {v : Point α} :
    TurnRate.shift (e.mapMean p.limit) v = e ↔ e.mapMean p.limit = e ∧ v = 0 := by
  constructor
  · intro h
    have hx := congrArg (fun e => e.filter.mean TurnRate.State.x) h
    have hy := congrArg (fun e => e.filter.mean TurnRate.State.y) h
    simp only [TurnRate.shift_x, TurnRate.shift_y, Estimate.mapMean, TurnRate.limit_x,
      TurnRate.limit_y, add_eq_left] at hx hy
    have hv : v = 0 := by
      cases v
      exact Point.mk.injEq .. ▸ ⟨hx, hy⟩
    rw [hv, TurnRate.shift_zero] at h
    exact ⟨h, hv⟩
  · rintro ⟨h, rfl⟩
    rw [TurnRate.shift_zero, h]

theorem measure_rejected (h : (b.measure d ego).2 = false) :
    (b.measure d ego).1.profile = b.profile ∧
      b.estimate.SameFilter (b.measure d ego).1.estimate ∧
      ((b.measure d ego).1 = b ↔ b.Foresees d ego) := by
  rw [measure_eq] at h ⊢
  rw [Option.isSome_eq_false_iff, Option.isNone_iff_eq_none] at h
  simp only [h, Option.getD_none]
  refine ⟨trivial, ⟨rfl, rfl⟩, ?_⟩
  have hneg : (b.seenWay d ego).scale (-b.profile.shapeGain) = 0 ↔
      (b.seenWay d ego).scale b.profile.shapeGain = 0 := by
    simp [Point.scale, Point.zero_eq]
  constructor
  · intro hsame
    obtain ⟨hlimit, hstill⟩ := shift_limit_eq_iff.1 (congrArg estimate hsame)
    have hz : smoothHeight b.z d.centre.z = b.z := congrArg z hsame
    have hbox : (if b.accepts d then b.profile.blendBox b.box d.box else b.box) = b.box :=
      congrArg box hsame
    exact ⟨congrArg (fun e => { b with estimate := e }) hlimit, smoothHeight_eq_iff.1 hz,
      fun haccepts => by rwa [if_pos haccepts] at hbox, hneg.1 hstill⟩
  · rintro ⟨hlimit, hz, hbox, hstill⟩
    have hestimate : b.estimate.mapMean b.profile.motion.limit = b.estimate :=
      congrArg estimate hlimit
    have hbox' : (if b.accepts d then b.profile.blendBox b.box d.box else b.box) = b.box := by
      split
      · next haccepts => exact hbox haccepts
      · rfl
    rw [shift_limit_eq_iff.2 ⟨hestimate, hneg.2 hstill⟩, smoothHeight_eq_iff.2 hz, hbox']

end BoxTrack

namespace PointTrack

/-- A detection that tells nothing new about what is kept beside the filter, for an estimate within
its limits. -/
structure Foresees (p : PointTrack α) (d : Detection α) : Prop where
  limit : p.limit = p
  height : d.kinematics.pose.z = p.z
  heading : d.kinematics.pose.yaw = p.yaw
  shape : d.shape = p.shape

variable {p : PointTrack α} {d : Detection α} {velocityCounts : Bool}

theorem measure_rejected (h : (p.measure d velocityCounts).2 = false) :
    (p.measure d velocityCounts).1.profile = p.profile ∧
      p.estimate.SameFilter (p.measure d velocityCounts).1.estimate ∧
      ((p.measure d velocityCounts).1 = p ↔ p.Foresees d) := by
  have hnone : p.correct? d.kinematics velocityCounts = none :=
    Option.isNone_iff_eq_none.1 (Option.isSome_eq_false_iff.1 h)
  have hmeasure : (p.measure d velocityCounts).1 =
      { p with
        estimate := p.estimate.mapMean p.profile.motion.limit
        z := smoothHeight p.z d.kinematics.pose.z
        yaw := d.kinematics.pose.yaw
        shape := d.shape } := by
    rw [measure, hnone]
    rfl
  rw [hmeasure]
  refine ⟨rfl, ⟨rfl, rfl⟩, fun hsame => ?_, fun hnew => ?_⟩
  · have hestimate : p.estimate.mapMean p.profile.motion.limit = p.estimate :=
      congrArg estimate hsame
    have hz : smoothHeight p.z d.kinematics.pose.z = p.z := congrArg z hsame
    exact ⟨congrArg (fun e => { p with estimate := e }) hestimate, smoothHeight_eq_iff.1 hz,
      congrArg yaw hsame, congrArg shape hsame⟩
  · obtain ⟨hlimit, hz, hyaw, hshape⟩ := hnew
    rw [smoothHeight_eq_iff.2 hz, hyaw, hshape]
    exact hlimit

end PointTrack

namespace TrackModel

/-- Models that have the same kind, assumptions, time and covariance. -/
def SameFilter : TrackModel α → TrackModel α → Prop
  | box b, box b' => b'.profile = b.profile ∧ b.estimate.SameFilter b'.estimate
  | point p, point p' => p'.profile = p.profile ∧ p.estimate.SameFilter p'.estimate
  | unclassified p, unclassified p' => p'.profile = p.profile ∧ p.estimate.SameFilter p'.estimate
  | _, _ => False

/-- **What a rejected measurement leaves as it was**: the covariance and the time of the filter
always, and all of the model exactly if the estimate was within its limits and nothing that is kept
beside the filter is new. Where there is no filter, no measurement is rejected. -/
theorem measure_rejected_iff (m : TrackModel α) (d : Detection α) (t : Time α) (ego : Isometry α)
    (h : (m.measure d t ego).2 = false) :
    m.SameFilter (m.measure d t ego).1 ∧
      ((m.measure d t ego).1 = m ↔
        m.All (fun b => b.Foresees d ego) fun p => p.Foresees d) := by
  cases m with
  | box b =>
    obtain ⟨hprofile, hsame, hiff⟩ := BoxTrack.measure_rejected h
    exact ⟨⟨hprofile, hsame⟩, (box.injEq ..).to_iff.trans hiff⟩
  | point p =>
    obtain ⟨hprofile, hsame, hiff⟩ := PointTrack.measure_rejected h
    exact ⟨⟨hprofile, hsame⟩, (point.injEq ..).to_iff.trans hiff⟩
  | unclassified p =>
    obtain ⟨hprofile, hsame, hiff⟩ := PointTrack.measure_rejected h
    exact ⟨⟨hprofile, hsame⟩, (unclassified.injEq ..).to_iff.trans hiff⟩
  | passThrough p => exact absurd h Bool.true_eq_false.mp

/-! ### A car without a doubt -/

/-- A detection of a car at some height, of which the position and the velocity are certain. -/
def certainCar {α : Type} [Scalar α] (z : α) : Detection α where
  existence := 1
  classes := [⟨.car, 1⟩]
  kinematics :=
    { Kinematics.ofPose ⟨3.0, 4.0, z, 0⟩ with hasPoseCov := true, hasTwistCov := true }
  shape := .box ⟨4.0, 2.0, 1.0⟩

/-- A track that knows all about the car, at height zero. -/
def certainTrack {α : Type} [Scalar α] : PointTrack α where
  profile := .generic
  estimate := ⟨⟨⟨#v[3.0, 4.0, 0, 0]⟩, 0⟩, ⟨0⟩⟩
  z := 0
  yaw := 0
  shape := .box ⟨4.0, 2.0, 1.0⟩

/-- It is the one that starts at the car. -/
theorem spawn_certainCar : PointTrack.spawn ⟨0⟩ (certainCar (0 : α)) .generic = certainTrack := by
  have hzero (axes : Fin 2 → Fin 6) : (0 : Mat 6 6 α).restrict axes = 0 := by
    ext i j
    rw [Mat.restrict_apply, Mat.zero_apply, Mat.zero_apply]
  have hturned (a : Mat 2 2 α) : a.congruence 0 = 0 := by
    ext i j
    simp [Mat.congruence, sum_eq]
  have hcov : PointTrack.initialCov .generic (certainCar (0 : α)).kinematics = 0 := by
    show Mat.blockDiagonal ((0 : Mat 6 6 α).restrict Axis.plane)
      ((rotation (0 : α)).congruence ((0 : Mat 6 6 α).restrict Axis.plane)) = 0
    rw [hzero, hturned, Mat.blockDiagonal_zero]
  rw [PointTrack.spawn, hcov]
  rfl

/-- To see the car again is no use, and changes nothing. -/
theorem measure_rejected_iff_certain :
    PointTrack.spawn ⟨0⟩ (certainCar (0 : ℚ)) .generic = certainTrack ∧
      ((point certainTrack).measure (certainCar (0 : ℚ)) ⟨0⟩ .identity).2 = false ∧
      ((point certainTrack).measure (certainCar (0 : ℚ)) ⟨0⟩ .identity).1 = point certainTrack := by
  have hrejected :
      ((point certainTrack).measure (certainCar (0 : ℚ)) ⟨0⟩ .identity).2 = false := by
    decide +kernel
  have hlimit : (certainTrack (α := ℚ)).estimate.mapMean certainTrack.profile.motion.limit =
      certainTrack.estimate := by
    decide +kernel
  refine ⟨spawn_certainCar, hrejected, (measure_rejected_iff _ _ _ _ hrejected).2.2
    ⟨?_, rfl, rfl, rfl⟩⟩
  exact congrArg (fun e => { certainTrack (α := ℚ) with estimate := e }) hlimit

/-- To see it higher up is no use either, but the track rises. So it does in doubles. -/
theorem certain_measure_moves :
    ((point certainTrack).measure (certainCar (1 : Float)) ⟨0⟩ .identity).2 = false ∧
      ((point certainTrack).measure (certainCar (1 : Float)) ⟨0⟩ .identity).1 ≠
        point certainTrack := by
  have hheight : (certainTrack.measure (certainCar (1 : Float)) true).1.z ≠ certainTrack.z := by
    decide +kernel
  exact ⟨by decide +kernel, fun hsame => hheight (congrArg PointTrack.z (point.inj hsame))⟩

end TrackModel

end TrackFusion
