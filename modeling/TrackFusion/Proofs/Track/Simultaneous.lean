import TrackFusion.Proofs.Covariance.Information
import TrackFusion.Proofs.Track.Horizon
import TrackFusion.Track.PointTrack

/-!
# Measurements of the same time

Batches with the same stamp come from several channels, and any of them may be worked off first.

* `Estimate.advance_own`: the second batch finds the estimate at its time already.
* `ConstantVelocity.Measured`: what a point track takes from a batch, and `Measured.absorb?`: how.
* `PointTrack.measure_swap`: two detections of a track, within the limits of its velocity.
* `corrections_commute`: two measurements come to the same, whichever is taken first.
-/

namespace TrackFusion

/-- No way is gone in any number of steps, if each stays where it is. -/
theorem Estimate.advance_own {n : ℕ} {d : Dynamics n ℝ} {e : Estimate n ℝ}
    (h : d.step 0 e.filter = some e.filter) : e.advance d e.time = some e := by
  have hiterate (k : ℕ) : iterate (d.step 0) k e.filter = some e.filter := by
    induction k with
    | zero => rfl
    | succ k ih => rw [iterate, h, Option.bind_some, ih]
  have hdt : (e.time - e.time : ℝ) = 0 := sub_self e.time.seconds
  unfold advance Dynamics.run
  simp only [hdt, lt_irrefl, if_false, zero_div, hiterate, Option.map_some]

theorem Estimate.correct_eq {α : Type} [Scalar α] {m n : ℕ} {f f' : Kalman n α} {y : Vec m α}
    {c : Mat m n α} {r : Mat m m α} (h : f.correct y c r = .ok f') (t : Time α) :
    Estimate.correct ⟨f, t⟩ y c r = some ⟨f', t⟩ := by
  unfold Estimate.correct
  rw [h]
  rfl

theorem Estimate.correct_cases {α : Type} [Scalar α] {m n : ℕ} {e e' : Estimate n α} {y : Vec m α}
    {c : Mat m n α} {r : Mat m m α} (h : e.correct y c r = some e') :
    ∃ f, e.filter.correct y c r = .ok f ∧ e' = ⟨f, e.time⟩ := by
  unfold Estimate.correct at h
  cases hf : e.filter.correct y c r with
  | error _ =>
    rw [hf] at h
    cases h
  | ok f =>
    rw [hf] at h
    exact ⟨f, rfl, (Option.some.inj h).symm⟩

/-- What is not correlated with what is observed keeps its mean. -/
theorem Kalman.mean_correct_of_uncorrelated {m n : ℕ} {f f' : Kalman n ℝ} {y : Vec m ℝ}
    {c : Mat m n ℝ} {r : Mat m m ℝ} (h : f.correct y c r = .ok f') {i : Fin n}
    (hi : ∀ l, (f.cov * c.transpose) i l = 0) : f'.mean i = f.mean i := by
  obtain ⟨k, hk, -, rfl⟩ := correct_eq_ok_iff.1 h
  obtain ⟨s, -, rfl⟩ := Option.map_eq_some_iff.1 hk
  have hgain (l : Fin m) : (f.cov * c.transpose * s) i l = 0 := by
    rw [Mat.mul_apply, sum_eq]
    exact Finset.sum_eq_zero fun a _ => by rw [hi a, zero_mul]
  rw [Vec.add_apply, Mat.mulVec_apply, sum_eq,
    Finset.sum_eq_zero fun l _ => by rw [hgain l, zero_mul], add_zero]

namespace ConstantVelocity

/-- A measurement of a position, or of a position and a velocity in the world. -/
inductive Measured (α : Type) where
  | position (p : Point α) (cov : Mat 2 2 α)
  | velocity (p : Point α) (cov : Mat 2 2 α) (v : Point α) (velocityCov : Mat 2 2 α)

namespace Measured

section scalar

variable {α : Type} [Scalar α]

def correct? (a : Measured α) (e : Estimate 4 α) : Option (Estimate 4 α) :=
  match a with
  | position p cov => correctPosition e p cov
  | velocity p cov v velocityCov => correctVelocity e p cov v velocityCov

/-- The estimate after a measurement of some time, to which it is carried on first. -/
def absorb? (p : Params α) (t : Time α) (a : Measured α) (e : Estimate 4 α) :
    Option (Estimate 4 α) :=
  (e.advance p.dynamics t).bind a.correct?

end scalar

/-- What is measured is measured with some doubt in every direction. -/
def IsDefinite : Measured ℝ → Prop
  | position _ cov => cov.IsDefinite
  | velocity _ cov _ velocityCov => cov.IsDefinite ∧ velocityCov.IsDefinite

variable {p : Params ℝ} {t : Time ℝ} {e e₀ : Estimate 4 ℝ} {a b : Measured ℝ}

theorem IsDefinite.exists_correct (ha : a.IsDefinite) :
    ∃ (m : ℕ) (y : Vec m ℝ) (c : Mat m 4 ℝ) (r : Mat m m ℝ), r.IsDefinite ∧
      ∀ e, a.correct? e = e.correct y c r := by
  cases a with
  | position p cov => exact ⟨2, _, _, _, ha, fun _ => rfl⟩
  | velocity p cov v velocityCov => exact ⟨4, _, _, _, ha.1.blockDiagonal ha.2, fun _ => rfl⟩

theorem IsDefinite.correct?_definite (ha : a.IsDefinite) (he : e.filter.cov.IsDefinite) :
    ∃ e', a.correct? e = some e' ∧ e'.time = e.time ∧ e'.filter.cov.IsDefinite := by
  obtain ⟨m, y, c, r, hr, ha⟩ := ha.exists_correct
  obtain ⟨f, hf, hdefinite, -, -⟩ := Kalman.correct_adds (c := c) he hr y
  refine ⟨⟨f, e.time⟩, ?_, rfl, hdefinite⟩
  rw [ha]
  exact Estimate.correct_eq hf e.time

theorem correct?_swap (he : e.filter.cov.IsDefinite) (ha : a.IsDefinite) (hb : b.IsDefinite) :
    (a.correct? e).bind b.correct? = (b.correct? e).bind a.correct? := by
  obtain ⟨f, t⟩ := e
  obtain ⟨m₁, y₁, c₁, r₁, h₁, ha⟩ := ha.exists_correct
  obtain ⟨m₂, y₂, c₂, r₂, h₂, hb⟩ := hb.exists_correct
  obtain ⟨f₁, f₂, f', hf₁, hf', hf₂, hback⟩ := Kalman.correct_swap he h₁ h₂ y₁ y₂
  rw [ha, hb, Estimate.correct_eq hf₁ t, Estimate.correct_eq hf₂ t, Option.bind_some,
    Option.bind_some, ha, hb, Estimate.correct_eq hf' t, Estimate.correct_eq hback t]

/-- The second of two measurements of one time finds the estimate where the first has left it. -/
theorem absorb?_bind (h : e.advance p.dynamics t = some e₀) (he₀ : e₀.filter.cov.IsDefinite)
    (ha : a.IsDefinite) :
    (a.absorb? p t e).bind (b.absorb? p t) = (a.correct? e₀).bind b.correct? := by
  obtain ⟨-, f, -, rfl⟩ := Estimate.advance_cases h
  obtain ⟨e₁, he₁, htime, hdefinite⟩ := ha.correct?_definite he₀
  have hstill : e₁.advance p.dynamics t = some e₁ := by
    rw [← show e₁.time = t from htime]
    exact Estimate.advance_own (step_zero p hdefinite.isCovariance.transpose_eq)
  rw [absorb?, h, Option.bind_some, he₁, Option.bind_some, Option.bind_some, absorb?, hstill,
    Option.bind_some]

end Measured

end ConstantVelocity

namespace PointTrack

/-- What a point track takes from a detection. -/
def measured {α : Type} [Scalar α] (p : PointTrack α) (k : Kinematics α) (velocityCounts : Bool) :
    ConstantVelocity.Measured α :=
  if velocityCounts && k.hasTwist then
    .velocity k.pose.point (measuredCov p.profile k) (k.twist.worldVelocity k.pose.yaw)
      (measuredVelocityCov p.profile k)
  else .position k.pose.point (measuredCov p.profile k)

theorem correct?_eq {α : Type} [Scalar α] (p : PointTrack α) (k : Kinematics α)
    (velocityCounts : Bool) :
    p.correct? k velocityCounts = (p.measured k velocityCounts).correct? p.estimate := by
  unfold correct? measured
  split
  · rfl
  · rfl

variable {p : PointTrack ℝ} {d d' : Detection ℝ} {counts counts' : Bool}

/-- If the velocity stays within its limits, the estimate is what the correction makes it. -/
theorem estimate_measure {e : Estimate 4 ℝ} (he : p.correct? d.kinematics counts = some e)
    (hlimit : p.profile.motion.Allows e.filter.mean) :
    (p.measure d counts).1.estimate = e := by
  show ((p.correct? d.kinematics counts).getD p.estimate).mapMean p.profile.motion.limit = e
  rw [he, Option.getD_some, Estimate.mapMean, hlimit.limit_eq]

/-- A track, too, comes to the same estimate with two detections, whichever is taken first, unless
one of them takes the velocity out of its limits. -/
theorem measure_swap (he : p.estimate.filter.cov.IsDefinite)
    (hd : (p.measured d.kinematics counts).IsDefinite)
    (hd' : (p.measured d'.kinematics counts').IsDefinite)
    (hlimit : ∀ e, p.correct? d.kinematics counts = some e →
      p.profile.motion.Allows e.filter.mean)
    (hlimit' : ∀ e, p.correct? d'.kinematics counts' = some e →
      p.profile.motion.Allows e.filter.mean) :
    ((p.measure d counts).1.measure d' counts').1.estimate =
      ((p.measure d' counts').1.measure d counts).1.estimate := by
  obtain ⟨e₁, he₁, -, hdefinite⟩ := hd.correct?_definite he
  obtain ⟨e₂, he₂, -, -⟩ := hd'.correct?_definite he
  obtain ⟨e', he', -, -⟩ := hd'.correct?_definite hdefinite
  have hback : (p.measured d.kinematics counts).correct? e₂ = some e' := by
    have hswap := ConstantVelocity.Measured.correct?_swap he hd hd'
    rwa [he₁, he₂, Option.bind_some, Option.bind_some, he', eq_comm] at hswap
  rw [← correct?_eq] at he₁ he₂
  have hfirst := estimate_measure he₁ (hlimit e₁ he₁)
  have hfirst' := estimate_measure he₂ (hlimit' e₂ he₂)
  show (((p.measure d counts).1.correct? d'.kinematics counts').getD _).mapMean
      p.profile.motion.limit =
    (((p.measure d' counts').1.correct? d.kinematics counts).getD _).mapMean p.profile.motion.limit
  rw [correct?_eq, correct?_eq, hfirst, hfirst']
  have hsecond : ((p.measure d counts).1.measured d'.kinematics counts').correct? e₁ = some e' :=
    he'
  have hsecond' : ((p.measure d' counts').1.measured d.kinematics counts).correct? e₂ = some e' :=
    hback
  rw [hsecond, hsecond', Option.getD_some, Option.getD_some]

end PointTrack

/-- **Two measurements of one time come to the same, whichever is taken first.** This is so for any
two corrections of a filter, and so for the positions and velocities that two channels report with
equal stamps. Limits to the velocity are no part of it: a track comes to the same with two
detections, if neither of them takes its velocity out of the limits. -/
theorem corrections_commute :
    (∀ (n m₁ m₂ : ℕ) (f : Kalman n ℝ) (y₁ : Vec m₁ ℝ) (c₁ : Mat m₁ n ℝ) (r₁ : Mat m₁ m₁ ℝ)
        (y₂ : Vec m₂ ℝ) (c₂ : Mat m₂ n ℝ) (r₂ : Mat m₂ m₂ ℝ),
      f.cov.IsDefinite → r₁.IsDefinite → r₂.IsDefinite →
        ∃ f₁ f₂ f', f.correct y₁ c₁ r₁ = .ok f₁ ∧ f₁.correct y₂ c₂ r₂ = .ok f' ∧
          f.correct y₂ c₂ r₂ = .ok f₂ ∧ f₂.correct y₁ c₁ r₁ = .ok f') ∧
    (∀ (p : ConstantVelocity.Params ℝ) (t : Time ℝ) (e e₀ : Estimate 4 ℝ)
        (a b : ConstantVelocity.Measured ℝ),
      e.advance p.dynamics t = some e₀ → e₀.filter.cov.IsDefinite →
      a.IsDefinite → b.IsDefinite →
        ∃ e', (a.absorb? p t e).bind (b.absorb? p t) = some e' ∧
          (b.absorb? p t e).bind (a.absorb? p t) = some e') ∧
    ∀ (p : PointTrack ℝ) (d d' : Detection ℝ) (counts counts' : Bool),
      p.estimate.filter.cov.IsDefinite → (p.measured d.kinematics counts).IsDefinite →
      (p.measured d'.kinematics counts').IsDefinite →
      (∀ e, p.correct? d.kinematics counts = some e → p.profile.motion.Allows e.filter.mean) →
      (∀ e, p.correct? d'.kinematics counts' = some e → p.profile.motion.Allows e.filter.mean) →
        ((p.measure d counts).1.measure d' counts').1.estimate =
          ((p.measure d' counts').1.measure d counts).1.estimate := by
  refine ⟨fun n m₁ m₂ f y₁ c₁ r₁ y₂ c₂ r₂ hf h₁ h₂ => ?_, fun p t e e₀ a b h hcov ha hb => ?_,
    fun p d d' counts counts' => PointTrack.measure_swap⟩
  · exact Kalman.correct_swap hf h₁ h₂ y₁ y₂
  · obtain ⟨e₁, he₁, -, hdefinite⟩ := ha.correct?_definite hcov
    obtain ⟨e', he', -, -⟩ := hb.correct?_definite hdefinite
    have hboth : (a.absorb? p t e).bind (b.absorb? p t) = some e' := by
      rw [ConstantVelocity.Measured.absorb?_bind h hcov ha, he₁, Option.bind_some, he']
    refine ⟨e', hboth, ?_⟩
    rw [ConstantVelocity.Measured.absorb?_bind h hcov hb,
      ← ConstantVelocity.Measured.correct?_swap hcov ha hb,
      ← ConstantVelocity.Measured.absorb?_bind h hcov ha, hboth]

/-! ### Two channels -/

/-- A track at the origin of which nothing is correlated. -/
noncomputable def resting : PointTrack ℝ := ⟨.generic, ⟨⟨0, 1⟩, ⟨0⟩⟩, 0, 0, .box ⟨4.0, 2.0, 1.0⟩⟩

/-- A position that is measured with as much doubt in every direction. -/
noncomputable def sighting (x y : ℝ) : Detection ℝ where
  existence := 1
  classes := [⟨.car, 1⟩]
  kinematics := { Kinematics.ofPose ⟨x, y, 0, 0⟩ with poseCov := 1, hasPoseCov := true }
  shape := .box ⟨4.0, 2.0, 1.0⟩

theorem measured_sighting (x y : ℝ) :
    resting.measured (sighting x y).kinematics true = .position ⟨x, y⟩ 1 := by
  have hplane : Function.Injective Axis.plane := by decide
  have hcov : PointTrack.measuredCov resting.profile (sighting x y).kinematics = 1 :=
    Mat.restrict_one hplane
  have hpoint : (sighting x y).kinematics.pose.point = ⟨x, y⟩ := rfl
  rw [PointTrack.measured, hcov, hpoint]
  rfl

/-- A position tells nothing of a velocity that it is not correlated with. -/
theorem allows_sighting (x y : ℝ) {e : Estimate 4 ℝ}
    (h : resting.correct? (sighting x y).kinematics true = some e) :
    resting.profile.motion.Allows e.filter.mean := by
  rw [PointTrack.correct?_eq, measured_sighting] at h
  obtain ⟨f, hf, rfl⟩ := Estimate.correct_cases h
  have hzero (i : Fin 4) (hi : 2 ≤ i.val) : f.mean i = 0 := by
    have hblind (l : Fin 2) : (Kalman.observeFirst 2 4 : Mat 2 4 ℝ) l i = 0 := by
      rw [Kalman.observeFirst, Mat.ofFn_apply, if_neg (by omega)]
    have hkept := Kalman.mean_correct_of_uncorrelated (i := i) hf fun l => by
      show ((1 : Mat 4 4 ℝ) * (Kalman.observeFirst 2 4 : Mat 2 4 ℝ).transpose) i l = 0
      simp [sum_eq, hblind]
    exact hkept.trans (Vec.zero_apply i)
  have hmax : (0 : ℝ) ≤ resting.profile.motion.maxVx ∧ (0 : ℝ) ≤ resting.profile.motion.maxVy := by
    norm_num [resting, PointProfile.generic, ConstantVelocity.Params.usual, kilometresPerHour]
  have hvx := hzero ConstantVelocity.State.vx (by decide)
  have hvy := hzero ConstantVelocity.State.vy (by decide)
  constructor
  · exact hvx ▸ neg_nonpos.2 hmax.1
  · exact hvx ▸ hmax.1
  · exact hvy ▸ neg_nonpos.2 hmax.2
  · exact hvy ▸ hmax.2

/-- One channel measures a position and the other one a velocity as well. -/
theorem corrections_commute_channels :
    (∃ e', ((ConstantVelocity.Measured.position ⟨1, 2⟩ 1).absorb? .usual ⟨0⟩ ⟨⟨0, 1⟩, ⟨0⟩⟩).bind
        ((ConstantVelocity.Measured.velocity ⟨2, 2⟩ 1 ⟨3, 0⟩ 1).absorb? .usual ⟨0⟩) = some e' ∧
      ((ConstantVelocity.Measured.velocity ⟨2, 2⟩ 1 ⟨3, 0⟩ 1).absorb? .usual ⟨0⟩
        (⟨⟨0, 1⟩, ⟨0⟩⟩ : Estimate 4 ℝ)).bind
        ((ConstantVelocity.Measured.position ⟨1, 2⟩ 1).absorb? .usual ⟨0⟩) = some e') ∧
    ((resting.measure (sighting 1 2) true).1.measure (sighting 2 1) true).1.estimate =
      ((resting.measure (sighting 2 1) true).1.measure (sighting 1 2) true).1.estimate := by
  have hone : (1 : Mat 4 4 ℝ).IsDefinite := Mat.isDefinite_one
  have hstill := ConstantVelocity.step_zero (f := ⟨0, 1⟩) .usual hone.isCovariance.transpose_eq
  have hmeasured (x y : ℝ) : (resting.measured (sighting x y).kinematics true).IsDefinite := by
    rw [measured_sighting]
    exact Mat.isDefinite_one
  obtain ⟨-, hchannels, htracks⟩ := corrections_commute
  refine ⟨hchannels .usual ⟨0⟩ ⟨⟨0, 1⟩, ⟨0⟩⟩ ⟨⟨0, 1⟩, ⟨0⟩⟩ _ _
    (Estimate.advance_own (e := ⟨⟨0, 1⟩, ⟨0⟩⟩) hstill) hone Mat.isDefinite_one
    ⟨Mat.isDefinite_one, Mat.isDefinite_one⟩, ?_⟩
  exact htracks resting (sighting 1 2) (sighting 2 1) true true hone (hmeasured 1 2)
    (hmeasured 2 1) (fun _ => allows_sighting 1 2) fun _ => allows_sighting 2 1

end TrackFusion
