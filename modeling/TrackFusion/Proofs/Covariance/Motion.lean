import TrackFusion.Proofs.Covariance.Matrices

/-!
# Covariances in motion

A step carries a covariance along a linear map and adds noise, and a correction is in Joseph form.
Both lead from covariances to covariances.

* `Kalman.predict_eq_some_iff`, `correct_eq_ok_iff`: what one step does, and one correction.
* `Kalman.predict_ok`, `correct_isCovariance`: one step, and one correction with any gain.
* `Dynamics.Sound`: dynamics whose steps add a covariance as noise.
* `Estimate.advance_ok`: any way ahead, in as many steps as it takes.
* `ConstantVelocity.sound`, `TurnRate.sound`: the two kinds of motion.
-/

namespace TrackFusion

variable {m n : ℕ}

/-! ### Filters -/

namespace Kalman

section scalar

variable {α : Type} [Scalar α] {f f' : Kalman n α}

/-- **What a prediction does**: it takes the new mean and carries the covariance along, and all of
that is finite. -/
theorem predict_eq_some_iff {next : Vec n α} {a q : Mat n n α} :
    f.predict next a q = some f' ↔ (f'.mean.isFinite = true ∧ f'.cov.isFinite = true) ∧
      f' = ⟨next, (a.congruence f.cov + q).symmetrize⟩ := by
  unfold predict
  dsimp only
  split
  · next h =>
    rw [Bool.and_eq_true] at h
    constructor
    · rintro ⟨⟩
      exact ⟨h, rfl⟩
    · rintro ⟨-, rfl⟩
      rfl
  · next h =>
    refine ⟨nofun, ?_⟩
    rintro ⟨hfinite, rfl⟩
    exact absurd (Bool.and_eq_true _ _ ▸ hfinite) h

/-- **What a correction does**: there is a gain, and the mean that is corrected with it is
finite. -/
theorem correct_eq_ok_iff {y : Vec m α} {c : Mat m n α} {r : Mat m m α} :
    f.correct y c r = .ok f' ↔ ∃ k, f.gain? c r = some k ∧ f'.mean.isFinite = true ∧
      f' = ⟨f.mean + k * f.innovation y c, (joseph f.cov k c r).symmetrize⟩ := by
  unfold correct
  cases f.gain? c r with
  | none => simp
  | some k =>
    dsimp only
    split
    · next h =>
      simp only [Except.ok.injEq, Option.some.injEq, exists_eq_left']
      constructor
      · rintro rfl
        exact ⟨h, rfl⟩
      · exact fun h => h.2.symm
    · next h =>
      simp only [reduceCtorEq, Option.some.injEq, exists_eq_left', false_iff]
      rintro ⟨hmean, rfl⟩
      exact h hmean

end scalar

theorem predict_eq {α : Type} [ExactScalar α] (f : Kalman n α) (next : Vec n α) (a q : Mat n n α) :
    f.predict next a q = some ⟨next, (a.congruence f.cov + q).symmetrize⟩ :=
  predict_eq_some_iff.2 ⟨⟨Vec.isFinite_eq _, Mat.isFinite_eq _⟩, rfl⟩

/-- **A step keeps a covariance**, and no variance is less than the noise. -/
theorem predict_ok {f : Kalman n ℝ} (hf : f.cov.IsCovariance) {q : Mat n n ℝ}
    (hq : q.IsCovariance) (next : Vec n ℝ) (a : Mat n n ℝ) :
    ∃ f', f.predict next a q = some f' ∧ f'.cov.IsCovariance ∧ ∀ i, q i i ≤ f'.cov i i := by
  have hcarried : (a.congruence f.cov).IsCovariance := hf.congruence a
  have hsum : (a.congruence f.cov + q).IsCovariance := hcarried.add hq
  refine ⟨_, f.predict_eq next a q, hsum.symmetrize, fun i => ?_⟩
  show q i i ≤ (a.congruence f.cov + q).symmetrize i i
  rw [Mat.symmetrize_eq hsum.transpose_eq, Mat.add_apply]
  exact le_add_of_nonneg_left (hcarried.diag_nonneg i)

/-- **A correction keeps a covariance**, whatever the gain is. -/
theorem correct_isCovariance {f f' : Kalman n ℝ} (hf : f.cov.IsCovariance) {r : Mat m m ℝ}
    (hr : r.IsCovariance) {y : Vec m ℝ} {c : Mat m n ℝ} (h : f.correct y c r = .ok f') :
    f'.cov.IsCovariance := by
  obtain ⟨k, -, -, rfl⟩ := correct_eq_ok_iff.1 h
  have hjoseph : (joseph f.cov k c r).IsCovariance := hf.joseph hr k c
  exact hjoseph.symmetrize

end Kalman

/-! ### Estimates -/

/-- Every step keeps covariances. Ahead in time it leaves a doubt about each entry in `blurred`. -/
def Dynamics.Sound (d : Dynamics n ℝ) (blurred : Set (Fin n)) : Prop :=
  ∀ (dt : ℝ) (f : Kalman n ℝ), f.cov.IsCovariance →
    ∃ f', d.step dt f = some f' ∧ f'.cov.IsCovariance ∧
      (0 < dt → ∀ i ∈ blurred, 0 < f'.cov i i)

/-- Some steps at least one: what each of them keeps holds after all, and so does what it makes. -/
theorem iterate_succ_ok {β : Type} {g : β → Option β} {P Q : β → Prop}
    (h : ∀ x, P x → ∃ y, g x = some y ∧ P y ∧ Q y) (k : ℕ) {x : β} (hx : P x) :
    ∃ y, iterate g (k + 1) x = some y ∧ P y ∧ Q y := by
  induction k generalizing x with
  | zero =>
    obtain ⟨y, hy, hP, hQ⟩ := h x hx
    refine ⟨y, ?_, hP, hQ⟩
    rw [iterate, hy]
    rfl
  | succ k ih =>
    obtain ⟨y, hy, hP, -⟩ := h x hx
    obtain ⟨z, hz, hPz, hQz⟩ := ih hP
    refine ⟨z, ?_, hPz, hQz⟩
    rw [iterate, hy]
    exact hz

namespace Dynamics

variable {d : Dynamics n ℝ} {blurred : Set (Fin n)}

theorem one_le_stepCount {α : Type} [Scalar α] (d : Dynamics n α) (dt : α) :
    1 ≤ d.stepCount dt := by
  unfold stepCount
  split
  · exact Nat.le_add_left 1 _
  · exact le_rfl

theorem Sound.run (hd : d.Sound blurred) {f : Kalman n ℝ} (hf : f.cov.IsCovariance) (dt : ℝ) :
    ∃ f', d.run dt f = some f' ∧ f'.cov.IsCovariance ∧
      (0 < dt → ∀ i ∈ blurred, 0 < f'.cov i i) := by
  obtain ⟨k, hk⟩ := Nat.exists_eq_succ_of_ne_zero
    (Nat.one_le_iff_ne_zero.1 (d.one_le_stepCount dt))
  have hpos : (0 : ℝ) < (d.stepCount dt : ℝ) := Nat.cast_pos.2 (d.one_le_stepCount dt)
  obtain ⟨f', hf', hcov, hblur⟩ := iterate_succ_ok (hd (dt / (d.stepCount dt : ℝ))) k hf
  refine ⟨f', ?_, hcov, fun hdt => hblur (div_pos hdt hpos)⟩
  rw [Dynamics.run, ← hf', ← Nat.succ_eq_add_one, ← hk]

end Dynamics

namespace Estimate

variable {d : Dynamics n ℝ} {blurred : Set (Fin n)} {e e' : Estimate n ℝ}

/-- **A way ahead keeps a covariance**, and there always is one. -/
theorem advance_ok (hd : d.Sound blurred) (he : e.filter.cov.IsCovariance) {t : Time ℝ}
    (ht : e.time ≤ t) :
    ∃ e', e.advance d t = some e' ∧ e'.filter.cov.IsCovariance ∧
      (e.time < t → ∀ i ∈ blurred, 0 < e'.filter.cov i i) := by
  obtain ⟨f, hf, hcov, hblur⟩ := hd.run he (t - e.time)
  have hnot : ¬ (t - e.time : ℝ) < 0 := not_lt.2 (sub_nonneg.2 ht)
  refine ⟨⟨f, t⟩, ?_, hcov, fun hlt => hblur (sub_pos.2 hlt)⟩
  unfold advance
  simp only [hnot, if_false, hf]
  rfl

theorem advance_isCovariance (hd : d.Sound blurred) (he : e.filter.cov.IsCovariance) {t : Time ℝ}
    (h : e.advance d t = some e') : e'.filter.cov.IsCovariance := by
  have ht : e.time ≤ t := by
    by_contra hlt
    have hneg : (t - e.time : ℝ) < 0 := sub_neg.2 (not_le.1 hlt)
    unfold advance at h
    simp only [hneg, if_true] at h
    cases h
  obtain ⟨e'', he'', hcov, -⟩ := advance_ok hd he ht
  rw [h] at he''
  cases he''
  exact hcov

theorem correct_isCovariance (he : e.filter.cov.IsCovariance) {r : Mat m m ℝ}
    (hr : r.IsCovariance) {y : Vec m ℝ} {c : Mat m n ℝ} (h : e.correct y c r = some e') :
    e'.filter.cov.IsCovariance := by
  obtain ⟨f, hf, rfl⟩ := Option.map_eq_some_iff.1 h
  cases hcorrect : e.filter.correct y c r with
  | error fault =>
    rw [hcorrect] at hf
    cases hf
  | ok f' =>
    rw [hcorrect] at hf
    cases hf
    exact Kalman.correct_isCovariance he hr hcorrect

end Estimate

/-! ### Constant velocity -/

namespace ConstantVelocity

namespace Params

/-- No variance of the noise is negative. -/
structure Proper (p : Params ℝ) : Prop where
  varX : 0 ≤ p.varX
  varY : 0 ≤ p.varY
  varVx : 0 ≤ p.varVx
  varVy : 0 ≤ p.varVy

theorem noise_isCovariance {p : Params ℝ} (hp : p.Proper) (dt : ℝ) :
    (p.noise dt).IsCovariance := by
  have ht : 0 ≤ dt * dt := mul_self_nonneg dt
  refine Mat.isCovariance_diagonal fun i => ?_
  fin_cases i
  · exact mul_nonneg hp.varX ht
  · exact mul_nonneg hp.varY ht
  · exact mul_nonneg hp.varVx ht
  · exact mul_nonneg hp.varVy ht

/-- The places about which the noise leaves a doubt. -/
def blurred (p : Params ℝ) : Set (Fin 4) :=
  {i | i = State.x ∧ 0 < p.varX ∨ i = State.y ∧ 0 < p.varY}

end Params

/-- **A constant velocity keeps covariances.** -/
theorem sound {p : Params ℝ} (hp : p.Proper) : p.dynamics.Sound p.blurred := by
  intro dt f hf
  obtain ⟨f', hf', hcov, hnoise⟩ := Kalman.predict_ok hf (p.noise_isCovariance hp dt)
    (Params.transition dt * f.mean) (Params.transition dt)
  refine ⟨f', hf', hcov, fun hdt i hi => lt_of_lt_of_le ?_ (hnoise i)⟩
  have ht : 0 < dt * dt := mul_pos hdt hdt
  rcases hi with ⟨rfl, hx⟩ | ⟨rfl, hy⟩
  · have hentry : p.noise dt State.x State.x = p.varX * (dt * dt) := Mat.diagonal_apply ..
    rw [hentry]
    exact mul_pos hx ht
  · have hentry : p.noise dt State.y State.y = p.varY * (dt * dt) := Mat.diagonal_apply ..
    rw [hentry]
    exact mul_pos hy ht

end ConstantVelocity

/-! ### Constant turn rate and velocity -/

namespace TurnRate

namespace Params

/-- No variance of the noise is negative. -/
structure Proper (p : Params ℝ) : Prop where
  varX : 0 ≤ p.varX
  varY : 0 ≤ p.varY
  varYaw : 0 ≤ p.varYaw
  varSpeed : 0 ≤ p.varSpeed
  varTurn : 0 ≤ p.varTurn

/-- **The noise is a covariance at every heading.** -/
theorem noise_isCovariance {p : Params ℝ} (hp : p.Proper) (yaw dt : ℝ) :
    (p.noise yaw dt).IsCovariance := by
  have ht : 0 ≤ dt * dt := mul_self_nonneg dt
  have hposition : (turnedVariance (p.varX * (dt * dt)) (p.varY * (dt * dt)) yaw).IsCovariance :=
    isCovariance_turnedVariance (mul_nonneg hp.varX ht) (mul_nonneg hp.varY ht) yaw
  refine hposition.blockDiagonal (Mat.isCovariance_diagonal fun i => ?_)
  fin_cases i
  · exact mul_nonneg hp.varYaw ht
  · exact mul_nonneg hp.varSpeed ht
  · exact mul_nonneg hp.varTurn ht

/-- The places about which the noise leaves a doubt, at every heading. -/
def blurred (p : Params ℝ) : Set (Fin 5) :=
  {i | (i = State.x ∨ i = State.y) ∧ 0 < p.varX ∧ 0 < p.varY}

end Params

/-- **A constant turn rate keeps covariances.** -/
theorem sound {p : Params ℝ} (hp : p.Proper) : p.dynamics.Sound p.blurred := by
  intro dt f hf
  obtain ⟨f', hf', hcov, hnoise⟩ := Kalman.predict_ok hf
    (p.noise_isCovariance hp (f.mean State.yaw) dt) (Params.next f.mean dt)
    (Params.transition f.mean dt)
  refine ⟨f', hf', hcov, fun hdt i hi => lt_of_lt_of_le ?_ (hnoise i)⟩
  have ht : 0 < dt * dt := mul_pos hdt hdt
  obtain ⟨hi, hx, hy⟩ := hi
  have hpos := turnedVariance_diag_pos (mul_pos hx ht) (mul_pos hy ht) (f.mean State.yaw)
  rcases hi with rfl | rfl
  · have hentry : p.noise (f.mean State.yaw) dt State.x State.x =
        turnedVariance (p.varX * (dt * dt)) (p.varY * (dt * dt)) (f.mean State.yaw) 0 0 :=
      Mat.ofFn_apply ..
    rw [hentry]
    exact hpos 0
  · have hentry : p.noise (f.mean State.yaw) dt State.y State.y =
        turnedVariance (p.varX * (dt * dt)) (p.varY * (dt * dt)) (f.mean State.yaw) 1 1 :=
      Mat.ofFn_apply ..
    rw [hentry]
    exact hpos 1

end TurnRate

end TrackFusion
