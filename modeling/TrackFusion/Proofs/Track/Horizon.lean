import TrackFusion.Proofs.Covariance.Blocks
import TrackFusion.Proofs.Covariance.Motion
import TrackFusion.Proofs.Roster.Times

/-!
# Looking ahead and going ahead

An estimate is carried on to a later time in two ways: for good, and in a copy that is only looked
at. The copy knows no way back, and it does not go the last millisecond.

* `Ranged`: exact arithmetic in which results can fail to be finite.
* `Dynamics.Still`, `ConstantVelocity.still`, `TurnRate.still`: a step of no time changes nothing.
* `Estimate.at?_of_advance`: the copy is what the estimate becomes.
* `Params.Allows`, with `Allows.limit_eq`, `Allows.step`: velocities within the limits, for both
  kinds of motion.
-/

namespace TrackFusion

variable {n : ℕ}

/-! ### Results that are not finite -/

/-- Exact arithmetic in which only some numbers pass for finite: results that do not are failures,
and everything else is as for the reals. -/
def Ranged (_finite : ℝ → Bool) : Type := ℝ

noncomputable instance (finite : ℝ → Bool) : Scalar (Ranged finite) :=
  { (inferInstance : Scalar ℝ) with isFinite := finite }

variable {finite : ℝ → Bool}

instance : OrderedScalar (Ranged finite) where
  lt_iff := lt_iff_le_not_ge (α := ℝ)
  le_trans := le_trans (α := ℝ)
  le_or_le _ _ := le_total (α := ℝ) _ _
  isNaN_of_le _ := ⟨rfl, rfl⟩
  le_of_order h := OrderedScalar.le_of_order (α := ℝ) h
  order_swap := OrderedScalar.order_swap (α := ℝ)
  order_trans := OrderedScalar.order_trans (α := ℝ)
  isNaN_sub _ _ := rfl
  isNaN_of_sub _ := rfl

/-- A step that does not fail is the one that the reals make. -/
theorem Kalman.predict_of_ranged {f f' : Kalman n (Ranged finite)} {next : Vec n (Ranged finite)}
    {a q : Mat n n (Ranged finite)} (h : f.predict next a q = some f') :
    Kalman.predict (α := ℝ) f next a q = some f' := by
  obtain ⟨-, rfl⟩ := predict_eq_some_iff.1 h
  exact Kalman.predict_eq (α := ℝ) f next a q

/-! ### Standing still -/

/-- A step that moves nothing and adds no noise. -/
theorem Kalman.predict_still {α : Type} [ExactScalar α] {f : Kalman n α}
    (hf : f.cov.transpose = f.cov) : f.predict f.mean 1 0 = some f := by
  have hzero : f.cov + 0 = f.cov := by
    ext i j
    simp
  rw [predict_eq, Mat.one_congruence, hzero, Mat.symmetrize_eq hf]

/-- A step of no time changes nothing, if it does not fail. -/
def Dynamics.Still {α : Type} [Scalar α] (d : Dynamics n α) : Prop :=
  ∀ f f' : Kalman n α, f.cov.transpose = f.cov → d.step 0 f = some f' → f' = f

/-- It is enough that the reals stand still. -/
theorem Dynamics.still_of_real {d : Dynamics n (Ranged finite)} {d' : Dynamics n ℝ}
    (hstep : ∀ (dt : ℝ) (f f' : Kalman n ℝ), d.step dt f = some f' → d'.step dt f = some f')
    (hzero : ∀ f : Kalman n ℝ, f.cov.transpose = f.cov → d'.step 0 f = some f) : d.Still := by
  intro f f' hf h
  have hreal : d'.step 0 f = some f' := hstep 0 f f' h
  exact Option.some.inj (hreal.symm.trans (hzero f hf))

namespace ConstantVelocity

section exact

variable {p : Params ℝ} {f f' : Kalman 4 ℝ}

theorem step_zero (p : Params ℝ) (hf : f.cov.transpose = f.cov) :
    p.dynamics.step 0 f = some f := by
  have htransition : (Params.transition 0 : Mat 4 4 ℝ) = 1 := by
    ext i j
    fin_cases i <;> fin_cases j <;> simp [Params.transition, Mat.ofRows, Mat.get] <;> rfl
  have hnoise : p.noise 0 = 0 := by
    ext i j
    rw [Params.noise, Mat.diagonal_apply, Mat.zero_apply]
    fin_cases i <;> fin_cases j <;> simp [Vec.get]
  have hmean : (1 : Mat 4 4 ℝ) * f.mean = f.mean := by
    ext i
    simp [sum_eq]
  show f.predict (Params.transition 0 * f.mean) (Params.transition 0) (p.noise 0) = some f
  rw [htransition, hnoise, hmean, Kalman.predict_still hf]

/-- Steps leave the velocity as it is. -/
theorem step_velocity {dt : ℝ} (h : p.dynamics.step dt f = some f') :
    f'.mean State.vx = f.mean State.vx ∧ f'.mean State.vy = f.mean State.vy := by
  have hpredict : f.predict (Params.transition dt * f.mean) (Params.transition dt) (p.noise dt) =
      some f' := h
  rw [Kalman.predict_eq] at hpredict
  cases hpredict
  constructor
  · rw [Mat.mulVec_apply, sum_eq, Fin.sum_univ_four]
    simp [Params.transition, Mat.ofRows, Mat.get, State.vx]
  · rw [Mat.mulVec_apply, sum_eq, Fin.sum_univ_four]
    simp [Params.transition, Mat.ofRows, Mat.get, State.vy]

end exact

variable {p : Params (Ranged finite)} {dt : Ranged finite} {f f' : Kalman 4 (Ranged finite)}

theorem step_of_ranged (h : p.dynamics.step dt f = some f') :
    (Params.dynamics (α := ℝ) p).step dt f = some f' :=
  Kalman.predict_of_ranged h

theorem still (p : Params (Ranged finite)) : p.dynamics.Still :=
  Dynamics.still_of_real (fun _ _ _ => step_of_ranged) fun _ => step_zero p

end ConstantVelocity

namespace TurnRate

section exact

variable {p : Params ℝ} {f f' : Kalman 5 ℝ}

theorem step_zero (p : Params ℝ) (hf : f.cov.transpose = f.cov) :
    p.dynamics.step 0 f = some f := by
  have hmean : Params.next f.mean 0 = f.mean := by
    ext i
    fin_cases i <;>
      simp [Params.next, Vec.get, State.x, State.y, State.yaw, State.speed, State.turn]
  have htransition : Params.transition f.mean 0 = 1 := by
    ext i j
    fin_cases i <;> fin_cases j <;> simp [Params.transition, Mat.ofRows, Mat.get] <;> rfl
  have hdiagonal : (.diagonal ⟨#v[0, 0, 0]⟩ : Mat 3 3 ℝ) = 0 := by
    ext i j
    rw [Mat.diagonal_apply, Mat.zero_apply]
    fin_cases i <;> fin_cases j <;> simp [Vec.get]
  have hnoise : p.noise (f.mean State.yaw) 0 = 0 := by
    unfold Params.noise
    simp only [mul_zero, turnedVariance_zero, hdiagonal, Mat.blockDiagonal_zero]
  show f.predict (Params.next f.mean 0) (Params.transition f.mean 0)
    (p.noise (f.mean State.yaw) 0) = some f
  rw [htransition, hnoise, hmean, Kalman.predict_still hf]

/-- Steps leave the speed and the turn rate as they are. -/
theorem step_velocity {dt : ℝ} (h : p.dynamics.step dt f = some f') :
    f'.mean State.speed = f.mean State.speed ∧ f'.mean State.turn = f.mean State.turn := by
  have hpredict : f.predict (Params.next f.mean dt) (Params.transition f.mean dt)
      (p.noise (f.mean State.yaw) dt) = some f' := h
  rw [Kalman.predict_eq] at hpredict
  cases hpredict
  exact ⟨rfl, rfl⟩

end exact

variable {p : Params (Ranged finite)} {dt : Ranged finite} {f f' : Kalman 5 (Ranged finite)}

theorem step_of_ranged (h : p.dynamics.step dt f = some f') :
    (Params.dynamics (α := ℝ) p).step dt f = some f' :=
  Kalman.predict_of_ranged h

theorem still (p : Params (Ranged finite)) : p.dynamics.Still :=
  Dynamics.still_of_real (fun _ _ _ => step_of_ranged) fun _ => step_zero p

end TurnRate

/-! ### Ways ahead -/

/-- What each step keeps holds after all of them. -/
theorem iterate_keeps {β : Type} {P : β → Prop} {f : β → Option β}
    (h : ∀ x y, P x → f x = some y → P y) (k : ℕ) {x y : β} (hx : P x)
    (hy : iterate f k x = some y) : P y := by
  induction k generalizing x with
  | zero =>
    cases hy
    exact hx
  | succ k ih =>
    obtain ⟨z, hz, hzy⟩ := Option.bind_eq_some_iff.1 hy
    exact ih (h x z hx hz) hzy

/-- No way is gone in any number of steps, each of which stands still. -/
theorem Dynamics.Still.run {d : Dynamics n (Ranged finite)} (hd : d.Still)
    {f f' : Kalman n (Ranged finite)} (hf : f.cov.transpose = f.cov) (h : d.run 0 f = some f') :
    f' = f := by
  have hzero : ∀ k : ℕ, (0 / (k : Ranged finite)) = 0 := fun k => zero_div (k : ℝ)
  unfold Dynamics.run at h
  dsimp only at h
  rw [hzero] at h
  refine iterate_keeps (P := fun g => g = f) (fun x y hx hy => ?_) _ rfl h
  subst hx
  exact hd x y hf hy

namespace Estimate

section scalar

variable {α : Type} [Scalar α] {d : Dynamics n α} {e e' : Estimate n α} {t : Time α}

/-- An estimate that goes ahead goes the whole way. -/
theorem advance_cases (h : e.advance d t = some e') :
    ¬ (t - e.time : α) < 0 ∧ ∃ f, d.run (t - e.time) e.filter = some f ∧ e' = ⟨f, t⟩ := by
  unfold advance at h
  dsimp only at h
  split at h
  · cases h
  · next hnot =>
    obtain ⟨f, hf, rfl⟩ := Option.map_eq_some_iff.1 h
    exact ⟨hnot, f, hf, rfl⟩

/-- What each step keeps is kept on any way ahead. -/
theorem advance_keeps {P : Kalman n α → Prop}
    (hstep : ∀ dt f f', P f → d.step dt f = some f' → P f') (h : e.advance d t = some e')
    (he : P e.filter) : P e'.filter := by
  obtain ⟨-, f, hf, rfl⟩ := advance_cases h
  exact iterate_keeps (hstep _) _ he hf

/-- No step is made for no time. -/
theorem at?_near [OrderedScalar α] (d : Dynamics n α) (hpos : (0 : α) ≤ minHorizon)
    (ht : (t - e.time : α) ≤ 0) : e.at? d t = some e.filter := by
  have hnear : ¬ (minHorizon : α) < if (t - e.time : α) < 0 then 0 else t - e.time := by
    split
    · exact OrderedScalar.not_lt_of_le hpos
    · exact OrderedScalar.not_lt_of_le (OrderedScalar.le_trans ht hpos)
  exact if_neg hnear

end scalar

variable {d : Dynamics n (Ranged finite)} {e e' : Estimate n (Ranged finite)}
  {t : Time (Ranged finite)}

theorem minHorizon_nonneg : (0 : ℝ) ≤ minHorizon := by
  unfold minHorizon
  norm_num

/-- Up to its own time an estimate is what it is. -/
theorem at?_of_le (d : Dynamics n (Ranged finite)) (ht : t ≤ e.time) :
    e.at? d t = some e.filter :=
  at?_near d minHorizon_nonneg ((sub_nonpos (α := ℝ)).2 ht)

theorem at?_own (e : Estimate n (Ranged finite)) (d : Dynamics n (Ranged finite)) :
    e.at? d e.time = some e.filter :=
  at?_of_le d (le_refl (α := ℝ) e.time.seconds)

/-- **A look ahead sees what the estimate becomes** when it goes ahead to that time, unless the way
is short but not none. -/
theorem at?_of_advance (hd : d.Still) (he : e.filter.cov.transpose = e.filter.cov)
    (ht : t ≤ e.time ∨ minHorizon < (t - e.time : Ranged finite)) (h : e.advance d t = some e') :
    e.at? d t = some e'.filter := by
  obtain ⟨hnot, f, hf, rfl⟩ := advance_cases h
  rcases ht with hle | hfar
  -- an estimate that goes no way at all still makes its steps, and those could fail
  · have hsub : (t.seconds - e.time.seconds : ℝ) ≤ 0 := (sub_nonpos (α := ℝ)).2 hle
    have hdt : (t - e.time : Ranged finite) = 0 := le_antisymm (α := ℝ) hsub (not_lt.1 hnot)
    rw [hdt] at hf
    rw [at?_of_le d hle, hd.run he hf]
  · unfold at?
    simp only [hnot, if_false, hfar, if_true]
    exact hf

end Estimate

/-! ### Limits -/

theorem Scalar.clamp_eq {α : Type} [Scalar α] [OrderedScalar α] {lo hi x : α} (hlo : lo ≤ x)
    (hhi : x ≤ hi) : clamp lo hi x = x := by
  unfold clamp
  rw [if_neg (OrderedScalar.not_lt_of_le hlo), if_neg (OrderedScalar.not_lt_of_le hhi)]

namespace ConstantVelocity

/-- The velocities are within the limits. -/
structure Params.Allows {α : Type} [Scalar α] (p : Params α) (x : Vec 4 α) : Prop where
  vx_low : -p.maxVx ≤ x State.vx
  vx_high : x State.vx ≤ p.maxVx
  vy_low : -p.maxVy ≤ x State.vy
  vy_high : x State.vy ≤ p.maxVy

theorem Params.Allows.limit_eq {α : Type} [Scalar α] [OrderedScalar α] {p : Params α} {x : Vec 4 α}
    (h : p.Allows x) : p.limit x = x := by
  unfold limit
  rw [Scalar.clamp_eq h.vx_low h.vx_high, Scalar.clamp_eq h.vy_low h.vy_high, Vec.set_self,
    Vec.set_self]

theorem Params.Allows.step {p : Params (Ranged finite)} {dt : Ranged finite}
    {f f' : Kalman 4 (Ranged finite)} (h : p.Allows f.mean) (hf : p.dynamics.step dt f = some f') :
    p.Allows f'.mean := by
  obtain ⟨hvx, hvy⟩ := step_velocity (step_of_ranged hf)
  exact ⟨hvx ▸ h.vx_low, hvx ▸ h.vx_high, hvy ▸ h.vy_low, hvy ▸ h.vy_high⟩

end ConstantVelocity

namespace TurnRate

/-- The speed and the turn rate are within the limits. -/
structure Params.Allows {α : Type} [Scalar α] (p : Params α) (x : Vec 5 α) : Prop where
  speed_low : -p.maxSpeed ≤ x State.speed
  speed_high : x State.speed ≤ p.maxSpeed
  turn_low : -p.maxTurn ≤ x State.turn
  turn_high : x State.turn ≤ p.maxTurn

/-- Within the limits only the heading is brought into its range. -/
theorem Params.Allows.limit_eq {α : Type} [Scalar α] [OrderedScalar α] {p : Params α} {x : Vec 5 α}
    (h : p.Allows x) : p.limit x = x.set State.yaw (Angle.normalize (x State.yaw)) := by
  unfold limit
  rw [Scalar.clamp_eq h.speed_low h.speed_high, Scalar.clamp_eq h.turn_low h.turn_high,
    Vec.set_self, Vec.set_self]

theorem Params.Allows.step {p : Params (Ranged finite)} {dt : Ranged finite}
    {f f' : Kalman 5 (Ranged finite)} (h : p.Allows f.mean) (hf : p.dynamics.step dt f = some f') :
    p.Allows f'.mean := by
  obtain ⟨hspeed, hturn⟩ := step_velocity (step_of_ranged hf)
  exact ⟨hspeed ▸ h.speed_low, hspeed ▸ h.speed_high, hturn ▸ h.turn_low, hturn ▸ h.turn_high⟩

end TurnRate

end TrackFusion
