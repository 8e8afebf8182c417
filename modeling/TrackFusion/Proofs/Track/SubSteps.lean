import TrackFusion.Proofs.Track.Horizon

/-!
# Ways in steps

A long way is gone in equal steps, each of which can fail. It is gone whole or not at all.

* `Walks`: some number of steps, none of which fails; with `iterate_eq_some_iff`.
* `Breaks`: some step fails; with `iterate_eq_none_iff`.
* `Kalman.predict_ranged`: a step fails if its outcome is not finite, and for no other reason.
* `Dynamics.WholeOrNot`: what becomes of an estimate that is to be carried on to some time.
* `predict_whole_or_not`: this is what becomes of it, for both kinds of motion.
-/

namespace TrackFusion

/-! ### Steps -/

section steps

variable {β : Type}

/-- A walk of exactly `k` steps, none of which fails. -/
inductive Walks (f : β → Option β) : ℕ → β → β → Prop where
  | stay (x : β) : Walks f 0 x x
  | step {k : ℕ} {x y z : β} : f x = some y → Walks f k y z → Walks f (k + 1) x z

/-- One of `k` steps fails, after some or none that do not. -/
def Breaks (f : β → Option β) (k : ℕ) (x : β) : Prop :=
  ∃ i < k, ∃ y, Walks f i x y ∧ f y = none

variable {f : β → Option β} {k : ℕ} {x y : β}

theorem iterate_eq_some_iff : iterate f k x = some y ↔ Walks f k x y := by
  induction k generalizing x with
  | zero =>
    constructor
    · intro h
      cases h
      exact .stay _
    · intro h
      cases h
      rfl
  | succ k ih =>
    rw [iterate, Option.bind_eq_some_iff]
    constructor
    · rintro ⟨z, hz, hrest⟩
      exact .step hz (ih.1 hrest)
    · intro h
      cases h with
      | step hz hrest => exact ⟨_, hz, ih.2 hrest⟩

theorem breaks_succ_iff : Breaks f (k + 1) x ↔ f x = none ∨ ∃ y, f x = some y ∧ Breaks f k y := by
  constructor
  · rintro ⟨i, hi, z, hwalk, hz⟩
    cases hwalk with
    | stay => exact .inl hz
    | step hy hrest => exact .inr ⟨_, hy, _, by omega, z, hrest, hz⟩
  · rintro (hnone | ⟨y, hy, i, hi, z, hwalk, hz⟩)
    · exact ⟨0, by omega, x, .stay x, hnone⟩
    · exact ⟨i + 1, by omega, z, .step hy hwalk, hz⟩

theorem iterate_eq_none_iff : iterate f k x = none ↔ Breaks f k x := by
  induction k generalizing x with
  | zero =>
    refine iff_of_false (by simp [iterate]) ?_
    rintro ⟨i, hi, -⟩
    omega
  | succ k ih =>
    rw [iterate, breaks_succ_iff]
    cases hx : f x with
    | none => simp
    | some y => simp [ih]

end steps

variable {n : ℕ} {finite : ℝ → Bool}

/-! ### Failures -/

/-- **A step fails if its outcome is not finite**, and for no other reason. -/
theorem Kalman.predict_ranged (f : Kalman n (Ranged finite)) (next : Vec n (Ranged finite))
    (a q : Mat n n (Ranged finite)) :
    ∃ f', Kalman.predict (α := ℝ) f next a q = some f' ∧
      (f.predict next a q = none ↔
        (∃ i, finite (f'.mean i) = false) ∨ ∃ i j, finite (f'.cov i j) = false) := by
  refine ⟨_, Kalman.predict_eq (α := ℝ) f next a q, ?_⟩
  have hmean : next.isFinite = false ↔ ∃ i, finite (next i) = false := by
    rw [← Bool.not_eq_true, Vec.isFinite_iff, not_forall]
    simp only [Bool.not_eq_true]
    rfl
  have hcov : (a.congruence f.cov + q).symmetrize.isFinite = false ↔
      ∃ i j, finite ((a.congruence f.cov + q).symmetrize i j) = false := by
    rw [← Bool.not_eq_true, Mat.isFinite_iff, not_forall]
    simp only [not_forall, Bool.not_eq_true]
    rfl
  have hnone : f.predict next a q = none ↔
      next.isFinite = false ∨ (a.congruence f.cov + q).symmetrize.isFinite = false := by
    unfold predict
    dsimp only
    rw [← Bool.and_eq_false_iff]
    split
    · next h => simp [h]
    · next h => simpa using h
  rw [hnone, hmean, hcov]
  rfl

/-- The reals always make a step. It fails here if it leads to a number that is not finite. -/
def Dynamics.FailsByRange (d : Dynamics n (Ranged finite)) (real : Dynamics n ℝ) : Prop :=
  ∀ (dt : ℝ) (f : Kalman n ℝ), ∃ f', real.step dt f = some f' ∧
    (d.step dt f = none ↔
      (∃ i, finite (f'.mean i) = false) ∨ ∃ i j, finite (f'.cov i j) = false)

theorem ConstantVelocity.failsByRange (p : Params (Ranged finite)) :
    p.dynamics.FailsByRange (Params.dynamics (α := ℝ) p) := fun _ f => f.predict_ranged _ _ _

theorem TurnRate.failsByRange (p : Params (Ranged finite)) :
    p.dynamics.FailsByRange (Params.dynamics (α := ℝ) p) := fun _ f => f.predict_ranged _ _ _

/-! ### Ways -/

/-- What is left of an estimate that was to be carried on: if that fails, it stays as it is. -/
def Estimate.held {α : Type} [Scalar α] (e : Estimate n α) (d : Dynamics n α) (t : Time α) :
    Estimate n α :=
  (e.advance d t).getD e

/-- A look ahead finds nothing only where there is a step to be made. -/
theorem Estimate.at?_eq_none_iff {d : Dynamics n (Ranged finite)} {e : Estimate n (Ranged finite)}
    {t : Time (Ranged finite)} :
    e.at? d t = none ↔ minHorizon < (t - e.time : Ranged finite) ∧
      d.run (t - e.time : Ranged finite) e.filter = none := by
  by_cases hfar : minHorizon < (t - e.time : Ranged finite)
  · have hnot : ¬ (t - e.time : Ranged finite) < 0 :=
      not_lt.2 (minHorizon_nonneg.trans (le_of_lt (α := ℝ) hfar))
    have hrun : e.at? d t = d.run (t - e.time : Ranged finite) e.filter := by
      unfold at?
      simp only [hnot, if_false, hfar, if_true]
    rw [hrun, and_iff_right hfar]
  · have hstays : e.at? d t = some e.filter := by
      unfold at?
      refine if_neg fun hlt => hfar ?_
      split at hlt
      · exact absurd hlt (not_lt.2 minHorizon_nonneg)
      · exact hlt
    rw [hstays]
    exact iff_of_false (Option.some_ne_none _) fun hboth => hfar hboth.1

namespace Dynamics

/-- An estimate is carried on whole or not at all. Back in time it is not, and stays as it is. Ahead
there are equal steps to be made, each shorter than the longest one, which come to the whole way. If
one of them fails, wherever on the way, the estimate stays as it is; if none does, it is where they
lead, and valid for the time. Their count has 64 bits just if the way is short enough. A look ahead
finds nothing if it is far enough to make a step, and one of them fails. -/
def WholeOrNot (d : Dynamics n (Ranged finite)) (e : Estimate n (Ranged finite))
    (t : Time (Ranged finite)) : Prop :=
  let dt : ℝ := (t - e.time : Ranged finite)
  let dtMax : ℝ := d.dtMax
  let count : ℕ := ⌊dt / dtMax⌋₊ + 1
  let h : ℝ := dt / count
  (dt < 0 → e.advance d t = none ∧ e.held d t = e) ∧
  (0 ≤ dt → h < dtMax ∧ count * h = dt ∧ (count < 2 ^ 64 ↔ dt < (2 ^ 64 - 1 : ℕ) * dtMax) ∧
    (Breaks (d.step h) count e.filter → e.advance d t = none ∧ e.held d t = e) ∧
    (¬ Breaks (d.step h) count e.filter → ∃ f, Walks (d.step h) count e.filter f ∧
      e.advance d t = some ⟨f, t⟩ ∧ e.held d t = ⟨f, t⟩)) ∧
  (e.at? d t = none ↔ Estimate.minHorizon < dt ∧ Breaks (d.step h) count e.filter)

theorem div_steps_lt {dt dtMax : ℝ} (hmax : 0 < dtMax) :
    dt / ((⌊dt / dtMax⌋₊ + 1 : ℕ) : ℝ) < dtMax := by
  have hcount : (0 : ℝ) < ((⌊dt / dtMax⌋₊ + 1 : ℕ) : ℝ) := Nat.cast_pos.2 (Nat.succ_pos _)
  have hfloor : dt / dtMax < ((⌊dt / dtMax⌋₊ + 1 : ℕ) : ℝ) := by
    push_cast
    exact Nat.lt_floor_add_one _
  rw [div_lt_iff₀ hcount, mul_comm]
  exact (div_lt_iff₀ hmax).1 hfloor

/-- The steps can be counted in so many bits. -/
theorem count_lt_iff {dt dtMax : ℝ} (hahead : 0 ≤ dt) (hmax : 0 < dtMax) (bits : ℕ) :
    ⌊dt / dtMax⌋₊ + 1 < 2 ^ bits ↔ dt < (2 ^ bits - 1 : ℕ) * dtMax := by
  rw [← Nat.lt_sub_iff_add_lt, Nat.floor_lt (div_nonneg hahead hmax.le), div_lt_iff₀ hmax]

theorem wholeOrNot {d : Dynamics n (Ranged finite)} (hmax : 0 < d.dtMax)
    (e : Estimate n (Ranged finite)) (t : Time (Ranged finite)) : d.WholeOrNot e t := by
  unfold WholeOrNot
  intro dt dtMax count h
  have hcount : (count : ℝ) ≠ 0 := Nat.cast_ne_zero.2 (Nat.succ_ne_zero _)
  have hrun : d.run (t - e.time : Ranged finite) e.filter = iterate (d.step h) count e.filter := by
    unfold run stepCount
    rw [if_pos hmax]
    rfl
  have hadvance (hahead : 0 ≤ dt) :
      e.advance d t = (iterate (d.step h) count e.filter).map fun f => ⟨f, t⟩ := by
    rw [← hrun]
    exact if_neg (not_lt.2 hahead)
  refine ⟨fun hback => ?_, fun hahead => ⟨div_steps_lt hmax, ?_, count_lt_iff hahead hmax 64,
    fun hbreaks => ?_, fun hwhole => ?_⟩, ?_⟩
  · have hnone : e.advance d t = none := if_pos hback
    exact ⟨hnone, by rw [Estimate.held, hnone, Option.getD_none]⟩
  · exact mul_div_cancel₀ dt hcount
  · have hnone : e.advance d t = none := by
      rw [hadvance hahead, iterate_eq_none_iff.2 hbreaks, Option.map_none]
    exact ⟨hnone, by rw [Estimate.held, hnone, Option.getD_none]⟩
  · obtain ⟨f, hf⟩ := Option.ne_none_iff_exists'.1 (mt iterate_eq_none_iff.1 hwhole)
    have hsome : e.advance d t = some ⟨f, t⟩ := by
      rw [hadvance hahead, hf, Option.map_some]
    exact ⟨f, iterate_eq_some_iff.1 hf, hsome, by rw [Estimate.held, hsome, Option.getD_some]⟩
  · rw [Estimate.at?_eq_none_iff, hrun, iterate_eq_none_iff]
    exact Iff.rfl

end Dynamics

/-- **An estimate is carried on whole or not at all**, with a constant velocity as with a constant
turn rate, and whatever numbers fail to be finite. A step fails for a mean or a covariance that is
not finite, and for no other reason. -/
theorem predict_whole_or_not (finite : ℝ → Bool) :
    (∀ p : ConstantVelocity.Params (Ranged finite), 0 < p.dtMax →
      p.dynamics.FailsByRange (ConstantVelocity.Params.dynamics (α := ℝ) p) ∧
      ∀ e t, p.dynamics.WholeOrNot e t) ∧
    ∀ p : TurnRate.Params (Ranged finite), 0 < p.dtMax →
      p.dynamics.FailsByRange (TurnRate.Params.dynamics (α := ℝ) p) ∧
      ∀ e t, p.dynamics.WholeOrNot e t := by
  constructor
  · intro p hmax
    exact ⟨ConstantVelocity.failsByRange p, Dynamics.wholeOrNot hmax⟩
  · intro p hmax
    exact ⟨TurnRate.failsByRange p, Dynamics.wholeOrNot hmax⟩

/-- Numbers up to five. -/
noncomputable def upToFive (x : ℝ) : Bool := decide (x ≤ 5)

/-- Motion without noise, in steps of less than a second. -/
noncomputable def quietMotion : ConstantVelocity.Params ℝ := ⟨0, 0, 0, 0, 9, 9, 1⟩

/-- The motion where numbers beyond five fail to be finite. -/
noncomputable def quietDynamics : Dynamics 4 (Ranged upToFive) :=
  ConstantVelocity.Params.dynamics (α := Ranged upToFive) quietMotion

theorem quietDynamics_failsByRange : quietDynamics.FailsByRange quietMotion.dynamics :=
  ConstantVelocity.failsByRange _

/-- A car that has come so far, at a known velocity. -/
noncomputable def carAt (x v : ℝ) : Kalman 4 ℝ := ⟨⟨#v[x, 0, v, 0]⟩, 0⟩

theorem step_carAt (h x v : ℝ) :
    quietMotion.dynamics.step h (carAt x v) = some (carAt (x + h * v) v) := by
  have hnoise : quietMotion.noise h = 0 := by
    ext i j
    rw [ConstantVelocity.Params.noise, Mat.diagonal_apply, Mat.zero_apply]
    fin_cases i <;> fin_cases j <;> simp [Vec.get, quietMotion]
  have hmean : (ConstantVelocity.Params.transition h : Mat 4 4 ℝ) * (carAt x v).mean =
      (carAt (x + h * v) v).mean := by
    ext i
    rw [Mat.mulVec_apply, sum_eq, Fin.sum_univ_four]
    fin_cases i <;>
      simp [ConstantVelocity.Params.transition, carAt, Mat.ofRows, Mat.get, Vec.get]
  have hcov : ((ConstantVelocity.Params.transition h).congruence (0 : Mat 4 4 ℝ) +
      0).symmetrize = 0 := by
    ext i j
    simp [Mat.symmetrize, Mat.congruence, sum_eq]
  refine (Kalman.predict_eq _ _ _ _).trans ?_
  rw [hmean, hnoise, Option.some.injEq, carAt, Kalman.mk.injEq]
  exact ⟨rfl, hcov⟩

theorem step_carAt_of_le {h x v : ℝ} (hx : x + h * v ≤ 5) (hv : v ≤ 5) :
    quietDynamics.step h (carAt x v) = some (carAt (x + h * v) v) := by
  obtain ⟨f', hf', hnone⟩ := quietDynamics_failsByRange h (carAt x v)
  obtain rfl := Option.some.inj ((step_carAt h x v).symm.trans hf')
  have hzero : (0 : ℝ) ≤ 5 := by norm_num
  have hmean : ∀ i, upToFive ((carAt (x + h * v) v).mean i) = true := by
    intro i
    rw [upToFive, decide_eq_true_eq]
    fin_cases i
    · exact hx
    · exact hzero
    · exact hv
    · exact hzero
  have hcov : ∀ i j, upToFive ((carAt (x + h * v) v).cov i j) = true := by
    intro i j
    rw [upToFive, decide_eq_true_eq, carAt, Mat.zero_apply]
    exact hzero
  cases hstep : quietDynamics.step h (carAt x v) with
  | none =>
    rcases hnone.1 hstep with ⟨i, hi⟩ | ⟨i, j, hij⟩
    · rw [hmean] at hi
      cases hi
    · rw [hcov] at hij
      cases hij
  | some f =>
    exact (ConstantVelocity.step_of_ranged hstep).symm.trans (step_carAt h x v)

theorem step_carAt_of_lt {h x v : ℝ} (hx : 5 < x + h * v) :
    quietDynamics.step h (carAt x v) = none := by
  obtain ⟨f', hf', hnone⟩ := quietDynamics_failsByRange h (carAt x v)
  obtain rfl := Option.some.inj ((step_carAt h x v).symm.trans hf')
  refine hnone.2 (.inl ⟨ConstantVelocity.State.x, ?_⟩)
  rw [upToFive, decide_eq_false_iff_not]
  exact not_le.2 hx

/-- At three metres a second, two steps lead the car to four metres, and a third one would lead it
beyond five. -/
theorem breaks_carAt : Breaks (quietDynamics.step (2 / 3 : ℝ)) 3 (carAt 0 3) := by
  have hfirst : quietDynamics.step (2 / 3 : ℝ) (carAt 0 3) = _ :=
    step_carAt_of_le (by norm_num) (by norm_num)
  have hsecond : quietDynamics.step (2 / 3 : ℝ) (carAt (0 + 2 / 3 * 3) 3) = _ :=
    step_carAt_of_le (by norm_num) (by norm_num)
  exact ⟨2, by omega, _, .step hfirst (.step hsecond (.stay _)), step_carAt_of_lt (by norm_num)⟩

/-- Two seconds take three steps, of which the third one fails: the car stays where it is. -/
theorem predict_whole_or_not_carAt :
    (0 : ℝ) < quietMotion.dtMax ∧
    Estimate.advance ⟨carAt 0 3, ⟨(0 : ℝ)⟩⟩ quietDynamics ⟨(2 : ℝ)⟩ = none ∧
    Estimate.held ⟨carAt 0 3, ⟨(0 : ℝ)⟩⟩ quietDynamics ⟨(2 : ℝ)⟩ = ⟨carAt 0 3, ⟨(0 : ℝ)⟩⟩ := by
  have hmax : (0 : ℝ) < quietMotion.dtMax := zero_lt_one
  have hcount : ⌊((2 : ℝ) - 0) / 1⌋₊ + 1 = 3 := by norm_num
  have hlength : ((2 : ℝ) - 0) / ((⌊((2 : ℝ) - 0) / 1⌋₊ + 1 : ℕ) : ℝ) = 2 / 3 := by
    rw [hcount]
    norm_num
  have hahead : (0 : ℝ) ≤ 2 - 0 := by norm_num
  obtain ⟨-, hwhole, -⟩ := ((predict_whole_or_not upToFive).1 quietMotion hmax).2
    ⟨carAt 0 3, ⟨(0 : ℝ)⟩⟩ ⟨(2 : ℝ)⟩
  have hbreaks : Breaks
      (quietDynamics.step (((2 : ℝ) - 0) / ((⌊((2 : ℝ) - 0) / 1⌋₊ + 1 : ℕ) : ℝ) : ℝ))
      (⌊((2 : ℝ) - 0) / 1⌋₊ + 1) (carAt 0 3) := by
    rw [hlength, hcount]
    exact breaks_carAt
  obtain ⟨-, -, -, hfails, -⟩ := hwhole hahead
  exact ⟨hmax, hfails hbreaks⟩

end TrackFusion
