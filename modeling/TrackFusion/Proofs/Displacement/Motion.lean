import TrackFusion.Proofs.Displacement.Basic
import TrackFusion.Motion.ConstantVelocity
import TrackFusion.Motion.TurnRate

/-!
# Motion of displaced objects

The position of a state is its first two entries. Dynamics and corrections are affine in it, and
covariances do not know of it.

* `Displacement.state`: what a displacement adds to a state.
* `Kalman.addMean`, `correct_addMean`, `predict_addMean`: filters whose mean has been moved.
* `Dynamics.Blind`: dynamics for which such a move makes no difference.
* `Dynamics.Uniform`: dynamics that are the same everywhere; `ConstantVelocity.uniform` and
  `TurnRate.uniform`.
* `Estimate.advance_displace`, `at?_displace`: estimates.
-/

namespace TrackFusion

variable {α : Type} [ExactScalar α] {m n : ℕ}

/-! ### Exact matrices -/

theorem sum_eq (f : Fin n → α) : sum n f = ∑ i, f i := by
  have hfold : ∀ (k : ℕ) (g : Fin k → α) (a : α),
      Fin.foldl k (fun acc i => acc + g i) a = a + ∑ i, g i := by
    intro k
    induction k with
    | zero => simp
    | succ k ih =>
      intro g a
      rw [Fin.foldl_succ, ih, Fin.sum_univ_succ, add_assoc]
  cases n with
  | zero => rfl
  | succ n => rw [sum, hfold, Fin.sum_univ_succ]

namespace Vec

theorem add_sub_add (u v w : Vec n α) : u + w - (v + w) = u - v := by
  ext i
  simp

theorem add_swap (u v w : Vec n α) : u + v + w = u + w + v := by
  ext i
  simp [add_right_comm]

end Vec

theorem Mat.mul_add_vec (a : Mat m n α) (v w : Vec n α) : a * (v + w) = a * v + a * w := by
  ext i
  simp [sum_eq, mul_add, Finset.sum_add_distrib]

variable (δ : Displacement α)

/-- What a displacement adds to a state that begins with a position in the plane. -/
def Displacement.state (n : ℕ) : Vec n α :=
  .ofFn fun i => if i.val = 0 then δ.x else if i.val = 1 then δ.y else 0

theorem Displacement.state_apply (i : Fin n) :
    δ.state n i = if i.val = 0 then δ.x else if i.val = 1 then δ.y else 0 :=
  Vec.ofFn_apply ..

theorem add_state_apply (x : Vec n α) {i : Fin n} (hi : 2 ≤ i.val) : (x + δ.state n) i = x i := by
  rw [Vec.add_apply, δ.state_apply, if_neg (by omega), if_neg (by omega), add_zero]

theorem set_add_state (x : Vec n α) {i : Fin n} (hi : 2 ≤ i.val) (a : α) :
    (x + δ.state n).set i a = x.set i a + δ.state n := by
  ext j
  rw [Vec.add_apply, Vec.set_apply, Vec.set_apply]
  by_cases hij : i = j
  · rw [if_pos hij, if_pos hij, δ.state_apply, if_neg (by omega), if_neg (by omega), add_zero]
  · rw [if_neg hij, if_neg hij, Vec.add_apply]

/-- An observation of the first entries picks them. -/
theorem observeFirst_mul_apply (h : m ≤ n) (x : Vec n α) (i : Fin m) :
    ((Kalman.observeFirst m n : Mat m n α) * x) i = x (i.castLE h) := by
  have hsingle : ∀ j : Fin n, (Kalman.observeFirst m n : Mat m n α) i j * x j =
      if j = i.castLE h then x j else 0 := by
    intro j
    rw [Kalman.observeFirst, Mat.ofFn_apply]
    by_cases hij : i.val = j.val
    · rw [if_pos hij, if_pos (Fin.ext hij.symm), one_mul]
    · rw [if_neg hij, if_neg fun hj => hij (congrArg Fin.val hj).symm, zero_mul]
  rw [Mat.mulVec_apply, sum_eq, Finset.sum_congr rfl fun j _ => hsingle j]
  simp

theorem observeFirst_mul_state (h : m ≤ n) :
    (Kalman.observeFirst m n : Mat m n α) * δ.state n = δ.state m := by
  ext i
  rw [observeFirst_mul_apply h, δ.state_apply, δ.state_apply]
  rfl

theorem one_mul_state : (1 : Mat n n α) * δ.state n = δ.state n := by
  ext i
  simp [sum_eq]

/-- A measurement that begins with a position. -/
theorem append_add_state (x y : α) (rest : Vector α n) :
    (⟨#v[x, y] ++ rest⟩ + δ.state (2 + n) : Vec (2 + n) α) = ⟨#v[x + δ.x, y + δ.y] ++ rest⟩ := by
  ext i
  rw [Vec.add_apply, δ.state_apply]
  show (#v[x, y] ++ rest)[i.val] + _ = (#v[x + δ.x, y + δ.y] ++ rest)[i.val]
  rw [Vector.getElem_append, Vector.getElem_append]
  rcases i with ⟨_ | _ | i, hi⟩
  · rfl
  · rfl
  · simp

/-! ### Filters -/

/-- The filter with something added to its mean. -/
def Kalman.addMean (f : Kalman n α) (s : Vec n α) : Kalman n α := { f with mean := f.mean + s }

def Kalman.displace (f : Kalman n α) : Kalman n α := { f with mean := f.mean + δ.state n }

namespace Kalman

variable (f : Kalman n α)

theorem predict_addMean (next s : Vec n α) (a q : Mat n n α) :
    (f.addMean s).predict (next + s) a q = (f.predict next a q).map (addMean · s) := by
  simp [predict, Vec.isFinite_eq, Mat.isFinite_eq, addMean]

/-- **A measurement that moves with the estimate corrects it alike.** -/
theorem correct_addMean {s : Vec n α} {u : Vec m α} {c : Mat m n α} (hc : c * s = u) (y : Vec m α)
    (r : Mat m m α) :
    (f.addMean s).correct (y + u) c r = (f.correct y c r).map (addMean · s) := by
  have hgain : (f.addMean s).gain? c r = f.gain? c r := rfl
  have hinnovation : (f.addMean s).innovation (y + u) c = f.innovation y c := by
    rw [innovation, innovation, addMean, Mat.mul_add_vec, hc, Vec.add_sub_add]
  rw [correct, correct, hgain]
  cases f.gain? c r with
  | none => rfl
  | some k =>
    -- the gain only knows of covariances, so the same is added to both means
    simp only [hinnovation, Vec.isFinite_eq, if_true]
    rw [addMean, Vec.add_swap]
    rfl

theorem predict_displace (next : Vec n α) (a q : Mat n n α) :
    (f.displace δ).predict (next + δ.state n) a q = (f.predict next a q).map (displace δ) :=
  f.predict_addMean next (δ.state n) a q

end Kalman

/-! ### Estimates -/

theorem iterate_map {β : Type} {f : β → Option β} {g : β → β}
    (h : ∀ x, f (g x) = (f x).map g) (k : ℕ) (x : β) :
    iterate f k (g x) = (iterate f k x).map g := by
  induction k generalizing x with
  | zero => rfl
  | succ k ih =>
    rw [iterate, iterate, h]
    cases f x with
    | none => rfl
    | some y => exact ih y

/-- To add something to the mean before a step is to add it after. -/
def Dynamics.Blind (d : Dynamics n α) (s : Vec n α) : Prop :=
  ∀ dt f, d.step dt (f.addMean s) = (d.step dt f).map (Kalman.addMean · s)

theorem Dynamics.Blind.run {d : Dynamics n α} {s : Vec n α} (hd : d.Blind s) (dt : α)
    (f : Kalman n α) : d.run dt (f.addMean s) = (d.run dt f).map (Kalman.addMean · s) :=
  iterate_map (g := (Kalman.addMean · s)) (hd _) _ f

/-- The same step everywhere. -/
def Dynamics.Uniform (d : Dynamics n α) : Prop :=
  ∀ dt f, d.step dt (f.displace δ) = (d.step dt f).map (Kalman.displace δ)

theorem Dynamics.Uniform.blind {δ} {d : Dynamics n α} (hd : d.Uniform δ) : d.Blind (δ.state n) := hd

def Estimate.displace (e : Estimate n α) : Estimate n α :=
  ⟨e.filter.displace δ, e.time.displace δ⟩

/-- The estimate with something added to its mean. -/
def Estimate.addMean (e : Estimate n α) (s : Vec n α) : Estimate n α :=
  { e with filter := e.filter.addMean s }

namespace Estimate

section blind

variable (e : Estimate n α) {d : Dynamics n α} {s : Vec n α} (hd : d.Blind s)

include hd

theorem advance_addMean (t : Time α) :
    (e.addMean s).advance d t = (e.advance d t).map (addMean · s) := by
  simp only [advance, addMean, hd.run]
  split
  · rfl
  · rw [Option.map_map, Option.map_map]
    rfl

theorem at?_addMean (t : Time α) :
    (e.addMean s).at? d t = (e.at? d t).map (Kalman.addMean · s) := by
  simp only [at?, addMean, hd.run, apply_ite (Option.map (Kalman.addMean · s)), Option.map_some]
  rfl

omit hd

theorem correct_addMean {u : Vec m α} {c : Mat m n α} (hc : c * s = u) (y : Vec m α)
    (r : Mat m m α) :
    (e.addMean s).correct (y + u) c r = (e.correct y c r).map (addMean · s) := by
  simp only [correct, addMean, Kalman.correct_addMean e.filter hc]
  cases e.filter.correct y c r <;> rfl

end blind

section uniform

variable {δ} (e : Estimate n α) {d : Dynamics n α} (hd : d.Uniform δ)

include hd

theorem advance_displace (t : Time α) :
    (e.displace δ).advance d (t.displace δ) = (e.advance d t).map (displace δ) := by
  have hrun (dt : α) : d.run dt (e.filter.displace δ) = _ := hd.blind.run dt e.filter
  simp only [advance, displace, Time.displace_sub_displace, hrun]
  split
  · rfl
  · rw [Option.map_map, Option.map_map]
    rfl

theorem at?_displace (t : Time α) :
    (e.displace δ).at? d (t.displace δ) = (e.at? d t).map (Kalman.displace δ) := by
  have hrun (dt : α) : d.run dt (e.filter.displace δ) = _ := hd.blind.run dt e.filter
  simp only [at?, displace, Time.displace_sub_displace, hrun]
  split <;> split <;> rfl

omit hd

/-- **A displaced measurement corrects the displaced estimate alike.** -/
theorem correct_displace {y : Vec m α} {c : Mat m n α} (hc : c * δ.state n = δ.state m)
    (r : Mat m m α) :
    (e.displace δ).correct (y + δ.state m) c r = (e.correct y c r).map (displace δ) := by
  have hfilter : (e.filter.displace δ).correct (y + δ.state m) c r = _ :=
    e.filter.correct_addMean hc y r
  simp only [correct, displace, hfilter]
  cases e.filter.correct y c r <;> rfl

end uniform

end Estimate

theorem Estimate.mapMean_displace {g : Vec n α → Vec n α}
    (hg : ∀ x, g (x + δ.state n) = g x + δ.state n) (e : Estimate n α) :
    (e.displace δ).mapMean g = (e.mapMean g).displace δ := by
  rw [mapMean, displace, displace, mapMean, Kalman.displace, hg]
  rfl

/-- The way in the plane, which is all that a state knows of. -/
def Displacement.flat : Displacement α := { δ with z := 0 }

/-! ### Constant velocity -/

namespace ConstantVelocity

theorem transition_mul_state (dt : α) : Params.transition dt * δ.state 4 = δ.state 4 := by
  ext i
  rw [Mat.mulVec_apply, sum_eq, Fin.sum_univ_four]
  simp only [δ.state_apply]
  fin_cases i <;> simp [Params.transition, Mat.ofRows, Mat.get]

/-- **A constant velocity is the same everywhere.** -/
theorem uniform (p : Params α) : p.dynamics.Uniform δ := by
  intro dt f
  show (f.displace δ).predict (Params.transition dt * (f.mean + δ.state 4)) _ _ = _
  rw [Mat.mul_add_vec, transition_mul_state, Kalman.predict_displace]
  rfl

theorem limit_displace (p : Params α) (x : Vec 4 α) :
    p.limit (x + δ.state 4) = p.limit x + δ.state 4 := by
  have hvx : 2 ≤ (State.vx : Fin 4).val := by decide
  have hvy : 2 ≤ (State.vy : Fin 4).val := by decide
  rw [Params.limit, add_state_apply δ x hvx, add_state_apply δ x hvy, set_add_state δ x hvx,
    set_add_state δ _ hvy]
  rfl

variable (e : Estimate 4 α) (p : Point α) (cov : Mat 2 2 α)

@[simp] theorem correctPosition_displace :
    correctPosition (e.displace δ) (p.displace δ) cov =
      (correctPosition e p cov).map (Estimate.displace δ) := by
  have hy : (p.displace δ).toVec = p.toVec + δ.state 2 := (append_add_state δ p.x p.y #v[]).symm
  rw [correctPosition, hy]
  exact e.correct_displace (observeFirst_mul_state δ (by decide)) cov

@[simp] theorem correctVelocity_displace (v : Point α) (velocityCov : Mat 2 2 α) :
    correctVelocity (e.displace δ) (p.displace δ) cov v velocityCov =
      (correctVelocity e p cov v velocityCov).map (Estimate.displace δ) := by
  have hy : (⟨#v[p.x + δ.x, p.y + δ.y, v.x, v.y]⟩ : Vec 4 α) =
      ⟨#v[p.x, p.y, v.x, v.y]⟩ + δ.state 4 := (append_add_state δ p.x p.y #v[v.x, v.y]).symm
  rw [correctVelocity, correctVelocity, ← e.correct_displace (one_mul_state δ), ← hy]
  rfl

theorem kinematics_displace (f : Kalman 4 α) (yaw : α) :
    kinematics (f.displace δ) yaw = (kinematics f yaw).displace δ.flat := by
  simp [kinematics, Kalman.displace, Kinematics.displace, Pose.displace, δ.state_apply,
    Displacement.flat, State.x, State.y, State.vx, State.vy]

theorem kinematicsAt?_displace (q : Params α) (t : Time α) (yaw : α) :
    kinematicsAt? (e.displace δ) q (t.displace δ) yaw =
      (kinematicsAt? e q t yaw).map (Kinematics.displace δ.flat) := by
  rw [kinematicsAt?, kinematicsAt?, e.at?_displace (uniform δ q), Option.map_map, Option.map_map]
  simp [Function.comp_def, kinematics_displace]

end ConstantVelocity

/-! ### Constant turn rate and velocity -/

namespace TurnRate

theorem next_displace (x : Vec 5 α) (dt : α) :
    Params.next (x + δ.state 5) dt = Params.next x dt + δ.state 5 := by
  have hx : (x + δ.state 5) State.x = x State.x + δ.x := by simp [δ.state_apply, State.x]
  have hy : (x + δ.state 5) State.y = x State.y + δ.y := by simp [δ.state_apply, State.y]
  have hyaw := add_state_apply δ x (i := State.yaw) (by decide)
  have hspeed := add_state_apply δ x (i := State.speed) (by decide)
  have hturn := add_state_apply δ x (i := State.turn) (by decide)
  simp only [Params.next, hx, hy, hyaw, hspeed, hturn, add_right_comm _ δ.x,
    add_right_comm _ δ.y]
  exact (append_add_state δ _ _ #v[_, _, _]).symm

/-- **A constant turn rate is the same everywhere.** Only the heading and the speed count for how a
step spreads. -/
theorem uniform (p : Params α) : p.dynamics.Uniform δ := by
  intro dt f
  have hyaw := add_state_apply δ f.mean (i := State.yaw) (by decide)
  have hspeed := add_state_apply δ f.mean (i := State.speed) (by decide)
  have htransition : Params.transition (f.mean + δ.state 5) dt = Params.transition f.mean dt := by
    simp only [Params.transition, hyaw, hspeed]
  show (f.displace δ).predict (Params.next (f.mean + δ.state 5) dt)
    (Params.transition (f.mean + δ.state 5) dt) (p.noise ((f.mean + δ.state 5) State.yaw) dt) = _
  rw [next_displace, htransition, hyaw, Kalman.predict_displace]
  rfl

theorem limit_displace (p : Params α) (x : Vec 5 α) :
    p.limit (x + δ.state 5) = p.limit x + δ.state 5 := by
  have hyaw : 2 ≤ (State.yaw : Fin 5).val := by decide
  have hspeed : 2 ≤ (State.speed : Fin 5).val := by decide
  have hturn : 2 ≤ (State.turn : Fin 5).val := by decide
  rw [Params.limit, add_state_apply δ x hyaw, add_state_apply δ x hspeed,
    add_state_apply δ x hturn, set_add_state δ x hspeed, set_add_state δ _ hturn,
    set_add_state δ _ hyaw]
  rfl

variable (e : Estimate 5 α) (p : Point α) (yaw : α) (heading : Heading)

@[simp] theorem correctHeading_displace (cov : Mat 3 3 α) :
    correctHeading (e.displace δ) (p.displace δ) yaw cov heading =
      (correctHeading e p yaw cov heading).map (Estimate.displace δ) := by
  have hyaw := add_state_apply δ e.filter.mean (i := State.yaw) (by decide)
  have hy : ∀ ψ : α, (⟨#v[p.x + δ.x, p.y + δ.y, ψ]⟩ : Vec 3 α) =
      ⟨#v[p.x, p.y, ψ]⟩ + δ.state 3 :=
    fun ψ => (append_add_state δ p.x p.y #v[ψ]).symm
  rw [correctHeading, correctHeading, ← e.correct_displace (observeFirst_mul_state δ (by decide)),
    ← hy]
  show (e.displace δ).correct ⟨#v[p.x + δ.x, p.y + δ.y,
    unwrap ((e.filter.mean + δ.state 5) State.yaw) yaw heading]⟩ _ _ = _
  rw [hyaw]

@[simp] theorem correctSpeed_displace (cov : Mat 3 3 α) (speed speedVar : α) :
    correctSpeed (e.displace δ) (p.displace δ) yaw cov speed speedVar heading =
      (correctSpeed e p yaw cov speed speedVar heading).map (Estimate.displace δ) := by
  have hyaw := add_state_apply δ e.filter.mean (i := State.yaw) (by decide)
  have hy : ∀ ψ : α, (⟨#v[p.x + δ.x, p.y + δ.y, ψ, speed]⟩ : Vec 4 α) =
      ⟨#v[p.x, p.y, ψ, speed]⟩ + δ.state 4 :=
    fun ψ => (append_add_state δ p.x p.y #v[ψ, speed]).symm
  rw [correctSpeed, correctSpeed, ← e.correct_displace (observeFirst_mul_state δ (by decide)),
    ← hy]
  show (e.displace δ).correct ⟨#v[p.x + δ.x, p.y + δ.y,
    unwrap ((e.filter.mean + δ.state 5) State.yaw) yaw heading, speed]⟩ _ _ = _
  rw [hyaw]

theorem shift_displace (d : Point α) : shift (e.displace δ) d = (shift e d).displace δ := by
  refine Estimate.mapMean_displace δ (fun x => ?_) e
  ext i
  simp only [Vec.set_apply, Vec.add_apply]
  by_cases hy : State.y = i
  · subst hy
    simp only [if_true]
    exact add_right_comm _ _ _
  · by_cases hx : State.x = i
    · subst hx
      simp only [if_neg hy, if_true]
      exact add_right_comm _ _ _
    · simp only [if_neg hy, if_neg hx]

theorem kinematics_displace (f : Kalman 5 α) :
    kinematics (f.displace δ) = (kinematics f).displace δ.flat := by
  simp [kinematics, Kalman.displace, Kinematics.displace, Pose.displace, δ.state_apply,
    Displacement.flat, State.x, State.y, State.yaw, State.speed, State.turn]

theorem kinematicsAt?_displace (q : Params α) (t : Time α) :
    kinematicsAt? (e.displace δ) q (t.displace δ) =
      (kinematicsAt? e q t).map (Kinematics.displace δ.flat) := by
  rw [kinematicsAt?, kinematicsAt?, e.at?_displace (uniform δ q), Option.map_map, Option.map_map]
  simp [Function.comp_def, kinematics_displace]

end TurnRate

end TrackFusion
