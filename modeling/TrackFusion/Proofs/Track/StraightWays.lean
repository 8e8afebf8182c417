import TrackFusion.Proofs.Covariance.Motion

/-!
# Straight ways

At a constant velocity, where an object will be does not depend on how often it was asked for on the
way, nor on the steps in which each part of the way is gone.

* `Dynamics.Follows`: dynamics whose steps carry the mean along a flow.
* `Dynamics.Follows.iterate`, `run`, `advance`: equal steps, one call, and any calls in a row.
* `ConstantVelocity.follows_coast`: motion at a constant velocity is along straight lines.
* `ConstantVelocity.calls_ok`: **the calls on the way do not count.**
-/

namespace TrackFusion

variable {n : ℕ} {α : Type} [ExactScalar α]

namespace Dynamics

/-- Steps carry the mean along a flow: to go on for some time and then for some more is to go on for
both times together. No step fails. -/
structure Follows (d : Dynamics n α) (flow : α → Vec n α → Vec n α) : Prop where
  zero (x : Vec n α) : flow 0 x = x
  add (s t : α) (x : Vec n α) : flow t (flow s x) = flow (s + t) x
  step (dt : α) (f : Kalman n α) : ∃ f', d.step dt f = some f' ∧ f'.mean = flow dt f.mean

namespace Follows

variable {d : Dynamics n α} {flow : α → Vec n α → Vec n α} (h : d.Follows flow)

include h

/-- Equal steps come to their number times the length of one. -/
theorem iterate (dt : α) (k : ℕ) (f : Kalman n α) :
    ∃ f', TrackFusion.iterate (d.step dt) k f = some f' ∧ f'.mean = flow (k * dt) f.mean := by
  induction k generalizing f with
  | zero => exact ⟨f, rfl, by rw [Nat.cast_zero, zero_mul, h.zero]⟩
  | succ k ih =>
    obtain ⟨g, hg, hmean⟩ := h.step dt f
    obtain ⟨f', hf', hrest⟩ := ih g
    refine ⟨f', ?_, ?_⟩
    · rw [TrackFusion.iterate, hg, Option.bind_some, hf']
    · rw [hrest, hmean, h.add]
      congr 1
      push_cast
      ring

/-- **One way**, in however many steps. -/
theorem run (dt : α) (f : Kalman n α) :
    ∃ f', d.run dt f = some f' ∧ f'.mean = flow dt f.mean := by
  have hcount : (d.stepCount dt : α) ≠ 0 :=
    Nat.cast_ne_zero.2 (Nat.one_le_iff_ne_zero.1 (d.one_le_stepCount dt))
  obtain ⟨f', hf', hmean⟩ := h.iterate (dt / (d.stepCount dt : α)) (d.stepCount dt) f
  rw [mul_div_cancel₀ dt hcount] at hmean
  exact ⟨f', hf', hmean⟩

theorem advance {e : Estimate n α} {t : Time α} (ht : e.time ≤ t) :
    ∃ f, e.advance d t = some ⟨f, t⟩ ∧ f.mean = flow (t - e.time : α) e.filter.mean := by
  obtain ⟨f, hf, hmean⟩ := h.run (t - e.time) e.filter
  have hnot : ¬ (t - e.time : α) < 0 := not_lt.2 (sub_nonneg.2 ht)
  refine ⟨f, ?_, hmean⟩
  unfold Estimate.advance
  simp only [hnot, if_false, hf]
  rfl

/-- A look ahead goes the same way. -/
theorem at? {e : Estimate n α} {t : Time α} (ht : e.time ≤ t)
    (hfar : Estimate.minHorizon < (t - e.time : α)) :
    ∃ f, e.at? d t = some f ∧ f.mean = flow (t - e.time : α) e.filter.mean := by
  obtain ⟨f, hf, hmean⟩ := h.run (t - e.time) e.filter
  have hnot : ¬ (t - e.time : α) < 0 := not_lt.2 (sub_nonneg.2 ht)
  refine ⟨f, ?_, hmean⟩
  unfold Estimate.at?
  simp only [hnot, if_false, hfar, if_true, hf]

/-- **Calls in a row** lead as far as the last of them. -/
theorem foldlM_advance {e : Estimate n α} {times : List (Time α)} {t : Time α}
    (ht : (e.time :: (times ++ [t])).IsChain (· ≤ ·)) :
    ∃ f, (times ++ [t]).foldlM (fun e t => e.advance d t) e = some ⟨f, t⟩ ∧
      f.mean = flow (t - e.time : α) e.filter.mean := by
  induction times generalizing e with
  | nil =>
    obtain ⟨f, hf, hmean⟩ := h.advance (List.isChain_cons_cons.1 ht).1
    refine ⟨f, ?_, hmean⟩
    rw [List.nil_append, List.foldlM_cons, hf]
    rfl
  | cons s times ih =>
    obtain ⟨hle, hrest⟩ := List.isChain_cons_cons.1 ht
    obtain ⟨g, hg, hmean⟩ := h.advance hle
    obtain ⟨f, hf, hmean'⟩ := ih (e := ⟨g, s⟩) hrest
    refine ⟨f, ?_, ?_⟩
    · rw [List.cons_append, List.foldlM_cons, hg]
      exact hf
    · rw [hmean', hmean, h.add]
      congr 1
      exact sub_add_sub_cancel' s.seconds e.time.seconds t.seconds

end Follows

end Dynamics

namespace ConstantVelocity

/-- The state some time later, if the velocity stays as it is. -/
def coast (dt : α) (x : Vec 4 α) : Vec 4 α :=
  ⟨#v[x State.x + x State.vx * dt, x State.y + x State.vy * dt, x State.vx, x State.vy]⟩

theorem transition_mul (dt : α) (x : Vec 4 α) : Params.transition dt * x = coast dt x := by
  ext i
  rw [Mat.mulVec_apply, sum_eq, Fin.sum_univ_four]
  fin_cases i <;>
    simp [Params.transition, coast, Mat.ofRows, Mat.get, Vec.get, State.x, State.y, State.vx,
      State.vy, mul_comm]

/-- **Motion at a constant velocity** is along straight lines. -/
theorem follows_coast (p : Params α) : p.dynamics.Follows coast where
  zero x := by
    ext i
    fin_cases i <;> simp [coast, Vec.get, State.x, State.y, State.vx, State.vy]
  add s t x := by
    ext i
    fin_cases i <;> simp [coast, Vec.get, State.x, State.y, State.vx, State.vy] <;> ring
  step dt f := ⟨_, f.predict_eq _ _ _, transition_mul dt f.mean⟩

/-- **The calls on the way do not count.** However often an estimate is carried on before some time,
and however many steps each of these ways takes, at that time it has come as far as in a straight
line from where it began. It comes as far in one way, and a look ahead sees it there, unless it is
too near for that. -/
theorem calls_ok (p : Params α) {e : Estimate 4 α} {times : List (Time α)} {t : Time α}
    (ht : (e.time :: (times ++ [t])).IsChain (· ≤ ·)) :
    (∃ f, (times ++ [t]).foldlM (fun e t => e.advance p.dynamics t) e = some ⟨f, t⟩ ∧
      f.mean = coast (t - e.time) e.filter.mean) ∧
    (∃ f, e.advance p.dynamics t = some ⟨f, t⟩ ∧ f.mean = coast (t - e.time) e.filter.mean) ∧
    (Estimate.minHorizon < (t - e.time : α) →
      ∃ f, e.at? p.dynamics t = some f ∧ f.mean = coast (t - e.time) e.filter.mean) := by
  have htrans : Trans (α := Time α) (· ≤ ·) (· ≤ ·) (· ≤ ·) := ⟨le_trans (α := α)⟩
  have hle : e.time ≤ t := ht.rel_cons (by simp)
  have hflow := follows_coast p
  exact ⟨hflow.foldlM_advance ht, hflow.advance hle, hflow.at? hle⟩

/-- An object two metres ahead, at three metres a second. -/
def ahead : Estimate 4 ℚ := ⟨⟨⟨#v[2, 0, 3, 0]⟩, 1⟩, ⟨0⟩⟩

/-- Steps of up to a tenth of a second, with some noise. -/
def inTenths : Params ℚ := ⟨1, 1, 1, 1, 9, 9, 1 / 10⟩

/-- At a third of a second the object is asked for twice. After one second it has come three
metres. -/
theorem calls_ok_oneSecond :
    ([ahead.time, ⟨1 / 3⟩, ⟨1 / 3⟩, ⟨1⟩] : List (Time ℚ)).IsChain (· ≤ ·) ∧
    ∃ f, [⟨1 / 3⟩, ⟨1 / 3⟩, ⟨1⟩].foldlM (fun e t => e.advance inTenths.dynamics t) ahead =
      some ⟨f, ⟨1⟩⟩ ∧ f.mean = ⟨#v[5, 0, 3, 0]⟩ := by
  let onTheWay : List (Time ℚ) := [⟨1 / 3⟩, ⟨1 / 3⟩]
  have hchain : (ahead.time :: (onTheWay ++ [⟨1⟩])).IsChain (· ≤ ·) := by decide +kernel
  have hcoast : coast (1 - 0) ahead.filter.mean = ⟨#v[5, 0, 3, 0]⟩ := by decide +kernel
  obtain ⟨⟨f, hf, hmean⟩, -, -⟩ := calls_ok inTenths hchain
  exact ⟨hchain, f, hf, hmean.trans hcoast⟩

end ConstantVelocity

end TrackFusion
