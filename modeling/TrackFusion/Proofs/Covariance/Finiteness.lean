import TrackFusion.Proofs.Covariance.Motion
import TrackFusion.Proofs.Operands

/-!
# Finite estimates

Filters whose calls are allowed to fail, but not to leave a result that is infinite or undefined. A
prediction looks at all of its result. A correction looks at its mean only, and the noise of the
measurement is in the covariance alone.

* `Kalman.Call`, `Kalman.serve`: a call, and the filter after it.
* `Kalman.Closed`: a call that fails and changes nothing, or has a finite result.
* `Kalman.closed_predict`: predictions are closed.
* `Kalman.Lost`, `Kalman.Call.lost_of_outcome`: corrections with other than finite noise leave no
  entry of the covariance finite.
* `Kalman.predict_of_lost`, `Kalman.cov_serveAll`: what is lost remains lost, and predictions fail.
* `Kalman.closed_iff_finiteNoise`, `Kalman.finite_serveAll`: in exact arithmetic finite noise is
  enough, for one call and for any number.
* `Kalman.calls_closed_ok`: **where calls are closed.**
-/

namespace TrackFusion

namespace Kalman

section scalar

variable {α : Type} [Scalar α] {m n : ℕ}

/-! ### Calls -/

/-- What a filter is asked for. Measurements are of any size. -/
inductive Call (n : ℕ) (α : Type) where
  | predict (next : Vec n α) (a q : Mat n n α)
  | update {m : ℕ} (y : Vec m α) (c : Mat m n α) (r : Mat m m α)

/-- The filter that a call leads to, unless it fails. -/
def Call.outcome? (f : Kalman n α) : Call n α → Option (Kalman n α)
  | predict next a q => f.predict next a q
  | update y c r => (f.correct y c r).toOption

/-- The noise of a call is finite. -/
def Call.FiniteNoise : Call n α → Prop
  | predict _ _ q => q.isFinite = true
  | update _ _ r => r.isFinite = true

instance : (call : Call n α) → Decidable call.FiniteNoise
  | .predict _ _ q => inferInstanceAs (Decidable (q.isFinite = true))
  | .update _ _ r => inferInstanceAs (Decidable (r.isFinite = true))

/-- The filter after a call, and whether the call succeeded. One that fails leaves the filter as it
is. -/
def serve (f : Kalman n α) (call : Call n α) : Kalman n α × Bool :=
  match call.outcome? f with
  | some f' => (f', true)
  | none => (f, false)

/-- The filter after some calls. -/
def serveAll (f : Kalman n α) (calls : List (Call n α)) : Kalman n α :=
  calls.foldl (fun f call => (f.serve call).1) f

/-- All entries are finite. -/
def Finite (f : Kalman n α) : Prop := f.mean.isFinite = true ∧ f.cov.isFinite = true

instance (f : Kalman n α) : Decidable f.Finite :=
  inferInstanceAs (Decidable (f.mean.isFinite = true ∧ f.cov.isFinite = true))

/-- **The call fails and changes nothing, or it succeeds and its result is finite.** -/
def Closed (f : Kalman n α) (call : Call n α) : Prop :=
  f.serve call = (f, false) ∨ (f.serve call).2 = true ∧ (f.serve call).1.Finite

instance [DecidableEq α] (f : Kalman n α) (call : Call n α) : Decidable (f.Closed call) :=
  inferInstanceAs (Decidable
    (f.serve call = (f, false) ∨ (f.serve call).2 = true ∧ (f.serve call).1.Finite))

/-- No entry of the covariance is finite. -/
def Lost (f : Kalman n α) : Prop := ∀ i j, Scalar.isFinite (f.cov i j) = false

theorem serve_of_none {f : Kalman n α} {call : Call n α} (h : call.outcome? f = none) :
    f.serve call = (f, false) := by
  rw [serve, h]

theorem serve_of_some {f f' : Kalman n α} {call : Call n α} (h : call.outcome? f = some f') :
    f.serve call = (f', true) := by
  rw [serve, h]

/-- Only what succeeds has to be looked at. -/
theorem closed_iff {f : Kalman n α} {call : Call n α} :
    f.Closed call ↔ ∀ f', call.outcome? f = some f' → f'.Finite := by
  unfold Closed
  cases h : call.outcome? f with
  | none => simp [serve_of_none h]
  | some f' => simp [serve_of_some h]

theorem Call.outcome?_update {f f' : Kalman n α} {y : Vec m α} {c : Mat m n α} {r : Mat m m α} :
    (update y c r).outcome? f = some f' ↔ f.correct y c r = .ok f' := by
  show (f.correct y c r).toOption = some f' ↔ _
  cases f.correct y c r <;> simp [Except.toOption]

/-- **Predictions are closed**, whatever they are computed with. -/
theorem closed_predict (f : Kalman n α) (next : Vec n α) (a q : Mat n n α) :
    f.Closed (.predict next a q) :=
  closed_iff.2 fun _ h => (predict_eq_some_iff.1 h).1

theorem Call.mean_of_outcome {f f' : Kalman n α} {call : Call n α}
    (h : call.outcome? f = some f') : f'.mean.isFinite = true := by
  cases call with
  | predict next a q => exact (predict_eq_some_iff.1 h).1.1
  | update y c r =>
    obtain ⟨-, -, hmean, -⟩ := correct_eq_ok_iff.1 (outcome?_update.1 h)
    exact hmean

end scalar

/-! ### Lost covariances -/

section strict

variable {α : Type} [Scalar α] [StrictScalar α] {m n : ℕ} {f f' : Kalman n α} {call : Call n α}

open StrictScalar

/-- **A finite entry of the new covariance** depends on all of the old one and on all of the
noise. -/
theorem Call.isFinite_of_outcome (h : call.outcome? f = some f') {i j : Fin n}
    (hij : Scalar.isFinite (f'.cov i j) = true) :
    call.FiniteNoise ∧ f.cov.isFinite = true := by
  cases call with
  | predict next a q =>
    obtain ⟨⟨-, hcov⟩, rfl⟩ := predict_eq_some_iff.1 h
    rw [Mat.isFinite_iff] at hcov
    have hsum (k l : Fin n) := Mat.isFinite_of_symmetrize_add (hcov k l)
    exact ⟨q.isFinite_iff.2 fun k l => (hsum k l).2,
      f.cov.isFinite_iff.2 fun k l => (Mat.isFinite_of_congruence (hsum k l).1 k l).2.1⟩
  | update y c r =>
    obtain ⟨k, -, -, rfl⟩ := correct_eq_ok_iff.1 (outcome?_update.1 h)
    obtain ⟨hold, hnoise⟩ := Mat.isFinite_of_symmetrize_add hij
    exact ⟨r.isFinite_iff.2 fun a b => (Mat.isFinite_of_congruence hnoise a b).2.1,
      f.cov.isFinite_iff.2 fun a b => (Mat.isFinite_of_congruence hold a b).2.1⟩

/-- The mean of a correction is finite only if all of the gain and of what is read off are. -/
theorem isFinite_of_mean {k : Mat n m α} {y : Vec m α} {c : Mat m n α}
    (h : (f.mean + k * f.innovation y c).isFinite = true) :
    k.isFinite = true ∧ c.isFinite = true := by
  rw [Vec.isFinite_iff] at h
  have hproduct (i : Fin n) (l : Fin m) :
      Scalar.isFinite (k i l) = true ∧ Scalar.isFinite (f.innovation y c l) = true := by
    have hmean := h i
    rw [Vec.add_apply, Mat.mulVec_apply] at hmean
    exact isFinite_of_mul (isFinite_of_sum (isFinite_of_add hmean).2 l)
  refine ⟨k.isFinite_iff.2 fun i l => (hproduct i l).1, c.isFinite_iff.2 fun l i => ?_⟩
  have hinnovation := (hproduct i l).2
  rw [innovation, Vec.sub_apply, Mat.mulVec_apply] at hinnovation
  exact (isFinite_of_mul (isFinite_of_sum (isFinite_of_sub hinnovation).2 i)).1

/-- **All of the covariance is lost** if some of the noise is not finite. -/
theorem Call.lost_of_outcome (h : call.outcome? f = some f') (hnoise : ¬ call.FiniteNoise) :
    f'.Lost := fun _ _ =>
  Bool.eq_false_iff.2 fun hij => hnoise (isFinite_of_outcome h hij).1

/-- No call makes a covariance finite that is not. -/
theorem Call.cov_of_outcome (h : call.outcome? f = some f') (hcov : f'.cov.isFinite = true) :
    f.cov.isFinite = true := by
  -- an entry that is not finite would have a place, and the new covariance one there, too
  refine f.cov.isFinite_iff.2 fun i j => ?_
  have hall := (isFinite_of_outcome h (f'.cov.isFinite_iff.1 hcov i j)).2
  exact f.cov.isFinite_iff.1 hall i j

/-- Without a finite covariance there are no predictions any more. -/
theorem predict_of_lost (hf : f.cov.isFinite = false) (next : Vec n α) (a q : Mat n n α) :
    f.predict next a q = none := by
  refine Option.eq_none_iff_forall_ne_some.2 fun f' h => Bool.eq_false_iff.1 hf ?_
  have hcall : (Call.predict next a q).outcome? f = some f' := h
  exact Call.cov_of_outcome hcall (predict_eq_some_iff.1 h).1.2

theorem cov_serve (hf : f.cov.isFinite = false) (call : Call n α) :
    (f.serve call).1.cov.isFinite = false := by
  cases h : call.outcome? f with
  | none => rwa [serve_of_none h]
  | some f' =>
    rw [serve_of_some h]
    exact Bool.eq_false_iff.2 fun hcov => Bool.eq_false_iff.1 hf (Call.cov_of_outcome h hcov)

/-- **What is lost remains lost**, whatever the filter is asked for. -/
theorem cov_serveAll (hf : f.cov.isFinite = false) (calls : List (Call n α)) :
    (f.serveAll calls).cov.isFinite = false := by
  induction calls generalizing f with
  | nil => exact hf
  | cons call calls ih => exact ih (cov_serve hf call)

end strict

/-! ### Finite noise -/

section unbounded

variable {α : Type} [Scalar α] [UnboundedScalar α] {n : ℕ} {f f' : Kalman n α} {call : Call n α}

/-- **Finite noise leaves a finite covariance**, if nothing overflows. -/
theorem Call.finite_of_outcome (hf : f.Finite) (hnoise : call.FiniteNoise)
    (h : call.outcome? f = some f') : f'.Finite := by
  cases call with
  | predict next a q => exact (predict_eq_some_iff.1 h).1
  | update y c r =>
    obtain ⟨k, -, hmean, rfl⟩ := correct_eq_ok_iff.1 (outcome?_update.1 h)
    obtain ⟨hk, hc⟩ := isFinite_of_mean hmean
    have hrest : (1 - k * c).isFinite = true :=
      Mat.isFinite_sub Mat.isFinite_one (Mat.isFinite_mul hk hc)
    have hold := Mat.isFinite_congruence hrest hf.2
    have hnew := Mat.isFinite_congruence hk hnoise
    exact ⟨hmean, Mat.isFinite_symmetrize (Mat.isFinite_add hold hnew)⟩

theorem finite_serve (hf : f.Finite) (hnoise : call.FiniteNoise) : (f.serve call).1.Finite := by
  cases h : call.outcome? f with
  | none => rwa [serve_of_none h]
  | some f' =>
    rw [serve_of_some h]
    exact Call.finite_of_outcome hf hnoise h

/-- A filter is finite as long as the noise is. -/
theorem finite_serveAll (hf : f.Finite) {calls : List (Call n α)}
    (hnoise : ∀ call ∈ calls, call.FiniteNoise) : (f.serveAll calls).Finite := by
  induction calls generalizing f with
  | nil => exact hf
  | cons call calls ih =>
    obtain ⟨hcall, hcalls⟩ := List.forall_mem_cons.1 hnoise
    exact ih (finite_serve hf hcall) hcalls

/-- **In exact arithmetic** a call that succeeds is closed just if its noise is finite. -/
theorem closed_iff_finiteNoise (hf : f.Finite) :
    f.Closed call ↔ n = 0 ∨ call.outcome? f = none ∨ call.FiniteNoise := by
  rw [closed_iff]
  constructor
  · intro hclosed
    by_cases hnoise : call.FiniteNoise
    · exact .inr (.inr hnoise)
    cases h : call.outcome? f with
    | none => exact .inr (.inl rfl)
    | some f' =>
      -- a covariance without finite entries that is finite has no entries
      refine .inl (Nat.eq_zero_of_not_pos fun hpos => ?_)
      have hentry := f'.cov.isFinite_iff.1 (hclosed f' h).2 ⟨0, hpos⟩ ⟨0, hpos⟩
      rw [Call.lost_of_outcome h hnoise] at hentry
      cases hentry
  · rintro (rfl | hnone | hnoise) f' h
    · exact ⟨Call.mean_of_outcome h, f'.cov.isFinite_iff.2 fun i => i.elim0⟩
    · rw [hnone] at h
      cases h
    · exact Call.finite_of_outcome hf hnoise h

end unbounded

/-! ### Where calls are closed -/

/-- **Predictions of doubles are closed**, and a correction that succeeds has a finite mean. Its
covariance is lost, unless the noise of the measurement is finite. Whatever the filter is asked for
then, its covariance does not become finite again, and predictions fail. In exact arithmetic with
infinite and undefined results, finite noise is enough, for one call and for any number. -/
theorem calls_closed_ok {α : Type} [ExactScalar α] {n : ℕ} :
    (∀ (f : Kalman n Float) (next : Vec n Float) (a q : Mat n n Float),
      f.Closed (.predict next a q)) ∧
    (∀ (f f' : Kalman n Float) (call : Call n Float), call.outcome? f = some f' →
      f'.mean.isFinite = true ∧ (call.FiniteNoise ∨ f'.Lost)) ∧
    (∀ f : Kalman n Float, f.cov.isFinite = false → ∀ calls : List (Call n Float),
      (f.serveAll calls).cov.isFinite = false ∧
      ∀ next a q, (f.serveAll calls).predict next a q = none) ∧
    ∀ f : Kalman n (Extended α), f.Finite →
      (∀ call : Call n (Extended α),
        (f.Closed call ↔ n = 0 ∨ call.outcome? f = none ∨ call.FiniteNoise)) ∧
      ∀ calls : List (Call n (Extended α)), (∀ call ∈ calls, call.FiniteNoise) →
        (f.serveAll calls).Finite := by
  refine ⟨closed_predict, fun f f' call h => ⟨Call.mean_of_outcome h, ?_⟩, fun f hf calls => ?_,
    fun f hf => ⟨fun call => closed_iff_finiteNoise hf, fun calls => finite_serveAll hf⟩⟩
  · by_cases hnoise : call.FiniteNoise
    · exact .inl hnoise
    · exact .inr (Call.lost_of_outcome h hnoise)
  · have hlost := cov_serveAll hf calls
    exact ⟨hlost, predict_of_lost hlost⟩

/-- A measurement of the only entry of a state, with the noise that is given. -/
def Call.reading {α : Type} [Scalar α] (noise : α) : Call 1 α :=
  .update (m := 1) (.ofFn fun _ => 1) 1 (.ofFn fun _ _ => noise)

/-- An estimate of zero with the variance that is given. -/
def about {α : Type} [Scalar α] (variance : α) : Kalman 1 α := ⟨0, .ofFn fun _ _ => variance⟩

/-- Finite noise is no harm, one time or two. With infinite noise the variance is lost, and another
reading does not bring it back. -/
theorem calls_closed_ok_readings :
    (about (1 : Extended ℚ)).Finite ∧ (about (1 : Extended ℚ)).Closed (.reading 1) ∧
      ¬ (about (1 : Extended ℚ)).Closed (.reading (1 / 0)) ∧
      ((about (1 : Extended ℚ)).serveAll [.reading 1, .reading 2.0]).Finite ∧
      ((about (1.0 : Float)).serve (.reading (1.0 / 0.0))).1.cov.isFinite = false ∧
      (((about (1.0 : Float)).serve (.reading (1.0 / 0.0))).1.serveAll
        [.reading 1.0]).cov.isFinite = false := by
  obtain ⟨-, -, hlost, hexact⟩ := calls_closed_ok (α := ℚ) (n := 1)
  have hfinite : (about (1 : Extended ℚ)).Finite := by decide +kernel
  obtain ⟨hclosed, hfew⟩ := hexact _ hfinite
  have hgone : ((about (1.0 : Float)).serve (.reading (1.0 / 0.0))).1.cov.isFinite = false := by
    decide +kernel
  refine ⟨hfinite, (hclosed _).2 (.inr (.inr ?_)), mt (hclosed _).1 ?_, hfew _ ?_, hgone,
    (hlost _ hgone _).1⟩
  · decide +kernel
  · decide +kernel
  · simp only [List.forall_mem_cons]
    decide +kernel

/-- **A measurement without any worth** changes nothing but the variance, which is lost. -/
theorem not_closed_infiniteNoise :
    (about (1.0 : Float)).Finite ∧ ¬ (about (1.0 : Float)).Closed (.reading (1.0 / 0.0)) := by
  decide +kernel

/-- Doubles can overflow where the covariance is made symmetric, whatever the noise is. -/
example :
    let f : Kalman 1 Float := ⟨⟨#v[0.0]⟩, ⟨#v[#v[1e308]]⟩⟩
    let unseen : Call 1 Float := .update (m := 1) ⟨#v[0.0]⟩ ⟨#v[#v[0.0]]⟩ ⟨#v[#v[1.0]]⟩
    f.Finite ∧ unseen.FiniteNoise ∧ ¬ f.Closed unseen := by
  decide +kernel

end Kalman

end TrackFusion
