import TrackFusion.Proofs.Covariance.Blocks
import TrackFusion.Proofs.Linear.Inverse

/-!
# Corrections

What a correction makes of the mean and of the covariance, for states and measurements of any size
and in exact arithmetic.

* `Kalman.correct_eq`: the outcome, for any inverse of the covariance of the innovation.
* `Kalman.IsOptimal`: gains that solve the normal equation, with `IsOptimal.joseph_eq` and
  `IsOptimal.congruence_eq`: what they take off the covariance.
* `Kalman.innovation_correct`: what is left of the innovation.
* `Kalman.correct_short`: the outcome for covariances.
* `Kalman.correct_optimal`: a correction is the optimal one, and adds no doubt.
-/

open scoped Matrix

namespace TrackFusion

namespace Kalman

variable {α : Type} [ExactScalar α] {m n : ℕ} {f : Kalman n α} {c : Mat m n α} {r s : Mat m m α}
  {k : Mat n m α}

/-- **A correction takes an inverse of the covariance of the innovation**, if there is one. -/
theorem correct_eq (hs : f.innovationCov c r * s = 1) (y : Vec m α) :
    f.correct y c r = .ok ⟨f.mean + f.cov * c.transpose * s * f.innovation y c,
      (joseph f.cov (f.cov * c.transpose * s) c r).symmetrize⟩ := by
  unfold correct gain?
  rw [Mat.inverse?_eq_some_iff.2 hs, Option.map_some]
  dsimp only
  rw [Vec.isFinite_eq, if_pos rfl]

/-! ### Optimal gains -/

/-- The gain solves the normal equation: weighed with it, the innovation leaves no correlation
between what is left of the doubt and what has been seen. -/
def IsOptimal (f : Kalman n α) (c : Mat m n α) (r : Mat m m α) (k : Mat n m α) : Prop :=
  k * f.innovationCov c r = f.cov * c.transpose

theorem isOptimal_of_inverse (hs : f.innovationCov c r * s = 1) :
    f.IsOptimal c r (f.cov * c.transpose * s) := by
  have hinverse : s.toMatrix * (f.innovationCov c r).toMatrix = 1 := by
    rw [mul_eq_one_comm, ← Mat.toMatrix_mul, hs, Mat.toMatrix_one]
  apply Mat.toMatrix_injective
  rw [Mat.toMatrix_mul, Mat.toMatrix_mul, Matrix.mul_assoc, hinverse, Matrix.mul_one]

namespace IsOptimal

/-- With an optimal gain the second half of the Joseph form comes to nothing. -/
theorem joseph_eq (hk : f.IsOptimal c r k) : joseph f.cov k c r = (1 - k * c) * f.cov := by
  have hgain := congrArg (fun g => Mat.toMatrix g * k.toMatrixᵀ) hk
  apply Mat.toMatrix_injective
  simp only [joseph, innovationCov, Mat.toMatrix_add, Mat.toMatrix_sub, Mat.toMatrix_mul,
    Mat.toMatrix_congruence, Mat.toMatrix_transpose, Mat.toMatrix_one, Matrix.transpose_sub,
    Matrix.transpose_one, Matrix.transpose_mul, Matrix.mul_add, Matrix.add_mul, Matrix.mul_sub,
    Matrix.sub_mul, Matrix.mul_one, Matrix.one_mul, Matrix.mul_assoc] at hgain ⊢
  rw [eq_sub_of_add_eq' hgain]
  abel

/-- What an optimal gain takes off is the part of the doubt that the innovation tells about. -/
theorem congruence_eq (hk : f.IsOptimal c r k) (hf : f.cov.transpose = f.cov)
    (hS : (f.innovationCov c r).transpose = f.innovationCov c r) :
    k.congruence (f.innovationCov c r) = k * c * f.cov := by
  have hP : f.cov.toMatrixᵀ = f.cov.toMatrix := by rw [← Mat.toMatrix_transpose, hf]
  have hgain : (f.innovationCov c r).toMatrix * k.toMatrixᵀ = c.toMatrix * f.cov.toMatrix := by
    have htransposed := congrArg (fun g => (Mat.toMatrix g)ᵀ) hk
    simp only [Mat.toMatrix_mul, Mat.toMatrix_transpose, Matrix.transpose_mul,
      Matrix.transpose_transpose] at htransposed
    rwa [← Mat.toMatrix_transpose, hS, hP] at htransposed
  apply Mat.toMatrix_injective
  rw [Mat.toMatrix_congruence, Matrix.mul_assoc, hgain, Mat.toMatrix_mul, Mat.toMatrix_mul,
    Matrix.mul_assoc]

end IsOptimal

/-- Of the innovation there is left what the noise has in its covariance. -/
theorem innovation_correct (hs : f.innovationCov c r * s = 1) {g : Kalman n α} {y : Vec m α}
    (hg : g.mean = f.mean + f.cov * c.transpose * s * f.innovation y c) :
    g.innovation y c = r * s * f.innovation y c := by
  set v := f.innovation y c with hv
  have hnoise : r.toMatrix * s.toMatrix = 1 - c.toMatrix * (f.cov * c.transpose * s).toMatrix := by
    have hinverse := congrArg Mat.toMatrix hs
    simp only [innovationCov, Mat.toMatrix_mul, Mat.toMatrix_add, Mat.toMatrix_congruence,
      Mat.toMatrix_one, Mat.toMatrix_transpose, Matrix.add_mul, Matrix.mul_assoc] at hinverse ⊢
    rw [← hinverse, add_sub_cancel_left]
  have hleft : v.get = y.get - c.toMatrix *ᵥ f.mean.get := by
    rw [hv, innovation, Vec.get_sub, Mat.get_mul]
  apply Vec.get_injective
  rw [innovation, hg, Vec.get_sub, Mat.get_mul, Vec.get_add, Mat.get_mul, Mat.get_mul,
    Mat.toMatrix_mul r, hnoise, Matrix.mulVec_add, Matrix.sub_mulVec, Matrix.one_mulVec,
    Matrix.mulVec_mulVec, hleft, sub_add_eq_sub_sub]

/-! ### Covariances -/

section covariances

variable {f : Kalman n ℝ} {c : Mat m n ℝ} {r s : Mat m m ℝ}

theorem innovationCov_isCovariance (hf : f.cov.IsCovariance) (hr : r.IsCovariance) :
    (f.innovationCov c r).IsCovariance :=
  (hf.congruence c).add hr

/-- Of covariances the Joseph form is the short form, and nothing is left to make symmetric. -/
theorem correct_short (hf : f.cov.IsCovariance) (hr : r.IsCovariance)
    (hs : f.innovationCov c r * s = 1) (y : Vec m ℝ) :
    f.correct y c r = .ok ⟨f.mean + f.cov * c.transpose * s * f.innovation y c,
      (1 - f.cov * c.transpose * s * c) * f.cov⟩ := by
  have hjoseph : (joseph f.cov (f.cov * c.transpose * s) c r).IsCovariance := hf.joseph hr _ c
  rw [correct_eq hs, Mat.symmetrize_eq hjoseph.transpose_eq, (isOptimal_of_inverse hs).joseph_eq]

/-- **A correction is the optimal one, and adds no doubt.** -/
theorem correct_optimal (hf : f.cov.IsCovariance) (hr : r.IsCovariance)
    (hs : f.innovationCov c r * s = 1) (y : Vec m ℝ) :
    ∃ f', f.correct y c r = .ok f' ∧
      f'.cov = (1 - f.cov * c.transpose * s * c) * f.cov ∧
      f'.cov = f.cov - (f.cov * c.transpose * s).congruence (f.innovationCov c r) ∧
      (f.cov - f'.cov).IsCovariance ∧
      (∀ i, f'.cov i i ≤ f.cov i i) ∧
      f'.innovation y c = r * s * f.innovation y c := by
  set k := f.cov * c.transpose * s
  have hk : f.IsOptimal c r k := isOptimal_of_inverse hs
  have hS : (f.innovationCov c r).IsCovariance := innovationCov_isCovariance hf hr
  have hless : (1 - k * c) * f.cov = f.cov - k.congruence (f.innovationCov c r) := by
    rw [hk.congruence_eq hf.transpose_eq hS.transpose_eq]
    apply Mat.toMatrix_injective
    simp only [Mat.toMatrix_sub, Mat.toMatrix_mul, Mat.toMatrix_one, Matrix.sub_mul, Matrix.one_mul]
  have hgain : (f.cov - (1 - k * c) * f.cov).IsCovariance := by
    have hcancel : f.cov - (1 - k * c) * f.cov = k.congruence (f.innovationCov c r) := by
      ext i j
      rw [hless, Mat.sub_apply, Mat.sub_apply, sub_sub_cancel]
    rw [hcancel]
    exact hS.congruence k
  refine ⟨_, correct_short hf hr hs y, rfl, hless, hgain, fun i => ?_, innovation_correct hs rfl⟩
  have hnonneg := hgain.diag_nonneg i
  rw [Mat.sub_apply] at hnonneg
  exact sub_nonneg.1 hnonneg

end covariances

/-- A reading as good as the estimate meets it halfway, and halves the doubt. -/
theorem correct_optimal_halfway : ∃ f',
    (⟨0, 1⟩ : Kalman 2 ℝ).correct ⟨#v[6, 4]⟩ (1 : Mat 2 2 ℝ) 1 = .ok f' ∧
      (∀ i, f'.cov i i = 1 / 2) ∧ f'.innovation ⟨#v[6, 4]⟩ (1 : Mat 2 2 ℝ) = ⟨#v[3, 2]⟩ := by
  have hone : (1 : Mat 2 2 ℝ).IsCovariance := by
    rw [Mat.IsCovariance, Mat.toMatrix_one]
    exact Matrix.PosSemidef.one
  have hinverse : (⟨0, 1⟩ : Kalman 2 ℝ).innovationCov (1 : Mat 2 2 ℝ) 1 *
      (.diagonal ⟨#v[1 / 2, 1 / 2]⟩ : Mat 2 2 ℝ) = 1 := by
    rw [innovationCov, Mat.one_congruence]
    ext i j
    rw [Mat.mul_apply, sum_eq, Fin.sum_univ_two]
    fin_cases i <;> fin_cases j <;> simp [Vec.get] <;> norm_num
  obtain ⟨f', hf', hcov, -, -, -, hleft⟩ :=
    correct_optimal (f := ⟨0, 1⟩) hone hone hinverse ⟨#v[6, 4]⟩
  refine ⟨f', hf', fun i => ?_, ?_⟩
  · rw [hcov]
    fin_cases i <;> simp [sum_eq, Vec.get] <;> norm_num
  · have hfresh : (⟨0, 1⟩ : Kalman 2 ℝ).innovation ⟨#v[6, 4]⟩ (1 : Mat 2 2 ℝ) = ⟨#v[6, 4]⟩ := by
      ext i
      rw [innovation, Vec.sub_apply, Mat.mulVec_apply, sum_eq]
      simp only [Vec.zero_apply, mul_zero, Finset.sum_const_zero, sub_zero]
    have hhalf : (1 : Mat 2 2 ℝ) * (.diagonal ⟨#v[1 / 2, 1 / 2]⟩ : Mat 2 2 ℝ) =
        .diagonal ⟨#v[1 / 2, 1 / 2]⟩ := by
      apply Mat.toMatrix_injective
      rw [Mat.toMatrix_mul, Mat.toMatrix_one, Matrix.one_mul]
    rw [hleft, hfresh, hhalf]
    ext i
    rw [Mat.mulVec_apply, sum_eq, Fin.sum_univ_two]
    fin_cases i <;> simp [Vec.get] <;> norm_num

end Kalman

end TrackFusion
