import TrackFusion.Proofs.Covariance.Corrections

/-!
# Information

Of a definite covariance there is an inverse, its precision. A measurement adds to it, and it does
so whatever has been measured before.

* `Mat.IsDefinite`: covariances that leave a doubt in every direction.
* `Kalman.precision`, `Kalman.evidence`: an estimate in terms of what is known.
* `Kalman.correct_adds`: a correction adds up both.
* `Kalman.correct_swap`: it does not matter which one of two corrections comes first.
-/

open scoped Matrix

namespace TrackFusion

variable {m n : ℕ}

namespace Mat

/-- A definite covariance is symmetric, and has some variance in every direction. -/
def IsDefinite (a : Mat n n ℝ) : Prop := a.toMatrix.PosDef

namespace IsDefinite

variable {a : Mat n n ℝ}

theorem isCovariance (h : a.IsDefinite) : a.IsCovariance := Matrix.PosDef.posSemidef h

theorem isUnit (h : a.IsDefinite) : IsUnit a.toMatrix.det :=
  (Matrix.isUnit_iff_isUnit_det _).1 (Matrix.PosDef.isUnit h)

theorem exists_inverse (h : a.IsDefinite) : ∃ b, a * b = 1 := by
  have hinverse : (ofFn fun i j => a.toMatrix⁻¹ i j : Mat n n ℝ).toMatrix = a.toMatrix⁻¹ := by
    ext i j
    rw [toMatrix_apply, ofFn_apply]
  refine ⟨ofFn fun i j => a.toMatrix⁻¹ i j, toMatrix_injective ?_⟩
  rw [toMatrix_mul, hinverse, toMatrix_one, Matrix.mul_nonsing_inv _ h.isUnit]

theorem blockDiagonal {b : Mat m m ℝ} (ha : a.IsDefinite) (hb : b.IsDefinite) :
    (a.blockDiagonal b).IsDefinite := by
  have hcov : (a.blockDiagonal b).IsCovariance := ha.isCovariance.blockDiagonal hb.isCovariance
  refine Matrix.PosDef.of_dotProduct_mulVec_pos hcov.isHermitian fun x hx => ?_
  have hleft := Matrix.PosSemidef.dotProduct_mulVec_nonneg ha.isCovariance (x ∘ Fin.castAdd m)
  have hright := Matrix.PosSemidef.dotProduct_mulVec_nonneg hb.isCovariance (x ∘ Fin.natAdd n)
  rw [dotProduct_blockDiagonal]
  by_cases hzero : x ∘ Fin.castAdd m = 0
  · have hrest : x ∘ Fin.natAdd n ≠ 0 := by
      intro hnone
      refine hx (funext fun i => i.addCases (fun k => ?_) fun k => ?_)
      · exact congrFun hzero k
      · exact congrFun hnone k
    exact add_pos_of_nonneg_of_pos hleft (Matrix.PosDef.dotProduct_mulVec_pos hb hrest)
  · exact add_pos_of_pos_of_nonneg (Matrix.PosDef.dotProduct_mulVec_pos ha hzero) hright

end IsDefinite

theorem isDefinite_one : (1 : Mat n n ℝ).IsDefinite := by
  rw [IsDefinite, toMatrix_one]
  exact Matrix.PosDef.one

end Mat

namespace Kalman

/-- How precisely the state is known, in every direction. -/
noncomputable def precision (f : Kalman n ℝ) : Matrix (Fin n) (Fin n) ℝ := f.cov.toMatrix⁻¹

/-- The mean, weighed by how precisely it is known. -/
noncomputable def evidence (f : Kalman n ℝ) : Fin n → ℝ := f.precision *ᵥ f.mean.get

/-- What a measurement with noise `r` weighs in the state. -/
noncomputable def weight (c : Mat m n ℝ) (r : Mat m m ℝ) : Matrix (Fin n) (Fin m) ℝ :=
  c.toMatrixᵀ * r.toMatrix⁻¹

variable {f g : Kalman n ℝ} {c : Mat m n ℝ} {r s : Mat m m ℝ}

/-- Precision and evidence are all there is to an estimate. -/
theorem eq_of_precision (hf : f.cov.IsDefinite) (hg : g.cov.IsDefinite)
    (hprecision : f.precision = g.precision) (hevidence : f.evidence = g.evidence) : f = g := by
  have hcov : f.cov.toMatrix = g.cov.toMatrix := by
    rw [← Matrix.nonsing_inv_nonsing_inv _ hf.isUnit, ← Matrix.nonsing_inv_nonsing_inv _ hg.isUnit]
    exact congrArg _ hprecision
  have hback {f : Kalman n ℝ} (hf : f.cov.IsDefinite) :
      f.mean.get = f.cov.toMatrix *ᵥ f.evidence := by
    rw [evidence, precision, Matrix.mulVec_mulVec, Matrix.mul_nonsing_inv _ hf.isUnit,
      Matrix.one_mulVec]
  have hmean : f.mean.get = g.mean.get := by rw [hback hf, hback hg, hcov, hevidence]
  show (⟨f.mean, f.cov⟩ : Kalman n ℝ) = ⟨g.mean, g.cov⟩
  rw [Vec.get_injective hmean, Mat.toMatrix_injective hcov]

theorem innovationCov_isDefinite (hf : f.cov.IsCovariance) (hr : r.IsDefinite) :
    (f.innovationCov c r).IsDefinite := by
  rw [Mat.IsDefinite, innovationCov, Mat.toMatrix_add]
  exact Matrix.PosDef.posSemidef_add (hf.congruence c) hr

/-- What is left of the doubt, seen through the measurement, is what the gain makes of the noise. -/
theorem IsOptimal.left_mul_weight {k : Mat n m ℝ} (hk : f.IsOptimal c r k) (hr : r.IsDefinite) :
    ((1 - k * c) * f.cov).toMatrix * weight c r = k.toMatrix := by
  have hgain : (k * f.innovationCov c r).toMatrix = (f.cov * c.transpose).toMatrix :=
    congrArg Mat.toMatrix hk
  have hnoise : ((1 - k * c) * f.cov).toMatrix * c.toMatrixᵀ = k.toMatrix * r.toMatrix := by
    simp only [innovationCov, Mat.toMatrix_mul, Mat.toMatrix_add, Mat.toMatrix_sub,
      Mat.toMatrix_congruence, Mat.toMatrix_transpose, Mat.toMatrix_one, Matrix.mul_add,
      Matrix.sub_mul, Matrix.one_mul, Matrix.mul_assoc] at hgain ⊢
    exact sub_eq_of_eq_add' hgain.symm
  rw [weight, ← Matrix.mul_assoc, hnoise, Matrix.mul_assoc, Matrix.mul_nonsing_inv _ hr.isUnit,
    Matrix.mul_one]

theorem IsOptimal.precision_eq {k : Mat n m ℝ} (hk : f.IsOptimal c r k) (hf : f.cov.IsDefinite)
    (hr : r.IsDefinite) :
    ((1 - k * c) * f.cov).toMatrix⁻¹ = f.precision + weight c r * c.toMatrix := by
  apply Matrix.inv_eq_right_inv
  rw [Matrix.mul_add, ← Matrix.mul_assoc, hk.left_mul_weight hr, precision, Mat.toMatrix_mul,
    Matrix.mul_assoc, Matrix.mul_nonsing_inv _ hf.isUnit, Matrix.mul_one, Mat.toMatrix_sub,
    Mat.toMatrix_one, Mat.toMatrix_mul, sub_add_cancel]

/-- **A correction adds what the measurement tells**, to the precision and to the evidence. -/
theorem correct_adds (hf : f.cov.IsDefinite) (hr : r.IsDefinite) (y : Vec m ℝ) :
    ∃ f', f.correct y c r = .ok f' ∧ f'.cov.IsDefinite ∧
      f'.precision = f.precision + weight c r * c.toMatrix ∧
      f'.evidence = f.evidence + weight c r *ᵥ y.get := by
  obtain ⟨s, hs⟩ := (innovationCov_isDefinite (c := c) hf.isCovariance hr).exists_inverse
  have hk : f.IsOptimal c r (f.cov * c.transpose * s) := isOptimal_of_inverse hs
  have hcorrect := correct_short hf.isCovariance hr.isCovariance hs y
  set k := f.cov * c.transpose * s
  set f' : Kalman n ℝ := ⟨f.mean + k * f.innovation y c, (1 - k * c) * f.cov⟩ with hf'
  have hprecision : f'.precision = f.precision + weight c r * c.toMatrix := hk.precision_eq hf hr
  have hdefinite : f'.cov.IsDefinite := by
    have htold : (weight c r * c.toMatrix).PosSemidef := by
      have hmul := (Matrix.PosDef.inv hr).posSemidef.conjTranspose_mul_mul_same c.toMatrix
      rwa [Matrix.conjTranspose_eq_transpose_of_trivial] at hmul
    have hsum : f'.precision.PosDef := by
      rw [hprecision]
      exact (Matrix.PosDef.inv hf).add_posSemidef htold
    exact Matrix.posDef_inv_iff.1 hsum
  refine ⟨f', hcorrect, hdefinite, hprecision, ?_⟩
  -- the gain is what the measurement weighs, in terms of the new precision
  have hgain : f'.precision * k.toMatrix = weight c r := by
    rw [← hk.left_mul_weight hr, ← Matrix.mul_assoc]
    exact (congrArg (· * weight c r) (Matrix.nonsing_inv_mul _ hdefinite.isUnit)).trans
      (Matrix.one_mul _)
  have hmean : f'.mean.get = f.mean.get + k.toMatrix *ᵥ (y.get - c.toMatrix *ᵥ f.mean.get) := by
    rw [hf', Vec.get_add, Mat.get_mul, innovation, Vec.get_sub, Mat.get_mul]
  rw [evidence, hmean, Matrix.mulVec_add, Matrix.mulVec_mulVec, hgain, hprecision,
    Matrix.add_mulVec, Matrix.mulVec_sub, Matrix.mulVec_mulVec, evidence]
  abel

/-- **It does not matter which one of two corrections comes first.** -/
theorem correct_swap {m₁ m₂ : ℕ} {c₁ : Mat m₁ n ℝ} {r₁ : Mat m₁ m₁ ℝ} {c₂ : Mat m₂ n ℝ}
    {r₂ : Mat m₂ m₂ ℝ} (hf : f.cov.IsDefinite) (h₁ : r₁.IsDefinite) (h₂ : r₂.IsDefinite)
    (y₁ : Vec m₁ ℝ) (y₂ : Vec m₂ ℝ) :
    ∃ f₁ f₂ f', f.correct y₁ c₁ r₁ = .ok f₁ ∧ f₁.correct y₂ c₂ r₂ = .ok f' ∧
      f.correct y₂ c₂ r₂ = .ok f₂ ∧ f₂.correct y₁ c₁ r₁ = .ok f' := by
  obtain ⟨f₁, hf₁, hdefinite₁, hprecision₁, hevidence₁⟩ := correct_adds (c := c₁) hf h₁ y₁
  obtain ⟨f₂, hf₂, hdefinite₂, hprecision₂, hevidence₂⟩ := correct_adds (c := c₂) hf h₂ y₂
  obtain ⟨g₁, hg₁, hdefinite₁', hprecision₁', hevidence₁'⟩ :=
    correct_adds (c := c₂) hdefinite₁ h₂ y₂
  obtain ⟨g₂, hg₂, hdefinite₂', hprecision₂', hevidence₂'⟩ :=
    correct_adds (c := c₁) hdefinite₂ h₁ y₁
  have hprecision : g₁.precision = g₂.precision := by
    rw [hprecision₁', hprecision₁, hprecision₂', hprecision₂, add_right_comm]
  have hevidence : g₁.evidence = g₂.evidence := by
    rw [hevidence₁', hevidence₁, hevidence₂', hevidence₂, add_right_comm]
  obtain rfl := eq_of_precision hdefinite₁' hdefinite₂' hprecision hevidence
  exact ⟨f₁, f₂, g₁, hf₁, hg₁, hf₂, hg₂⟩

end Kalman

end TrackFusion
