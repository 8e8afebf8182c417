import TrackFusion.Proofs.Angles
import TrackFusion.Proofs.Covariance.Matrices

/-!
# Blocks of covariances

Covariances are put together from blocks, and taken apart again.

* `Mat.restrict_spread`, `restrict_blockDiagonal_left`, `restrict_blockDiagonal_right`: a block is
  found again where it has been put.
* `Mat.one_congruence`, `congruence_congruence`: linear maps one after the other.
* `Mat.restrict_congruence_left`, `restrict_congruence_right`: linear maps that keep to blocks.
* `Mat.transpose_congruence`, `trace_congruence`: what a turn leaves as it is.
* `turnBack_congruence`: a covariance that is turned, and turned back.
* `turnedVariance_add_turns`, `turnedVariance_add_pi`: variances along and across a heading.
-/

namespace TrackFusion

variable {l m n : ℕ}

namespace Mat

theorem restrict_apply {α : Type} (a : Mat n n α) (axes : Fin m → Fin n) (i j : Fin m) :
    a.restrict axes i j = a (axes i) (axes j) := ofFn_apply ..

section scalar

variable {α : Type} [Scalar α]

/-- A block is found again where it has been put. -/
theorem restrict_spread {place : Fin n → Option (Fin m)} {axes : Fin l → Fin n}
    {f : Fin l → Fin m} (h : ∀ i, place (axes i) = some (f i)) (a : Mat m m α) (rest : α) :
    (a.spread place rest).restrict axes = a.restrict f := by
  ext i j
  rw [restrict_apply, restrict_apply, spread, ofFn_apply, h, h]

theorem restrict_blockDiagonal_left (a : Mat m m α) (b : Mat n n α) :
    (a.blockDiagonal b).restrict (Fin.castAdd n) = a := by
  ext i j
  rw [restrict_apply, blockDiagonal, ofFn_apply]
  simp

theorem restrict_blockDiagonal_right (a : Mat m m α) (b : Mat n n α) :
    (a.blockDiagonal b).restrict (Fin.natAdd m) = b := by
  ext i j
  rw [restrict_apply, blockDiagonal, ofFn_apply]
  simp

theorem restrict_one {axes : Fin m → Fin n} (h : Function.Injective axes) :
    (1 : Mat n n α).restrict axes = 1 := by
  ext i j
  rw [restrict_apply, one_apply, one_apply]
  simp only [h.eq_iff]

theorem blockDiagonal_zero : (0 : Mat m m α).blockDiagonal (0 : Mat n n α) = 0 := by
  ext i j
  rw [blockDiagonal, ofFn_apply, zero_apply]
  refine i.addCases (fun k => ?_) fun k => ?_ <;> refine j.addCases (fun k' => ?_) fun k' => ?_
  all_goals simp

theorem blockDiagonal_one : (1 : Mat m m α).blockDiagonal (1 : Mat n n α) = 1 := by
  ext i j
  rw [blockDiagonal, ofFn_apply, one_apply]
  have hne (k : Fin m) (k' : Fin n) : Fin.castAdd n k ≠ Fin.natAdd m k' := by
    intro h
    have hval : k.val = m + k'.val := congrArg Fin.val h
    omega
  refine i.addCases (fun k => ?_) fun k => ?_ <;> refine j.addCases (fun k' => ?_) fun k' => ?_
  · simp
  · simp [hne k k']
  · simp [(hne k' k).symm]
  · simp

end scalar

variable {α : Type} [ExactScalar α]

theorem one_congruence (c : Mat n n α) : (1 : Mat n n α).congruence c = c := by
  ext i j
  rw [congruence, mul_apply, sum_eq]
  simp [sum_eq]

theorem congruence_congruence (a : Mat l m α) (b : Mat m n α) (c : Mat n n α) :
    a.congruence (b.congruence c) = (a * b).congruence c := by
  apply toMatrix_injective
  simp only [toMatrix_congruence, toMatrix_mul, Matrix.transpose_mul, Matrix.mul_assoc]

theorem blockDiagonal_mul (a c : Mat m m α) (b d : Mat n n α) :
    a.blockDiagonal b * c.blockDiagonal d = (a * c).blockDiagonal (b * d) := by
  ext i j
  rw [mul_apply, sum_eq, Fin.sum_univ_add]
  refine i.addCases (fun k => ?_) fun k => ?_ <;> refine j.addCases (fun k' => ?_) fun k' => ?_
  all_goals simp [blockDiagonal, sum_eq]

/-- Linear maps that do not mix two blocks act on each of them. -/
theorem restrict_congruence_left (a : Mat m m α) (b : Mat n n α) (c : Mat (m + n) (m + n) α) :
    ((a.blockDiagonal b).congruence c).restrict (Fin.castAdd n) =
      a.congruence (c.restrict (Fin.castAdd n)) := by
  ext i j
  simp [congruence, restrict_apply, sum_eq, Fin.sum_univ_add, blockDiagonal]

theorem restrict_congruence_right (a : Mat m m α) (b : Mat n n α) (c : Mat (m + n) (m + n) α) :
    ((a.blockDiagonal b).congruence c).restrict (Fin.natAdd m) =
      b.congruence (c.restrict (Fin.natAdd m)) := by
  ext i j
  simp [congruence, restrict_apply, sum_eq, Fin.sum_univ_add, blockDiagonal]

theorem transpose_congruence (a : Mat m n α) {c : Mat n n α} (h : c.transpose = c) :
    (a.congruence c).transpose = a.congruence c := by
  apply toMatrix_injective
  have hsymm : c.toMatrix.transpose = c.toMatrix := by rw [← toMatrix_transpose, h]
  rw [toMatrix_transpose, toMatrix_congruence, Matrix.transpose_mul, Matrix.transpose_mul, hsymm,
    Matrix.transpose_transpose, Matrix.mul_assoc]

/-- A turn keeps the sum of the variances. -/
theorem trace_congruence {a : Mat n n α} (h : a.transpose * a = 1) (c : Mat n n α) :
    (a.congruence c).toMatrix.trace = c.toMatrix.trace := by
  rw [toMatrix_congruence, Matrix.trace_mul_cycle, ← toMatrix_transpose, ← toMatrix_mul, h,
    toMatrix_one, one_mul]

end Mat

/-! ### Headings -/

/-- To turn back undoes a turn. -/
theorem rotation_transpose_mul (angle : ℝ) : (rotation angle).transpose * rotation angle = 1 := by
  have hcircle : Real.sin angle ^ 2 + Real.cos angle ^ 2 = 1 := Real.sin_sq_add_cos_sq angle
  ext i j
  rw [Mat.mul_apply, sum_eq, Fin.sum_univ_two, Mat.transpose_apply, Mat.transpose_apply,
    Mat.one_apply]
  fin_cases i <;> fin_cases j <;>
    simp [rotation, Mat.ofRows, Mat.get, Scalar.sin, Scalar.cos]
  · linarith
  · ring
  · ring
  · linarith

theorem turnBack_congruence (angle : ℝ) (c : Mat 2 2 ℝ) :
    (rotation angle).transpose.congruence ((rotation angle).congruence c) = c := by
  rw [Mat.congruence_congruence, rotation_transpose_mul, Mat.one_congruence]

theorem rotation_add_turns (angle : ℝ) (n : ℤ) :
    rotation (angle + n * (2 * Real.pi)) = rotation angle := by
  rw [rotation, rotation, Scalar.sin_add_turns, Scalar.cos_add_turns]

theorem turnedVariance_add_turns (along across yaw : ℝ) (n : ℤ) :
    turnedVariance along across (yaw + n * (2 * Real.pi)) = turnedVariance along across yaw := by
  rw [turnedVariance_eq, turnedVariance_eq, rotation_add_turns]

theorem turnedVariance_zero (yaw : ℝ) : turnedVariance 0 0 yaw = 0 := by
  ext i j
  rw [Mat.zero_apply]
  fin_cases i <;> fin_cases j <;> simp [turnedVariance, Mat.ofRows, Mat.get]

/-- Variances along and across a heading are those along and across the opposite one. -/
theorem turnedVariance_add_pi (along across yaw : ℝ) :
    turnedVariance along across (yaw + Real.pi) = turnedVariance along across yaw := by
  have hsin : (Scalar.sin (yaw + Real.pi) : ℝ) = -Scalar.sin yaw := Real.sin_add_pi yaw
  have hcos : (Scalar.cos (yaw + Real.pi) : ℝ) = -Scalar.cos yaw := Real.cos_add_pi yaw
  have hdouble : (Scalar.sin (2.0 * (yaw + Real.pi)) : ℝ) = Scalar.sin (2.0 * yaw) := by
    have hturn : (2.0 * (yaw + Real.pi) : ℝ) = 2.0 * yaw + 2 * Real.pi := by
      norm_num
      ring
    rw [hturn]
    exact Real.sin_add_two_pi _
  unfold turnedVariance
  simp only [hsin, hcos, hdouble, mul_neg, neg_mul, neg_neg]

end TrackFusion
