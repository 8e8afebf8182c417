import TrackFusion.Proofs.Displacement.Motion

/-!
# Covariances

What keeps a matrix a covariance, over the reals.

* `Mat.toMatrix`: the matrices of the tracker as matrices of the library.
* `Mat.IsCovariance`: symmetric and positive semidefinite.
* `IsCovariance.add`, `congruence`, `restrict`, `blockDiagonal`, `joseph`: how covariances are
  built from others.
* `isCovariance_turnedVariance`: variances along and across any heading make one.
-/

open scoped Matrix

namespace TrackFusion

variable {l m n : ℕ}

/-! ### Vectors -/

namespace Vec

theorem get_injective {α : Type} : Function.Injective (get : Vec n α → _) :=
  fun _ _ h => ext fun i => congrFun h i

variable {α : Type} [ExactScalar α]

theorem get_add (v w : Vec n α) : (v + w).get = v.get + w.get := by
  ext i
  exact add_apply v w i

theorem get_sub (v w : Vec n α) : (v - w).get = v.get - w.get := by
  ext i
  exact sub_apply v w i

end Vec

/-! ### Matrices -/

namespace Mat

section exact

variable {α : Type}

/-- The matrix as one of the library. -/
def toMatrix (a : Mat m n α) : Matrix (Fin m) (Fin n) α := .of fun i j => a i j

@[simp] theorem toMatrix_apply (a : Mat m n α) (i : Fin m) (j : Fin n) :
    a.toMatrix i j = a i j := rfl

theorem toMatrix_injective : Function.Injective (toMatrix : Mat m n α → _) := fun _ _ h =>
  Mat.ext fun i j => congrFun (congrFun h i) j

theorem toMatrix_transpose (a : Mat m n α) : a.transpose.toMatrix = a.toMatrix.transpose := by
  ext i j
  simp

theorem transpose_transpose (a : Mat m n α) : a.transpose.transpose = a := by
  ext i j
  simp

variable [ExactScalar α]

theorem toMatrix_one : (1 : Mat n n α).toMatrix = 1 := by
  ext i j
  rw [toMatrix_apply, one_apply, Matrix.one_apply]

theorem toMatrix_add (a b : Mat m n α) : (a + b).toMatrix = a.toMatrix + b.toMatrix := by
  ext i j
  simp

theorem toMatrix_sub (a b : Mat m n α) : (a - b).toMatrix = a.toMatrix - b.toMatrix := by
  ext i j
  simp

theorem toMatrix_mul (a : Mat l m α) (b : Mat m n α) :
    (a * b).toMatrix = a.toMatrix * b.toMatrix := by
  ext i j
  simp [sum_eq, Matrix.mul_apply]

theorem toMatrix_congruence (a : Mat m n α) (c : Mat n n α) :
    (a.congruence c).toMatrix = a.toMatrix * c.toMatrix * a.toMatrixᵀ := by
  rw [congruence, toMatrix_mul, toMatrix_mul, toMatrix_transpose]

theorem toMatrix_diagonal (d : Vec n α) : (diagonal d).toMatrix = .diagonal d := by
  ext i j
  simp [Matrix.diagonal_apply]

/-- A symmetric matrix is its own mean with its transpose. -/
theorem symmetrize_eq {a : Mat n n α} (h : a.transpose = a) : a.symmetrize = a := by
  ext i j
  have hhalf : (0.5 : α) = 1 / 2 := by
    rw [ExactScalar.ofScientific_eq]
    norm_num
  rw [symmetrize, h, scale_apply, add_apply, hhalf]
  ring

theorem get_mul (a : Mat m n α) (v : Vec n α) : (a * v).get = a.toMatrix *ᵥ v.get := by
  ext i
  have hentry : (a * v).get i = sum n fun k => a i k * v k := mulVec_apply a v i
  rw [hentry, sum_eq]
  rfl

theorem mul_mul_vec (a : Mat l m α) (b : Mat m n α) (v : Vec n α) : a * b * v = a * (b * v) := by
  apply Vec.get_injective
  rw [get_mul, get_mul, get_mul, toMatrix_mul, Matrix.mulVec_mulVec]

theorem one_mul_vec (v : Vec n α) : (1 : Mat n n α) * v = v := by
  apply Vec.get_injective
  rw [get_mul, toMatrix_one, Matrix.one_mulVec]

end exact

/-- The entries of each block see only their own part of a direction. -/
theorem dotProduct_blockDiagonal (a : Mat m m ℝ) (b : Mat n n ℝ) (x : Fin (m + n) → ℝ) :
    star x ⬝ᵥ ((a.blockDiagonal b).toMatrix *ᵥ x) =
      star (x ∘ Fin.castAdd n) ⬝ᵥ (a.toMatrix *ᵥ (x ∘ Fin.castAdd n)) +
        star (x ∘ Fin.natAdd m) ⬝ᵥ (b.toMatrix *ᵥ (x ∘ Fin.natAdd m)) := by
  simp [dotProduct, Matrix.mulVec, Fin.sum_univ_add, blockDiagonal]

/-- A covariance is symmetric, and has no negative variance in any direction. -/
def IsCovariance (a : Mat n n ℝ) : Prop := a.toMatrix.PosSemidef

namespace IsCovariance

variable {a : Mat m m ℝ} {b : Mat n n ℝ}

theorem transpose_eq (h : a.IsCovariance) : a.transpose = a := by
  ext i j
  simpa using congrFun (congrFun h.isHermitian i) j

theorem apply_comm (h : a.IsCovariance) (i j : Fin m) : a i j = a j i := by
  conv_lhs => rw [← h.transpose_eq, transpose_apply]

theorem diag_nonneg (h : a.IsCovariance) (i : Fin m) : 0 ≤ a i i := Matrix.PosSemidef.diag_nonneg h

theorem add {a b : Mat n n ℝ} (ha : a.IsCovariance) (hb : b.IsCovariance) :
    (a + b).IsCovariance := by
  rw [IsCovariance, toMatrix_add]
  exact Matrix.PosSemidef.add ha hb

theorem congruence (h : b.IsCovariance) (c : Mat m n ℝ) : (c.congruence b).IsCovariance := by
  have hmul := Matrix.PosSemidef.mul_mul_conjTranspose_same h c.toMatrix
  rwa [Matrix.conjTranspose_eq_transpose_of_trivial, ← toMatrix_transpose, ← toMatrix_mul,
    ← toMatrix_mul] at hmul

theorem symmetrize (h : a.IsCovariance) : a.symmetrize.IsCovariance := by
  rwa [symmetrize_eq h.transpose_eq]

theorem restrict (h : b.IsCovariance) (axes : Fin m → Fin n) : (b.restrict axes).IsCovariance := by
  have hsub : (b.restrict axes).toMatrix = b.toMatrix.submatrix axes axes := by
    ext i j
    simp [Mat.restrict]
  rw [IsCovariance, hsub]
  exact Matrix.PosSemidef.submatrix h axes

theorem blockDiagonal (ha : a.IsCovariance) (hb : b.IsCovariance) :
    (a.blockDiagonal b).IsCovariance := by
  refine Matrix.PosSemidef.of_dotProduct_mulVec_nonneg ?_ fun x => ?_
  · ext i j
    refine i.addCases (fun k => ?_) fun k => ?_ <;>
      refine j.addCases (fun k' => ?_) fun k' => ?_
    · simpa [Mat.blockDiagonal] using ha.apply_comm k' k
    · simp [Mat.blockDiagonal]
    · simp [Mat.blockDiagonal]
    · simpa [Mat.blockDiagonal] using hb.apply_comm k' k
  · rw [dotProduct_blockDiagonal]
    exact add_nonneg (Matrix.PosSemidef.dotProduct_mulVec_nonneg ha _)
      (Matrix.PosSemidef.dotProduct_mulVec_nonneg hb _)

/-- A correction with any gain keeps a covariance. -/
theorem joseph {r : Mat n n ℝ} (ha : a.IsCovariance) (hr : r.IsCovariance) (k : Mat m n ℝ)
    (c : Mat n m ℝ) : (Kalman.joseph a k c r).IsCovariance :=
  (ha.congruence _).add (hr.congruence _)

end IsCovariance

theorem isCovariance_diagonal {d : Vec n ℝ} (h : ∀ i, 0 ≤ d i) : (diagonal d).IsCovariance := by
  rw [IsCovariance, toMatrix_diagonal, Matrix.posSemidef_diagonal_iff]
  exact h

theorem isCovariance_single {v : ℝ} (h : 0 ≤ v) :
    (ofRows #v[#v[v]] : Mat 1 1 ℝ).IsCovariance := by
  have hdiag : (ofRows #v[#v[v]] : Mat 1 1 ℝ) = diagonal (.ofFn fun _ => v) := by
    ext i j
    obtain rfl := Subsingleton.elim i 0
    obtain rfl := Subsingleton.elim j 0
    rw [diagonal_apply, Vec.ofFn_apply, if_pos rfl]
    rfl
  rw [hdiag]
  exact isCovariance_diagonal fun i => by rwa [Vec.ofFn_apply]

end Mat

/-! ### Headings -/

/-- The variances along and across a heading, turned. -/
theorem turnedVariance_eq (along across yaw : ℝ) :
    turnedVariance along across yaw =
      (rotation yaw).congruence (.diagonal ⟨#v[along, across]⟩) := by
  have hdouble : Scalar.sin (2.0 * yaw) = 2 * Real.sin yaw * Real.cos yaw := by
    have htwo : (2.0 * yaw : ℝ) = 2 * yaw := by norm_num
    rw [htwo]
    exact Real.sin_two_mul yaw
  ext i j
  rw [turnedVariance, hdouble, Mat.congruence, Mat.mul_apply, sum_eq]
  simp only [Mat.mul_apply, Mat.transpose_apply, Mat.diagonal_apply, sum_eq, Fin.sum_univ_two]
  fin_cases i <;> fin_cases j <;>
    simp [rotation, Mat.ofRows, Mat.get, Vec.get, Scalar.sin, Scalar.cos] <;> ring

theorem isCovariance_turnedVariance {along across : ℝ} (ha : 0 ≤ along) (hc : 0 ≤ across)
    (yaw : ℝ) : (turnedVariance along across yaw).IsCovariance := by
  rw [turnedVariance_eq]
  refine (Mat.isCovariance_diagonal fun i => ?_).congruence _
  fin_cases i
  · exact ha
  · exact hc

/-- With variances along and across it there is one in every direction. -/
theorem turnedVariance_diag_pos {along across : ℝ} (ha : 0 < along) (hc : 0 < across) (yaw : ℝ)
    (i : Fin 2) : 0 < turnedVariance along across yaw i i := by
  have hcircle : Real.sin yaw * Real.sin yaw + Real.cos yaw * Real.cos yaw = 1 := by
    simpa [sq] using Real.sin_sq_add_cos_sq yaw
  have hsin := mul_self_nonneg (Real.sin yaw)
  have hcos := mul_self_nonneg (Real.cos yaw)
  have hmin : 0 < min along across := lt_min ha hc
  -- both entries are means of the two variances
  have hmean (u v : ℝ) (hu : min along across ≤ u) (hv : min along across ≤ v) :
      0 < u * Real.cos yaw * Real.cos yaw + v * Real.sin yaw * Real.sin yaw := by
    calc 0 < min along across := hmin
      _ = min along across * (Real.cos yaw * Real.cos yaw) +
          min along across * (Real.sin yaw * Real.sin yaw) := by
        rw [← mul_add, add_comm, hcircle, mul_one]
      _ ≤ u * (Real.cos yaw * Real.cos yaw) + v * (Real.sin yaw * Real.sin yaw) := by gcongr
      _ = _ := by ring
  fin_cases i
  · exact hmean along across (min_le_left ..) (min_le_right ..)
  · show 0 < along * Real.sin yaw * Real.sin yaw + across * Real.cos yaw * Real.cos yaw
    rw [add_comm]
    exact hmean across along (min_le_right ..) (min_le_left ..)

end TrackFusion
