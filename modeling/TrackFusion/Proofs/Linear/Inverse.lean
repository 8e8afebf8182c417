import TrackFusion.Proofs.Linear.Elimination

/-!
# Inverses

In exact arithmetic matrices of all sizes are inverted, by cofactors or by elimination, exactly if
they have an inverse.

* `adjugate_cases`: the inverse by cofactors, for any size.
* `cofactor_eq`: the minors of a matrix of four rows.
* `inverse?_cases`: nothing for a singular matrix, and the inverse otherwise.
* `inverse?_eq_some_iff`: what is answered is what the product with the matrix is the unit for.
-/

namespace TrackFusion.Mat

variable {α : Type} [ExactScalar α] {n : ℕ}

/-! ### Cofactors -/

/-- What is divided by the determinant is the matrix of the cofactors. -/
theorem adjugate_cases {a b : Mat n n α} {det : α} (hdet : det = a.toMatrix.det)
    (hb : ∀ i j, b i j = a.toMatrix.adjugate i j / det) :
    (if det == 0 then none else some b) = none ∧ a.toMatrix.det = 0 ∨
      ∃ b', (if det == 0 then none else some b) = some b' ∧ b'.toMatrix * a.toMatrix = 1 := by
  by_cases hzero : det = 0
  · refine .inl ⟨?_, hdet ▸ hzero⟩
    rw [if_pos (by rwa [ExactScalar.beq_eq, decide_eq_true_eq])]
  · refine .inr ⟨b, ?_, ?_⟩
    · rw [if_neg (by rwa [ExactScalar.beq_eq, decide_eq_true_eq])]
    · have hscaled : b.toMatrix = det⁻¹ • a.toMatrix.adjugate := by
        ext i j
        rw [toMatrix_apply, hb, Matrix.smul_apply, smul_eq_mul, div_eq_inv_mul]
      rw [hscaled, Matrix.smul_mul, Matrix.adjugate_mul, ← hdet, smul_smul, inv_mul_cancel₀ hzero,
        one_smul]

theorem inverse1?_cases (a : Mat 1 1 α) : a.inverse1? = none ∧ a.toMatrix.det = 0 ∨
    ∃ b, a.inverse1? = some b ∧ b.toMatrix * a.toMatrix = 1 := by
  refine adjugate_cases ?_ fun i j => ?_
  · rw [Matrix.det_fin_one, toMatrix_apply]
  · rw [ofFn_apply, Matrix.adjugate_fin_one]
    obtain rfl := Subsingleton.elim i j
    rw [Matrix.one_apply_eq]

theorem inverse2?_cases (a : Mat 2 2 α) : a.inverse2? = none ∧ a.toMatrix.det = 0 ∨
    ∃ b, a.inverse2? = some b ∧ b.toMatrix * a.toMatrix = 1 := by
  refine adjugate_cases ?_ fun i j => ?_
  · rw [Matrix.det_fin_two]
    simp only [toMatrix_apply]
    ring
  · rw [Matrix.adjugate_fin_two]
    fin_cases i <;> fin_cases j <;> rfl

theorem inverse3?_cases (a : Mat 3 3 α) : a.inverse3? = none ∧ a.toMatrix.det = 0 ∨
    ∃ b, a.inverse3? = some b ∧ b.toMatrix * a.toMatrix = 1 := by
  refine adjugate_cases ?_ fun i j => ?_
  · rw [Matrix.det_fin_three]
    simp only [toMatrix_apply]
    ring
  · rw [Matrix.adjugate_fin_three]
    fin_cases i <;> fin_cases j <;> simp [ofRows, get] <;> ring

theorem others_eq (i : Fin 4) (k : Fin 3) : others i k = i.succAbove k := by
  unfold others Fin.succAbove
  rfl

theorem cofactor_eq (a : Mat 4 4 α) (i j : Fin 4) :
    cofactor a i j = a.toMatrix.adjugate j i := by
  rw [Matrix.adjugate_fin_succ_eq_det_submatrix, Matrix.det_fin_three]
  unfold cofactor
  simp only [Matrix.submatrix_apply, toMatrix_apply, others_eq]
  split
  · rename_i heven
    rw [Even.neg_one_pow (Nat.even_iff.2 heven)]
    ring
  · rename_i hodd
    rw [Odd.neg_one_pow (Nat.odd_iff.2 (by omega))]
    ring

theorem inverse4?_cases (a : Mat 4 4 α) : a.inverse4? = none ∧ a.toMatrix.det = 0 ∨
    ∃ b, a.inverse4? = some b ∧ b.toMatrix * a.toMatrix = 1 := by
  refine adjugate_cases ?_ fun i j => ?_
  · rw [Matrix.det_eq_sum_mul_adjugate_col a.toMatrix 0, Fin.sum_univ_four]
    simp only [transpose_apply, ofFn_apply, cofactor_eq, toMatrix_apply]
  · rw [scale_apply, transpose_apply, ofFn_apply, cofactor_eq, mul_one_div]

/-! ### All sizes -/

/-- **An inverse is the inverse**, and only singular matrices have none. -/
theorem inverse?_cases (a : Mat n n α) : a.inverse? = none ∧ a.toMatrix.det = 0 ∨
    ∃ b, a.inverse? = some b ∧ b.toMatrix * a.toMatrix = 1 := by
  match n, a with
  | 0, a => exact .inr ⟨a, rfl, Subsingleton.elim _ _⟩
  | 1, a => exact a.inverse1?_cases
  | 2, a => exact a.inverse2?_cases
  | 3, a => exact a.inverse3?_cases
  | 4, a => exact a.inverse4?_cases
  | _ + 5, a => exact a.inverseByElimination?_cases

theorem inverse?_eq_some_iff {a b : Mat n n α} : a.inverse? = some b ↔ a * b = 1 := by
  have hproduct : a * b = 1 ↔ b.toMatrix * a.toMatrix = 1 := by
    rw [← toMatrix_injective.eq_iff, toMatrix_mul, toMatrix_one, mul_eq_one_comm]
  rw [hproduct]
  rcases a.inverse?_cases with ⟨hnone, hdet⟩ | ⟨b', hsome, hb'⟩
  · rw [hnone]
    refine iff_of_false (by simp) fun hmul => ?_
    have hone := congrArg Matrix.det hmul
    rw [Matrix.det_mul, hdet, mul_zero, Matrix.det_one] at hone
    exact zero_ne_one hone
  · rw [hsome, Option.some.injEq]
    constructor
    · rintro rfl
      exact hb'
    · intro hmul
      exact toMatrix_injective (left_inv_eq_right_inv hb' (mul_eq_one_comm.1 hmul))

end TrackFusion.Mat
