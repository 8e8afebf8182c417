import TrackFusion.Proofs.Covariance.Blocks
import TrackFusion.Frame.Isometry

/-!
# Rotations

A change of frame turns points by a quaternion, covariances by its matrix and headings by one of its
angles. The three agree, and so do those of the inverse.

* `Rotation.IsUnit`: the quaternions that are rotations.
* `Rotation.IsUnit.toVec_apply`: points turn as the matrix says.
* `Rotation.matrix_inverse`, `IsUnit.transpose_mul_matrix`: the matrix of the inverse is the
  transpose.
* `Isometry.inverse_apply_apply`, `inverse_inverse`: there and back.
* `Rotation.AboutVertical.exists_turns`: the headings of a rotation about the vertical and of its
  inverse.
-/

namespace TrackFusion

/-! ### Points -/

section exact

variable {α : Type}

/-- The point as one of the vectors that matrices turn. -/
def Point3.toVec (p : Point3 α) : Vec 3 α := ⟨#v[p.x, p.y, p.z]⟩

theorem Point3.toVec_injective : Function.Injective (toVec : Point3 α → Vec 3 α) := by
  intro p q h
  have hx : p.x = q.x := congrArg (fun v => v 0) h
  have hy : p.y = q.y := congrArg (fun v => v 1) h
  have hz : p.z = q.z := congrArg (fun v => v 2) h
  cases p
  cases q
  exact (mk.injEq ..).mpr ⟨hx, hy, hz⟩

variable [ExactScalar α]

theorem two_eq : (2.0 : α) = 2 := by
  rw [ExactScalar.ofScientific_eq]
  norm_num

theorem Point3.add_eq (p q : Point3 α) : p + q = ⟨p.x + q.x, p.y + q.y, p.z + q.z⟩ := rfl

theorem Point3.neg_eq (p : Point3 α) : -p = ⟨-p.x, -p.y, -p.z⟩ := rfl

namespace Rotation

/-- The quaternion has length one, so that it is a rotation. -/
def IsUnit (q : Rotation α) : Prop := q.w * q.w + q.i * q.i + q.j * q.j + q.k * q.k = 1

variable {q : Rotation α}

theorem IsUnit.inverse (h : q.IsUnit) : q.inverse.IsUnit := by
  unfold IsUnit Rotation.inverse at *
  simpa using h

theorem inverse_inverse (q : Rotation α) : q.inverse.inverse = q := by
  simp [inverse]

theorem apply_add (q : Rotation α) (p r : Point3 α) : q.apply (p + r) = q.apply p + q.apply r := by
  simp only [apply, Point3.cross, Point3.scale, Point3.add_eq, Point3.mk.injEq]
  refine ⟨?_, ?_, ?_⟩ <;> ring

theorem apply_neg (q : Rotation α) (p : Point3 α) : q.apply (-p) = -q.apply p := by
  simp only [apply, Point3.cross, Point3.scale, Point3.add_eq, Point3.neg_eq, Point3.mk.injEq]
  refine ⟨?_, ?_, ?_⟩ <;> ring

/-! ### Matrices -/

/-- **Points turn as the matrix says.** -/
theorem IsUnit.toVec_apply (h : q.IsUnit) (p : Point3 α) :
    (q.apply p).toVec = q.matrix * p.toVec := by
  unfold IsUnit at h
  ext i
  rw [Mat.mulVec_apply, sum_eq, Fin.sum_univ_three]
  fin_cases i <;>
    simp [Point3.toVec, Vec.get, apply, matrix, Mat.ofRows, Mat.get, Point3.cross, Point3.scale,
      Point3.add_eq, two_eq]
  -- with the vector products written out, what is left over is the length of the quaternion
  · linear_combination -p.x * h
  · linear_combination -p.y * h
  · linear_combination -p.z * h

theorem matrix_inverse (q : Rotation α) : q.inverse.matrix = q.matrix.transpose := by
  ext i j
  rw [Mat.transpose_apply]
  fin_cases i <;> fin_cases j <;>
    simp [inverse, matrix, Mat.ofRows, Mat.get] <;> ring

/-- The rows of the matrix are at right angles, and as long as the square of the quaternion. -/
theorem matrix_mul_transpose_apply (q : Rotation α) (i j : Fin 3) :
    (q.matrix * q.matrix.transpose) i j =
      if i = j then (q.w * q.w + q.i * q.i + q.j * q.j + q.k * q.k) ^ 2 else 0 := by
  rw [Mat.mul_apply, sum_eq, Fin.sum_univ_three]
  simp only [Mat.transpose_apply]
  fin_cases i <;> fin_cases j <;> simp [matrix, Mat.ofRows, Mat.get, two_eq] <;> ring

theorem IsUnit.matrix_mul_transpose (h : q.IsUnit) : q.matrix * q.matrix.transpose = 1 := by
  unfold IsUnit at h
  ext i j
  rw [matrix_mul_transpose_apply, h, one_pow, Mat.one_apply]

/-- The inverse turns back. -/
theorem IsUnit.transpose_mul_matrix (h : q.IsUnit) : q.matrix.transpose * q.matrix = 1 := by
  have hback := h.inverse.matrix_mul_transpose
  rwa [matrix_inverse, Mat.transpose_transpose] at hback

theorem IsUnit.inverse_apply_apply (h : q.IsUnit) (p : Point3 α) :
    q.inverse.apply (q.apply p) = p := by
  apply Point3.toVec_injective
  rw [h.inverse.toVec_apply, h.toVec_apply, matrix_inverse, ← Mat.mul_mul_vec,
    h.transpose_mul_matrix, Mat.one_mul_vec]

end Rotation

/-! ### Isometries -/

namespace Isometry

variable {m : Isometry α}

theorem inverse_inverse (h : m.rotation.IsUnit) : m.inverse.inverse = m := by
  obtain ⟨q, o⟩ := m
  have horigin : q.inverse.inverse.apply (-q.inverse.apply (-o)) = o := by
    rw [Rotation.apply_neg, h.inverse.inverse_apply_apply]
    simp [Point3.neg_eq]
  rw [inverse, inverse, horigin, Rotation.inverse_inverse]

/-- **There and back** a point is where it was. -/
theorem inverse_apply_apply (h : m.rotation.IsUnit) (p : Point3 α) :
    m.inverse.apply (m.apply p) = p := by
  show m.rotation.inverse.apply (m.rotation.apply p + m.origin) +
    m.rotation.inverse.apply (-m.origin) = p
  rw [Rotation.apply_add, Rotation.apply_neg, h.inverse_apply_apply]
  simp [Point3.add_eq, Point3.neg_eq]

end Isometry

end exact

/-! ### Headings -/

namespace Rotation

open Place

/-- The rotation leaves the vertical as it is. -/
structure AboutVertical (q : Rotation ℝ) : Prop where
  i : q.i = 0
  j : q.j = 0

variable {q : Rotation ℝ}

theorem AboutVertical.inverse (h : q.AboutVertical) : q.inverse.AboutVertical where
  i := by simp [Rotation.inverse, h.i]
  j := by simp [Rotation.inverse, h.j]

/-- The heading is the angle of the first axis after the rotation. -/
theorem AboutVertical.yaw_eq (h : q.AboutVertical) :
    q.angles.z = Complex.arg ⟨q.w * q.w - q.k * q.k, q.w * q.k * 2⟩ := by
  have hup : q.matrix third first = 0 := by simp [matrix, Mat.ofRows, Mat.get, h.i, h.j]
  have hcos : q.matrix first first = q.w * q.w - q.k * q.k := by
    simp [matrix, Mat.ofRows, Mat.get, h.i, h.j]
  have hsin : q.matrix second first = q.w * q.k * 2 := by
    simp [matrix, Mat.ofRows, Mat.get, h.i, h.j, two_eq]
  have hlevel : Scalar.abs (0 : ℝ) < 1 := by
    show |(0 : ℝ)| < 1
    simp
  have hpitch : Scalar.cos (-Scalar.arcsin (0 : ℝ)) = 1 := by
    show Real.cos (-Real.arcsin 0) = 1
    simp
  unfold angles
  simp only [hup, if_pos hlevel, hpitch, div_one, hcos, hsin]
  rfl

/-- The heading of the inverse is the opposite one, which at half a turn is the same. -/
theorem AboutVertical.exists_turns (h : q.AboutVertical) :
    ∃ n : ℤ, q.angles.z + q.inverse.angles.z = n * (2 * Real.pi) := by
  have hconj : q.inverse.angles.z =
      Complex.arg (starRingEnd ℂ ⟨q.w * q.w - q.k * q.k, q.w * q.k * 2⟩) := by
    rw [h.inverse.yaw_eq]
    congr 1
    apply Complex.ext <;> simp [Rotation.inverse]
  rw [hconj, h.yaw_eq, Complex.arg_conj]
  split
  · next hhalf => exact ⟨1, by rw [hhalf, Int.cast_one]; ring⟩
  · exact ⟨0, by simp⟩

end Rotation

end TrackFusion
