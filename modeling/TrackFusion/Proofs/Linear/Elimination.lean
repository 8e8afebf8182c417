import TrackFusion.Proofs.Covariance.Matrices

/-!
# Elimination

A matrix is brought into a triangle by row operations, which are made on the unit matrix as well.
Below the diagonal the columns that are done with keep what they had, and count as zero.

* `cleared`: the matrix with its first columns zero below the diagonal.
* `det_eq_zero_of_corner`: a pivot that is zero is that of a singular matrix.
* `Eliminated`, with `Eliminated.step`: what holds after some columns, and what one more does.
* `substitute_mul`: one row of the way back.
* `inverseByElimination?_cases`: elimination fails for singular matrices only, and otherwise leads
  to the inverse.
-/

namespace TrackFusion.Mat

variable {α : Type} [ExactScalar α] {n : ℕ}

/-! ### Pivots -/

/-- The better one of two rows to have in place `i`. -/
def better (a : Mat n n α) (i best r : Fin n) : Fin n :=
  if i < r ∧ Scalar.abs (a best i) < Scalar.abs (a r i) then r else best

/-- The search for a pivot goes down from row `i`, and passes nothing larger over. -/
theorem foldl_better (a : Mat n n α) (i : Fin n) (l : List (Fin n)) {best : Fin n}
    (hbest : i ≤ best) : i ≤ l.foldl (better a i) best ∧
      |a best i| ≤ |a (l.foldl (better a i) best) i| ∧
      ∀ r ∈ l, i < r → |a r i| ≤ |a (l.foldl (better a i) best) i| := by
  induction l generalizing best with
  | nil => exact ⟨hbest, le_rfl, fun r hr => nomatch hr⟩
  | cons s l ih =>
    have hnext : i ≤ better a i best s ∧ |a best i| ≤ |a (better a i best s) i| ∧
        (i < s → |a s i| ≤ |a (better a i best s) i|) := by
      unfold better
      simp only [ExactScalar.abs_eq]
      split
      · rename_i hs
        exact ⟨hs.1.le, hs.2.le, fun _ => le_rfl⟩
      · rename_i hs
        exact ⟨hbest, le_rfl, fun his => not_lt.1 fun hlt => hs ⟨his, hlt⟩⟩
    obtain ⟨hle, hkeep, hs⟩ := hnext
    obtain ⟨hrest, hmax, hall⟩ := ih hle
    refine ⟨hrest, hkeep.trans hmax, fun r hr hir => ?_⟩
    rcases List.mem_cons.1 hr with rfl | hr
    · exact (hs hir).trans hmax
    · exact hall r hr hir

theorem le_pivotRow (a : Mat n n α) (i : Fin n) : i ≤ a.pivotRow i :=
  (foldl_better a i (List.finRange n) le_rfl).1

/-- If the pivot is zero, then so is its column from there on down. -/
theorem eq_zero_of_pivotRow {a : Mat n n α} {i : Fin n} (h : a (a.pivotRow i) i = 0) {r : Fin n}
    (hr : i ≤ r) : a r i = 0 := by
  obtain ⟨-, hown, hall⟩ := foldl_better a i (List.finRange n) (le_refl i)
  have hle : |a r i| ≤ |a (a.pivotRow i) i| := by
    rcases hr.eq_or_lt with rfl | hr
    · exact hown
    · exact hall r (List.mem_finRange r) hr
  rw [h, abs_zero] at hle
  exact abs_eq_zero.1 (le_antisymm hle (abs_nonneg _))

/-! ### Columns that are done with -/

/-- The matrix with its first `i` columns zero below the diagonal. -/
def cleared (i : ℕ) (a : Mat n n α) : Matrix (Fin n) (Fin n) α :=
  .of fun r k => if k.val < i ∧ k < r then 0 else a r k

theorem cleared_apply (i : ℕ) (a : Mat n n α) (r k : Fin n) :
    cleared i a r k = if k.val < i ∧ k < r then 0 else a r k := rfl

theorem cleared_zero (a : Mat n n α) : cleared 0 a = a.toMatrix := by
  ext r k
  rw [cleared_apply, if_neg fun h => Nat.not_lt_zero _ h.1, toMatrix_apply]

/-- **A corner of zeros** that reaches beyond the diagonal makes a matrix singular. -/
theorem det_eq_zero_of_corner {a : Matrix (Fin n) (Fin n) α} (i : Fin n)
    (h : ∀ r k, i ≤ r → k ≤ i → a r k = 0) : a.det = 0 := by
  rw [Matrix.det_apply]
  refine Finset.sum_eq_zero fun σ _ => ?_
  -- the columns up to `i` do not all find a row before `i`
  obtain ⟨k, hk, hσk⟩ : ∃ k ≤ i, i ≤ σ k := by
    by_contra hnone
    have hbefore : ∀ k ∈ Finset.Iic i, σ k ∈ Finset.Iio i := by
      intro k hk
      rw [Finset.mem_Iic] at hk
      rw [Finset.mem_Iio]
      exact not_le.1 fun hle => hnone ⟨k, hk, hle⟩
    have hcard := Finset.card_le_card_of_injOn σ hbefore σ.injective.injOn
    rw [Fin.card_Iic, Fin.card_Iio] at hcard
    omega
  have hprod : ∏ k, a (σ k) k = 0 := Finset.prod_eq_zero (Finset.mem_univ k) (h (σ k) k hσk hk)
  rw [hprod, smul_zero]

/-! ### Forwards -/

theorem take_succ_finRange {i : ℕ} (hi : i < n) :
    (List.finRange n).take (i + 1) = (List.finRange n).take i ++ [⟨i, hi⟩] := by
  rw [List.take_succ_eq_append_getElem (by simpa using hi), List.getElem_finRange]
  rfl

omit [ExactScalar α] in
theorem swapRows_apply (a : Mat n n α) (i j r k : Fin n) :
    a.swapRows i j r k = a (Equiv.swap i j r) k := by
  unfold swapRows get
  rw [Equiv.swap_apply_def]
  simp only [Fin.getElem_fin, Vector.getElem_swap, Fin.ext_iff]
  split
  · rfl
  · split <;> rfl

/-- What holds after some columns: the row operations, made on the unit matrix, bring the given one
into the form that it has by now. They can be undone, and no pivot is zero. -/
structure Eliminated (a : Matrix (Fin n) (Fin n) α) (i : ℕ) (ab : Mat n n α × Mat n n α) :
    Prop where
  mul : ab.2.toMatrix * a = cleared i ab.1
  det_ne : ab.2.toMatrix.det ≠ 0
  pivot_ne : ∀ k : Fin n, k.val < i → ab.1 k k ≠ 0

namespace Eliminated

variable {a : Matrix (Fin n) (Fin n) α} {ab : Mat n n α × Mat n n α}

theorem start (a : Mat n n α) : Eliminated a.toMatrix 0 (a, 1) where
  mul := by rw [toMatrix_one, one_mul, cleared_zero]
  det_ne := by
    rw [toMatrix_one, Matrix.det_one]
    exact one_ne_zero
  pivot_ne k hk := absurd hk (Nat.not_lt_zero _)

/-- Without a pivot the matrix is singular. -/
theorem det_eq_zero {i : Fin n} (h : Eliminated a i ab) (hpivot : ab.1 (ab.1.pivotRow i) i = 0) :
    a.det = 0 := by
  have hcorner : (cleared i ab.1).det = 0 := by
    refine det_eq_zero_of_corner i fun r k hr hk => ?_
    rw [cleared_apply]
    rcases hk.eq_or_lt with rfl | hk
    · rw [if_neg fun hlt => absurd hlt.1 (lt_irrefl _)]
      exact eq_zero_of_pivotRow hpivot hr
    · exact if_pos ⟨hk, hk.trans_le hr⟩
  rw [← h.mul, Matrix.det_mul] at hcorner
  exact (mul_eq_zero.1 hcorner).resolve_left h.det_ne

/-- Two rows that are not done with may change places. -/
theorem swap {i j : Fin n} (h : Eliminated a i ab) (hij : i ≤ j) :
    Eliminated a i (ab.1.swapRows i j, ab.2.swapRows i j) where
  mul := by
    have hmul := congrArg (fun m => m.submatrix (Equiv.swap i j) id) h.mul
    have hcleared : cleared i (ab.1.swapRows i j) =
        (cleared i ab.1).submatrix (Equiv.swap i j) id := by
      ext r k
      rw [Matrix.submatrix_apply, cleared_apply, cleared_apply, swapRows_apply]
      have hbelow : k < i → (k < r ↔ k < Equiv.swap i j r) := by
        intro hk
        rw [Equiv.swap_apply_def]
        split
        · rename_i hri
          exact iff_of_true (hri ▸ hk) (hk.trans_le hij)
        · split
          · rename_i hrj
            exact iff_of_true (hrj ▸ hk.trans_le hij) hk
          · rfl
      by_cases hk : k < i
      · simp only [Fin.val_fin_lt, id_eq, hk, true_and, hbelow hk]
      · simp only [Fin.val_fin_lt, id_eq, hk, false_and, if_false]
    rw [hcleared, ← hmul]
    ext r k
    simp [Matrix.mul_apply, swapRows_apply]
  det_ne := by
    have hrows : (ab.2.swapRows i j).toMatrix = ab.2.toMatrix.submatrix (Equiv.swap i j) id := by
      ext r k
      exact swapRows_apply ..
    rw [hrows, Matrix.det_permute]
    exact mul_ne_zero (by exact_mod_cast (Equiv.Perm.sign (Equiv.swap i j)).ne_zero) h.det_ne
  pivot_ne k hk := by
    have hsame : Equiv.swap i j k = k := by
      have hki : k < i := hk
      exact Equiv.swap_apply_of_ne_of_ne hki.ne (hki.trans_le hij).ne
    show ab.1.swapRows i j k k ≠ 0
    rw [swapRows_apply, hsame]
    exact h.pivot_ne k hk

/-- Multiples of the pivot's row, taken from the rows below it, clear its column there. -/
theorem cleared_succ {i : Fin n} {a a' : Mat n n α} (hpivot : a i i ≠ 0)
    (habove : ∀ r k, ¬(i < r ∧ i < k) → a' r k = a r k)
    (hbelow : ∀ r k, i < r → i < k → a' r k = a r k - a r i / a i i * a i k) (r k : Fin n) :
    cleared (i + 1) a' r k =
      cleared i a r k + (if i < r then -(a r i / a i i) else 0) * cleared i a i k := by
  rw [cleared_apply, cleared_apply, cleared_apply]
  by_cases hr : i < r
  · rw [if_pos hr]
    rcases lt_trichotomy k i with hk | rfl | hk
    · have hdone : k.val < i.val + 1 := Nat.lt_succ_of_lt hk
      have hkr : k < r := hk.trans hr
      rw [if_pos ⟨hdone, hkr⟩, if_pos ⟨hk, hkr⟩, if_pos ⟨hk, hk⟩, mul_zero, add_zero]
    · rw [if_pos ⟨Nat.lt_succ_self _, hr⟩, if_neg fun h => lt_irrefl _ h.1,
        if_neg fun h => lt_irrefl _ h.1]
      field_simp
      ring
    · have hlater : ¬k.val < i.val + 1 := not_lt.2 hk
      rw [if_neg fun h => hlater h.1, if_neg fun h => lt_asymm hk h.1,
        if_neg fun h => lt_asymm hk h.1, hbelow r k hr hk]
      ring
  · have hsame : a' r k = a r k := habove r k fun h => hr h.1
    rw [if_neg hr, zero_mul, add_zero, hsame]
    -- in these rows the new column has nothing below the diagonal
    have hiff : k.val < i.val + 1 ∧ k < r ↔ k.val < i.val ∧ k < r := by
      constructor
      · rintro ⟨-, hkr⟩
        exact ⟨hkr.trans_le (not_lt.1 hr), hkr⟩
      · rintro ⟨hk, hkr⟩
        exact ⟨Nat.lt_succ_of_lt hk, hkr⟩
    simp only [hiff]

/-- A row operation that clears the column below a pivot. -/
theorem clear {i : Fin n} (h : Eliminated a i ab) {ab' : Mat n n α × Mat n n α}
    (hpivot : ab.1 i i ≠ 0) (habove : ∀ r k, ¬(i < r ∧ i < k) → ab'.1 r k = ab.1 r k)
    (hbelow : ∀ r k, i < r → i < k → ab'.1 r k = ab.1 r k - ab.1 r i / ab.1 i i * ab.1 i k)
    (hsecond : ∀ r k, ab'.2 r k =
      ab.2 r k + (if i < r then -(ab.1 r i / ab.1 i i) else 0) * ab.2 i k) :
    Eliminated a (i + 1) ab' where
  mul := by
    ext r k
    rw [cleared_succ hpivot habove hbelow, ← h.mul]
    simp only [Matrix.mul_apply, toMatrix_apply, hsecond, add_mul, mul_assoc,
      Finset.sum_add_distrib, Finset.mul_sum]
  det_ne := by
    have hdet : ab'.2.toMatrix.det = ab.2.toMatrix.det :=
      Matrix.det_eq_of_forall_row_eq_smul_add_const
        (fun r => if i < r then -(ab.1 r i / ab.1 i i) else 0) i (if_neg (lt_irrefl i)) hsecond
    rw [hdet]
    exact h.det_ne
  pivot_ne k hk := by
    have hki : k ≤ i := Nat.lt_succ_iff.1 hk
    rw [habove k k fun hlt => absurd hlt.1 (not_lt.2 hki)]
    rcases hki.eq_or_lt with rfl | hki
    · exact hpivot
    · exact h.pivot_ne k hki

/-- **One column more**, unless the matrix is singular. -/
theorem step {i : Fin n} (h : Eliminated a i ab) :
    eliminate ab i = none ∧ a.det = 0 ∨
      ∃ ab', eliminate ab i = some ab' ∧ Eliminated a (i + 1) ab' := by
  unfold eliminate
  dsimp only
  split
  · rename_i hzero
    rw [ExactScalar.beq_eq, decide_eq_true_eq] at hzero
    exact .inl ⟨rfl, h.det_eq_zero hzero⟩
  · rename_i hne
    rw [ExactScalar.beq_eq, decide_eq_true_eq] at hne
    have hswap := h.swap (le_pivotRow ab.1 i)
    refine .inr ⟨_, rfl, hswap.clear ?_ ?_ ?_ ?_⟩
    · rwa [swapRows_apply, Equiv.swap_apply_left]
    · intro r k hrk
      rw [ofFn_apply, if_neg hrk]
    · intro r k hr hk
      rw [ofFn_apply, if_pos ⟨hr, hk⟩, Vec.ofFn_apply]
      ring
    · intro r k
      rw [ofFn_apply, Vec.ofFn_apply]
      split
      · ring
      · ring

/-- **Some columns**, unless the matrix is singular. -/
theorem run (a : Mat n n α) {i : ℕ} (hi : i ≤ n) :
    ((List.finRange n).take i).foldlM eliminate (a, 1) = none ∧ a.toMatrix.det = 0 ∨
      ∃ ab, ((List.finRange n).take i).foldlM eliminate (a, 1) = some ab ∧
        Eliminated a.toMatrix i ab := by
  induction i with
  | zero => exact .inr ⟨(a, 1), rfl, start a⟩
  | succ i ih =>
    rw [take_succ_finRange hi, List.foldlM_append]
    rcases ih (Nat.le_of_succ_le hi) with ⟨hnone, hdet⟩ | ⟨ab, hsome, hab⟩
    · rw [hnone]
      exact .inl ⟨rfl, hdet⟩
    · rw [hsome]
      have hstep := step (i := ⟨i, hi⟩) hab
      simpa using hstep

end Eliminated

/-! ### Backwards -/

/-- The matrix with its columns from `i` on like those of the unit matrix. -/
def leading (i : ℕ) (t : Matrix (Fin n) (Fin n) α) : Matrix (Fin n) (Fin n) α :=
  .of fun r k => if k.val < i then t r k else (1 : Matrix (Fin n) (Fin n) α) r k

theorem leading_apply (i : ℕ) (t : Matrix (Fin n) (Fin n) α) (r k : Fin n) :
    leading i t r k = if k.val < i then t r k else (1 : Matrix (Fin n) (Fin n) α) r k := rfl

theorem leading_succ (i : Fin n) (t : Matrix (Fin n) (Fin n) α) (r k : Fin n) :
    leading (i + 1) t r k = leading i t r k +
      (t r i - (1 : Matrix (Fin n) (Fin n) α) r i) * (1 : Matrix (Fin n) (Fin n) α) i k := by
  rw [leading_apply, leading_apply, Matrix.one_apply (i := i)]
  rcases lt_trichotomy k i with hk | rfl | hk
  · have hval : k.val < i.val := hk
    rw [if_pos (Nat.lt_succ_of_lt hval), if_pos hval, if_neg hk.ne', mul_zero, add_zero]
  · rw [if_pos (Nat.lt_succ_self _), if_neg (lt_irrefl _), if_pos rfl, mul_one]
    ring
  · have hval : i.val < k.val := hk
    rw [if_neg (not_lt.2 hval), if_neg (lt_asymm hval), if_neg hk.ne, mul_zero, add_zero]

theorem substitute_apply (a b : Mat n n α) (i r k : Fin n) : substitute a i b r k =
    if r = i then b i k / a i i else if r < i then -(b i k / a i i) * a r i + b r k else b r k := by
  rw [substitute, ofFn_apply, Vec.ofFn_apply]

/-- **One row of the way back.** What solves for the rows before `i` after row `i` has been solved
for, solves for row `i` as well. -/
theorem substitute_mul {a b x : Mat n n α} {i : Fin n} (hpivot : a i i ≠ 0)
    (h : leading i (cleared n a) * x.toMatrix = (substitute a i b).toMatrix) :
    leading (i + 1) (cleared n a) * x.toMatrix = b.toMatrix := by
  have hentry : ∀ r k, (leading i (cleared n a) * x.toMatrix) r k = substitute a i b r k :=
    fun r k => congrFun (congrFun h r) k
  have hone : ∀ k, ∑ s, (1 : Matrix (Fin n) (Fin n) α) i s * x s k = x i k := by
    intro k
    have hmul := congrFun (congrFun (Matrix.one_mul x.toMatrix) i) k
    rwa [Matrix.mul_apply] at hmul
  -- row `i` is that of the unit matrix up to there
  have hrow : ∀ k, x i k = b i k / a i i := by
    intro k
    have hunit : ∀ s, leading i (cleared n a) i s = (1 : Matrix (Fin n) (Fin n) α) i s := by
      intro s
      rw [leading_apply]
      split
      · rename_i hs
        have hsi : s < i := hs
        rw [cleared_apply, if_pos ⟨s.isLt, hsi⟩, Matrix.one_apply_ne hsi.ne']
      · rfl
    have hik := hentry i k
    simp only [Matrix.mul_apply, hunit, toMatrix_apply, hone] at hik
    rwa [substitute_apply, if_pos rfl] at hik
  ext r k
  have hsucc : (leading (i + 1) (cleared n a) * x.toMatrix) r k =
      (leading i (cleared n a) * x.toMatrix) r k +
        (cleared n a r i - (1 : Matrix (Fin n) (Fin n) α) r i) * x i k := by
    simp only [Matrix.mul_apply, leading_succ, add_mul, Finset.sum_add_distrib, mul_assoc,
      ← Finset.mul_sum, toMatrix_apply, hone]
  rw [hsucc, hentry, hrow, substitute_apply, cleared_apply, toMatrix_apply]
  rcases lt_trichotomy r i with hr | rfl | hr
  · rw [if_neg hr.ne, if_pos hr, if_neg fun h => lt_asymm hr h.2, Matrix.one_apply_ne hr.ne]
    ring
  · rw [if_pos rfl, if_neg fun h => lt_irrefl _ h.2, Matrix.one_apply_eq]
    field_simp
    ring
  · rw [if_neg hr.ne', if_neg (lt_asymm hr), if_pos ⟨i.isLt, hr⟩, Matrix.one_apply_ne hr.ne']
    ring

/-- **The way back** over some rows. -/
theorem foldr_substitute_mul {a : Mat n n α} (hpivot : ∀ i, a i i ≠ 0) {i : ℕ} (hi : i ≤ n)
    (b : Mat n n α) : leading i (cleared n a) *
      (((List.finRange n).take i).foldr (substitute a) b).toMatrix = b.toMatrix := by
  induction i generalizing b with
  | zero =>
    have hone : leading 0 (cleared n a) = 1 := by
      ext r k
      rw [leading_apply, if_neg (Nat.not_lt_zero _)]
    rw [hone, Matrix.one_mul]
    rfl
  | succ i ih =>
    rw [take_succ_finRange hi, List.foldr_append, List.foldr_cons, List.foldr_nil]
    exact substitute_mul (i := ⟨i, hi⟩) (hpivot _) (ih (Nat.le_of_succ_le hi) _)

/-! ### There and back -/

theorem leading_all (t : Matrix (Fin n) (Fin n) α) : leading n t = t := by
  ext r k
  rw [leading_apply, if_pos k.isLt]

theorem det_cleared {a : Mat n n α} (hpivot : ∀ i, a i i ≠ 0) : (cleared n a).det ≠ 0 := by
  have htriangle : (cleared n a).BlockTriangular id := by
    intro r k hkr
    rw [cleared_apply, if_pos ⟨k.isLt, hkr⟩]
  rw [Matrix.det_of_isUpperTriangular htriangle]
  refine Finset.prod_ne_zero_iff.2 fun i _ => ?_
  rw [cleared_apply, if_neg fun h => lt_irrefl i h.2]
  exact hpivot i

/-- **Elimination** fails for singular matrices only, and otherwise leads to the inverse. -/
theorem inverseByElimination?_cases (a : Mat n n α) :
    a.inverseByElimination? = none ∧ a.toMatrix.det = 0 ∨
      ∃ b, a.inverseByElimination? = some b ∧ b.toMatrix * a.toMatrix = 1 := by
  have hrun := Eliminated.run a (le_refl n)
  have hall : (List.finRange n).take n = List.finRange n := List.take_of_length_le (by simp)
  rw [hall] at hrun
  unfold inverseByElimination?
  rcases hrun with ⟨hnone, hdet⟩ | ⟨⟨t, b⟩, hsome, ht⟩
  · rw [hnone]
    exact .inl ⟨rfl, hdet⟩
  · rw [hsome]
    refine .inr ⟨_, rfl, ?_⟩
    have hpivot : ∀ i, t i i ≠ 0 := fun i => ht.pivot_ne i i.isLt
    have hback := foldr_substitute_mul hpivot (le_refl n) b
    rw [hall, leading_all] at hback
    have hunit : IsUnit (cleared n t) :=
      (Matrix.isUnit_iff_isUnit_det _).2 (isUnit_iff_ne_zero.2 (det_cleared hpivot))
    refine hunit.mul_left_cancel ?_
    rw [← mul_assoc, hback, mul_one]
    exact ht.mul

end TrackFusion.Mat
