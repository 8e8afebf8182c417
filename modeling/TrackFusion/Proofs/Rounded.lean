import TrackFusion.Proofs.Ordered
import TrackFusion.Association.Basic

/-!
# Rounding

What rounding leaves of sums and products. Doubles keep these laws as exact numbers do.

* `RoundedScalar`: scalars whose differences have the right sign, and whose costs are finite.
-/

namespace TrackFusion

/-- Scalars that may be rounded. -/
class RoundedScalar (α : Type) [Scalar α] : Prop extends OrderedScalar α where
  /-- A number less another one that is not greater is not negative. It need not be a number. -/
  not_sub_neg {a b : α} : a ≤ b → ¬ b - a < 0
  isFinite_zero : Scalar.isFinite (0 : α) = true
  /-- The cost of a finite score is finite, with the charge of any row of a table that fits into
  memory. -/
  isFinite_cost {s : α} {i m : ℕ} : Scalar.isFinite s = true → i < m → m < 2 ^ 64 →
    Scalar.isFinite (1 - s + (i : α) * (Association.tieBreakTotal / ((m : α) * (m : α)))) = true

instance {α : Type} [ExactScalar α] : RoundedScalar α where
  not_sub_neg h := not_lt.2 (sub_nonneg.2 h)
  isFinite_zero := ExactScalar.isFinite_eq _
  isFinite_cost _ _ _ := ExactScalar.isFinite_eq _

namespace Association

variable {α : Type} [Scalar α] [RoundedScalar α] {m n : ℕ}

/-- All costs are finite, whatever the scores are. -/
theorem isFinite_costs (hm : m < 2 ^ 64) (score : Mat m n α) (i : Fin m) (j : Fin n) :
    Scalar.isFinite (costs score i j) = true := by
  have hmax : Nat.max m 1 = m := Nat.max_eq_left (Nat.one_le_of_lt i.isLt)
  simp only [costs, Mat.ofFn_apply, hmax]
  refine RoundedScalar.isFinite_cost ?_ i.isLt hm
  split
  · assumption
  · exact RoundedScalar.isFinite_zero

end Association

end TrackFusion
