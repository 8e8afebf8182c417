import TrackFusion.Proofs.Exact

/-!
# Comparisons

What comparing has in common for doubles and for exact numbers. Sums and products are not part of
it, which doubles round.

* `OrderedScalar`: scalars whose numbers can be compared.
* `OrderedScalar.le_of_not_lt`, `not_lt_of_le`: the two comparisons of numbers.
-/

namespace TrackFusion

/-- Scalars whose numbers can be compared. What is not a number compares with nothing. -/
class OrderedScalar (α : Type) [Scalar α] : Prop where
  lt_iff {a b : α} : a < b ↔ a ≤ b ∧ ¬ b ≤ a
  le_trans {a b c : α} : a ≤ b → b ≤ c → a ≤ c
  le_or_le {a b : α} : Scalar.isNaN a = false → Scalar.isNaN b = false → a ≤ b ∨ b ≤ a
  isNaN_of_le {a b : α} : a ≤ b → Scalar.isNaN a = false ∧ Scalar.isNaN b = false
  /-- The total order puts numbers in their order. -/
  le_of_order {a b : α} : Scalar.order a b ≠ .gt →
    Scalar.isNaN a = false → Scalar.isNaN b = false → a ≤ b
  order_swap (a b : α) : (Scalar.order a b).swap = Scalar.order b a
  order_trans {a b c : α} : Scalar.order a b ≠ .gt → Scalar.order b c ≠ .gt →
    Scalar.order a c ≠ .gt
  /-- What is finite can be taken from any number. -/
  isNaN_sub {a b : α} : Scalar.isNaN a = false → Scalar.isFinite b = true →
    Scalar.isNaN (a - b) = false
  isNaN_of_sub {a b : α} : Scalar.isNaN (a - b) = false → Scalar.isNaN a = false

namespace OrderedScalar

variable {α : Type} [Scalar α] [OrderedScalar α] {a b c : α}

theorem le_of_lt (h : a < b) : a ≤ b := (lt_iff.1 h).1

theorem not_lt_of_le (h : a ≤ b) : ¬ b < a := fun h' => (lt_iff.1 h').2 h

theorem le_of_not_lt (ha : Scalar.isNaN a = false) (hb : Scalar.isNaN b = false) (h : ¬ a < b) :
    b ≤ a := by
  rcases le_or_le ha hb with hab | hba
  · by_contra hba
    exact h (lt_iff.2 ⟨hab, hba⟩)
  · exact hba

theorem le_refl (ha : Scalar.isNaN a = false) : a ≤ a := (le_or_le ha ha).elim id id

theorem lt_of_lt_of_le (h : a < b) (h' : b ≤ c) : a < c :=
  lt_iff.2 ⟨le_trans (le_of_lt h) h', fun hca => (lt_iff.1 h).2 (le_trans h' hca)⟩

theorem lt_of_le_of_lt (h : a ≤ b) (h' : b < c) : a < c :=
  lt_iff.2 ⟨le_trans h (le_of_lt h'), fun hca => (lt_iff.1 h').2 (le_trans hca h)⟩

theorem min_eq_left (h : a ≤ b) : Scalar.min a b = a := by
  obtain ⟨ha, hb⟩ := isNaN_of_le h
  rw [Scalar.min, if_neg (by simp [ha]), if_neg (by simp [hb]), if_neg (not_lt_of_le h)]

theorem order_total (a b : α) : Scalar.order a b ≠ .gt ∨ Scalar.order b a ≠ .gt := by
  rw [← order_swap a b]
  cases Scalar.order a b <;> simp

instance : Std.TransCmp (Scalar.order : α → α → Ordering) where
  eq_swap := (order_swap _ _).symm
  isLE_trans h h' := by
    rw [Ordering.isLE_iff_ne_gt] at *
    exact order_trans h h'

end OrderedScalar

instance {α : Type} [ExactScalar α] : OrderedScalar α where
  lt_iff := lt_iff_le_not_ge
  le_trans := le_trans
  le_or_le _ _ := le_total _ _
  isNaN_of_le _ := ⟨ExactScalar.isNaN_eq _, ExactScalar.isNaN_eq _⟩
  le_of_order h _ _ := by
    rwa [ExactScalar.order_eq, compare_le_iff_le] at h
  order_swap a b := by
    rw [ExactScalar.order_eq, ExactScalar.order_eq, Std.OrientedOrd.eq_swap, Ordering.swap_swap]
  order_trans h h' := by
    rw [ExactScalar.order_eq, compare_le_iff_le] at *
    exact le_trans h h'
  isNaN_sub _ _ := ExactScalar.isNaN_eq _
  isNaN_of_sub _ := ExactScalar.isNaN_eq _

end TrackFusion
