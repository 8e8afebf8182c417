import Mathlib
import TrackFusion.Json.Literal
import TrackFusion.Linear.Matrix

/-!
# Exact arithmetic

What the tracker would compute if its scalars were numbers without rounding.

* `ExactScalar`: scalars that are an ordered field, in which every number is finite.
* `Scalar ℝ`: the reals, with the true square root and the true functions of angles.
* `Scalar ℚ`: the rationals, on which scenes along the axes can be evaluated.
-/

namespace TrackFusion

/-- Scalars that are an ordered field. The laws tie the operations that a field does not know to it:
nothing is undefined or infinite, and there is one order. -/
class ExactScalar (α : Type) extends Scalar α, Field α, LinearOrder α, IsStrictOrderedRing α where
  isNaN_eq (a : α) : Scalar.isNaN a = false
  isFinite_eq (a : α) : Scalar.isFinite a = true
  abs_eq (a : α) : Scalar.abs a = |a|
  order_eq (a b : α) : Scalar.order a b = compare a b
  beq_eq (a b : α) : (a == b) = decide (a = b)
  ofScientific_eq (m : ℕ) (s : Bool) (e : ℕ) :
    (OfScientific.ofScientific m s e : α) = if s then (m : α) / 10 ^ e else (m : α) * 10 ^ e

namespace ExactScalar

variable {α : Type} [ExactScalar α]

attribute [simp] isNaN_eq isFinite_eq abs_eq order_eq beq_eq

@[simp] theorem scalar_min_eq (a b : α) : Scalar.min a b = min a b := by
  by_cases h : b < a
  · simp [Scalar.min, h, h.le]
  · simp [Scalar.min, h, not_lt.1 h]

@[simp] theorem scalar_max_eq (a b : α) : Scalar.max a b = max a b := by
  by_cases h : a < b
  · simp [Scalar.max, h, h.le]
  · simp [Scalar.max, h, not_lt.1 h]

end ExactScalar

/-! ### Finite entries -/

theorem Vec.isFinite_iff {α : Type} [Scalar α] {n : ℕ} (v : Vec n α) :
    v.isFinite = true ↔ ∀ i, Scalar.isFinite (v i) = true := by
  simp only [Vec.isFinite, Vector.all_eq_true, Vec.get]
  constructor
  · intro h i
    exact h i i.isLt
  · intro h i hi
    exact h ⟨i, hi⟩

theorem Mat.isFinite_iff {α : Type} [Scalar α] {m n : ℕ} (a : Mat m n α) :
    a.isFinite = true ↔ ∀ i j, Scalar.isFinite (a i j) = true := by
  simp only [Mat.isFinite, Vector.all_eq_true, Mat.get]
  constructor
  · intro h i j
    exact h i i.isLt j j.isLt
  · intro h i hi j hj
    exact h ⟨i, hi⟩ ⟨j, hj⟩

theorem Vec.isFinite_eq {α : Type} [ExactScalar α] {n : ℕ} (v : Vec n α) : v.isFinite = true := by
  simp [isFinite]

theorem Mat.isFinite_eq {α : Type} [ExactScalar α] {m n : ℕ} (a : Mat m n α) :
    a.isFinite = true := by
  simp [isFinite]

/-! ### Two models -/

theorem ratOfScientific_eq (m : ℕ) (s : Bool) (e : ℕ) :
    (OfScientific.ofScientific m s e : ℚ) = if s then (m : ℚ) / 10 ^ e else (m : ℚ) * 10 ^ e := by
  show Rat.ofScientific m s e = _
  cases s
  · rw [Rat.ofScientific_false_def]
    simp
  · rw [Rat.ofScientific_true_def, Rat.mkRat_eq_div]
    simp

noncomputable instance : Scalar ℝ where
  decLt := inferInstance
  decLe := inferInstance
  pi := Real.pi
  isNaN _ := false
  isFinite _ := true
  abs a := |a|
  sqrt := Real.sqrt
  sin := Real.sin
  cos := Real.cos
  arcsin := Real.arcsin
  arctan y x := Complex.arg ⟨x, y⟩
  hypot x y := Real.sqrt (x ^ 2 + y ^ 2)
  floor a := ⌊a⌋₊
  round a := if 0 ≤ a then (⌊a + 1 / 2⌋ : ℝ) else (⌈a - 1 / 2⌉ : ℝ)
  remainder a m := if 0 ≤ a / m then a - m * (⌊a / m⌋ : ℝ) else a - m * (⌈a / m⌉ : ℝ)
  order := compare

noncomputable instance : ExactScalar ℝ where
  __ := (inferInstance : Scalar ℝ)
  __ := (inferInstance : Field ℝ)
  __ := (inferInstance : LinearOrder ℝ)
  __ := (inferInstance : IsStrictOrderedRing ℝ)
  isNaN_eq _ := rfl
  isFinite_eq _ := rfl
  abs_eq _ := rfl
  order_eq _ _ := rfl
  beq_eq _ _ := rfl
  ofScientific_eq m s e := by
    show (OfScientific.ofScientific m s e : ℝ) = _
    rw [← Rat.cast_ofScientific, ratOfScientific_eq]
    cases s <;> simp

/-- Roots, angles and lengths leave the rationals. What is said of angles here is true of zero, and
what is said of lengths is true along the axes; roots have no meaning. -/
instance : Scalar ℚ where
  decLt := inferInstance
  decLe := inferInstance
  pi := 355 / 113
  isNaN _ := false
  isFinite _ := true
  abs a := |a|
  sqrt _ := 0
  sin _ := 0
  cos _ := 1
  arcsin _ := 0
  arctan _ _ := 0
  hypot x y := |x| + |y|
  floor a := ⌊a⌋₊
  round a := if 0 ≤ a then (⌊a + 1 / 2⌋ : ℚ) else (⌈a - 1 / 2⌉ : ℚ)
  remainder a m := if 0 ≤ a / m then a - m * (⌊a / m⌋ : ℚ) else a - m * (⌈a / m⌉ : ℚ)
  order := compare

instance : ExactScalar ℚ where
  __ := (inferInstance : Scalar ℚ)
  __ := (inferInstance : Field ℚ)
  __ := (inferInstance : LinearOrder ℚ)
  __ := (inferInstance : IsStrictOrderedRing ℚ)
  isNaN_eq _ := rfl
  isFinite_eq _ := rfl
  abs_eq _ := rfl
  order_eq _ _ := rfl
  beq_eq _ _ := rfl
  ofScientific_eq := ratOfScientific_eq

/-- Literals are read digit by digit. Fractions have no literals; they are written with a bar. -/
instance : Json.Number ℚ where
  text := toString
  plain := toString
  ofLiteral? l :=
    let digits := l.whole ++ l.fraction.getD []
    let place := l.exponent.getD 0 - (l.fraction.getD []).length
    let x := (Nat.ofDigits 10 digits.reverse : ℚ) * 10 ^ place
    some (if l.neg then -x else x)

end TrackFusion
