import Mathlib
import TrackFusion.Proofs.Ordered

/-!
# Exact arithmetic with infinite and undefined results

Numbers without rounding, as in `ExactScalar`, with two infinite ones and a result that is
undefined. Operations on these go by the rules of floating point, except that there is only one
zero.

* `Extended`: such numbers, over any exact scalars.
* `Scalar (Extended α)`: what they are computed with.
* `OrderedScalar (Extended α)`: they compare as doubles do.
-/

namespace TrackFusion

/-- Numbers, the infinite ones, and what is undefined. -/
inductive Extended (α : Type) where
  | number (x : α)
  | infinite (negative : Bool)
  | undefined
  deriving DecidableEq

namespace Extended

/-! ### Operations -/

section operations

variable {α : Type} [ExactScalar α]

/-- An infinite result, of the other sign for a negative factor. -/
def scaled (negative : Bool) (x : α) : Extended α := .infinite (negative ^^ decide (x < 0))

def neg : Extended α → Extended α
  | number x => number (-x)
  | infinite s => infinite !s
  | undefined => undefined

def add : Extended α → Extended α → Extended α
  | number x, number y => number (x + y)
  | infinite s, number _ => infinite s
  | number _, infinite s => infinite s
  | infinite s, infinite t => if s = t then infinite s else undefined
  | _, _ => undefined

def mul : Extended α → Extended α → Extended α
  | number x, number y => number (x * y)
  | infinite s, number y => if y = 0 then undefined else scaled s y
  | number x, infinite s => if x = 0 then undefined else scaled s x
  | infinite s, infinite t => infinite (s ^^ t)
  | _, _ => undefined

def div : Extended α → Extended α → Extended α
  | number x, number y =>
    if y = 0 then if x = 0 then undefined else scaled false x else number (x / y)
  | infinite s, number y => scaled s y
  | number _, infinite _ => number 0
  | _, _ => undefined

def abs : Extended α → Extended α
  | number x => number |x|
  | infinite _ => infinite false
  | undefined => undefined

def sqrt : Extended α → Extended α
  | number x => if x < 0 then undefined else number (Scalar.sqrt x)
  | infinite false => infinite false
  | _ => undefined

/-- A function that has no limit. -/
def ofNumber (f : α → α) : Extended α → Extended α
  | number x => number (f x)
  | _ => undefined

def arcsin : Extended α → Extended α
  | number x => if |x| ≤ 1 then number (Scalar.arcsin x) else undefined
  | _ => undefined

def arctan : Extended α → Extended α → Extended α
  | number y, number x => number (Scalar.arctan y x)
  | number _, infinite false => number 0
  | number y, infinite true => number (if y < 0 then -Scalar.pi else Scalar.pi)
  | infinite s, number _ => number (if s then -(Scalar.pi / 2.0) else Scalar.pi / 2.0)
  | infinite s, infinite t =>
    let angle : α := if t then 3.0 * Scalar.pi / 4.0 else Scalar.pi / 4.0
    number (if s then -angle else angle)
  | _, _ => undefined

/-- An infinite side makes the length infinite, even if the other one is undefined. -/
def hypot : Extended α → Extended α → Extended α
  | number x, number y => number (Scalar.hypot x y)
  | infinite _, _ => infinite false
  | _, infinite _ => infinite false
  | _, _ => undefined

def floor : Extended α → ℕ
  | number x => Scalar.floor x
  | _ => 0

def round : Extended α → Extended α
  | number x => number (Scalar.round x)
  | a => a

def remainder : Extended α → Extended α → Extended α
  | number x, number y => if y = 0 then undefined else number (Scalar.remainder x y)
  | number x, infinite _ => number x
  | _, _ => undefined

/-- Place among all results: what is undefined comes last. -/
def rank : Extended α → WithTop (WithBot (WithTop α))
  | number x => (((x : WithTop α) : WithBot (WithTop α)) : WithTop (WithBot (WithTop α)))
  | infinite true => ((⊥ : WithBot (WithTop α)) : WithTop (WithBot (WithTop α)))
  | infinite false => (((⊤ : WithTop α) : WithBot (WithTop α)) : WithTop (WithBot (WithTop α)))
  | undefined => ⊤

/-- Nothing compares with what is undefined. -/
def Defined (a b : Extended α) : Prop := a ≠ undefined ∧ b ≠ undefined

instance (a b : Extended α) : Decidable (Defined a b) :=
  inferInstanceAs (Decidable (a ≠ undefined ∧ b ≠ undefined))

instance : Scalar (Extended α) where
  zero := number 0
  one := number 1
  add := add
  sub a b := add a (neg b)
  mul := mul
  div := div
  neg := neg
  lt a b := Defined a b ∧ rank a < rank b
  le a b := Defined a b ∧ rank a ≤ rank b
  beq a b := decide (Defined a b ∧ a = b)
  ofScientific m s e := number (OfScientific.ofScientific m s e)
  natCast k := number k
  decLt a b := inferInstanceAs (Decidable (Defined a b ∧ rank a < rank b))
  decLe a b := inferInstanceAs (Decidable (Defined a b ∧ rank a ≤ rank b))
  pi := number Scalar.pi
  isNaN a := decide (a = undefined)
  isFinite
    | number _ => true
    | _ => false
  abs := abs
  sqrt := sqrt
  sin := ofNumber Scalar.sin
  cos := ofNumber Scalar.cos
  arcsin := arcsin
  arctan := arctan
  hypot := hypot
  floor := floor
  round := round
  remainder := remainder
  order a b := compare (rank a) (rank b)

end operations

/-! ### Laws -/

variable {α : Type} [ExactScalar α] {a b : Extended α}

theorem lt_def : a < b ↔ Defined a b ∧ rank a < rank b := Iff.rfl

theorem le_def : a ≤ b ↔ Defined a b ∧ rank a ≤ rank b := Iff.rfl

@[simp] theorem isNaN_eq_false : Scalar.isNaN a = false ↔ a ≠ undefined := by
  show decide (a = undefined) = false ↔ _
  simp

theorem isFinite_iff : Scalar.isFinite a = true ↔ ∃ x, a = number x := by
  cases a <;> simp [Scalar.isFinite]

@[simp] theorem isFinite_number (x : α) : Scalar.isFinite (number x) = true := rfl

@[simp] theorem zero_eq : (0 : Extended α) = number 0 := rfl
@[simp] theorem one_eq : (1 : Extended α) = number 1 := rfl
@[simp] theorem natCast_eq (k : ℕ) : (k : Extended α) = number (k : α) := rfl
@[simp] theorem ofScientific_eq (m : ℕ) (s : Bool) (e : ℕ) :
    (OfScientific.ofScientific m s e : Extended α) = number (OfScientific.ofScientific m s e) := rfl

@[simp] theorem number_add (x y : α) : number x + number y = number (x + y) := rfl
@[simp] theorem number_mul (x y : α) : number x * number y = number (x * y) := rfl

@[simp] theorem number_sub (x y : α) : number x - number y = number (x - y) :=
  congrArg number (sub_eq_add_neg x y).symm

theorem number_div (x : α) {y : α} (hy : y ≠ 0) : number x / number y = number (x / y) :=
  if_neg hy

@[simp] theorem number_le (x y : α) : number x ≤ number y ↔ x ≤ y := by
  simp [le_def, Defined, rank]

@[simp] theorem number_lt (x y : α) : number x < number y ↔ x < y := by
  simp [lt_def, Defined, rank]

instance : OrderedScalar (Extended α) where
  lt_iff {a b} := by
    rw [lt_def, le_def, le_def, lt_iff_le_not_ge, Defined, Defined]
    tauto
  le_trans h h' := ⟨⟨h.1.1, h'.1.2⟩, h.2.trans h'.2⟩
  le_or_le ha hb := by
    rw [isNaN_eq_false] at ha hb
    exact (le_total _ _).imp (⟨⟨ha, hb⟩, ·⟩) (⟨⟨hb, ha⟩, ·⟩)
  isNaN_of_le h := ⟨isNaN_eq_false.2 h.1.1, isNaN_eq_false.2 h.1.2⟩
  le_of_order h ha hb :=
    ⟨⟨isNaN_eq_false.1 ha, isNaN_eq_false.1 hb⟩, compare_le_iff_le.1 h⟩
  order_swap a b := by
    show (compare (rank a) (rank b)).swap = compare (rank b) (rank a)
    rw [Std.OrientedOrd.eq_swap, Ordering.swap_swap]
  order_trans h h' :=
    compare_le_iff_le.2 ((compare_le_iff_le.1 h).trans (compare_le_iff_le.1 h'))
  isNaN_sub {a b} ha hb := by
    obtain ⟨y, rfl⟩ := isFinite_iff.1 hb
    rw [isNaN_eq_false] at *
    cases a with
    | number x => simp
    | infinite s => exact fun h => nomatch h
    | undefined => exact absurd rfl ha
  isNaN_of_sub {a b} h := by
    rw [isNaN_eq_false] at *
    rintro rfl
    exact h (by cases b <;> rfl)

end Extended

end TrackFusion
