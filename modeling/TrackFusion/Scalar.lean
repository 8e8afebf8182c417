/-!
# Scalars

Everything the tracker computes is written over an arbitrary type of scalars, so that one definition
is both run on doubles and reasoned about over the reals.

* `Scalar`: the operations that the tracker needs. There are no laws here: doubles would break them.
* `Scalar.min`, `Scalar.max`, `Scalar.clamp`, `Scalar.modulo`: what is built from the operations.
-/

namespace TrackFusion

/-- A type of numbers to compute with. Comparisons with a number that is not a number are false. -/
class Scalar (α : Type) extends Zero α, One α, Add α, Sub α, Mul α, Div α, Neg α, LT α, LE α,
    BEq α, OfScientific α, NatCast α where
  decLt : DecidableLT α
  decLe : DecidableLE α
  /-- Half the circumference of the unit circle. -/
  pi : α
  /-- Whether this is the result of an undefined operation, such as `0 / 0`. -/
  isNaN : α → Bool
  /-- Whether this is a number and not infinite. -/
  isFinite : α → Bool
  /-- Magnitude, never with a minus sign. -/
  abs : α → α
  sqrt : α → α
  sin : α → α
  cos : α → α
  arcsin : α → α
  /-- `arctan y x` is the angle of the point `(x, y)`. -/
  arctan : α → α → α
  /-- Length of the vector `(x, y)`. -/
  hypot : α → α → α
  /-- Greatest natural number at most the argument; zero if there is none. -/
  floor : α → Nat
  /-- Nearest whole number, halves away from zero. -/
  round : α → α
  /-- `remainder a m` is `a` less the whole multiple of `m` next to it in the direction of zero. -/
  remainder : α → α → α
  /-- A total order that refines `<`; it also tells the two zeros of doubles apart. -/
  order : α → α → Ordering

namespace Scalar

variable {α : Type} [Scalar α]

instance : DecidableLT α := Scalar.decLt
instance : DecidableLE α := Scalar.decLe

/-- The lesser number; an operand that is not a number is passed over. -/
@[inline] def min (a b : α) : α :=
  if isNaN a then b else if isNaN b then a else if b < a then b else a

/-- The greater number; an operand that is not a number is passed over. -/
@[inline] def max (a b : α) : α :=
  if isNaN a then b else if isNaN b then a else if a < b then b else a

/-- The number of `[lo, hi]` nearest to `x`. -/
@[inline] def clamp (lo hi x : α) : α :=
  if x < lo then lo else if hi < x then hi else x

/-- The representative of `a` modulo `m` in `[0, m)`, for a positive `m`. -/
@[inline] def modulo (a m : α) : α :=
  let r := remainder a m
  if r < 0 then r + m else r

/-- An angle given in degrees. -/
@[inline] def degrees (d : α) : α := d * (pi / 180.0)

/-- A whole number as a scalar. -/
@[inline] def ofInt (n : Int) : α :=
  if n < 0 then -(n.natAbs : α) else (n.natAbs : α)

end Scalar

end TrackFusion
