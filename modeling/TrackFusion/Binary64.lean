import TrackFusion.Scalar

/-!
# Doubles

The parts of a double, and doubles as scalars.

* `Binary64.parts`: a double as `± mant * 2 ^ exp`, an infinity or no number.
* `Binary64.remainder`: the remainder of a division, exact since it is taken on integers.
* `Binary64.order`: the total order of doubles, `-0.0` just before `0.0`.
-/

namespace TrackFusion

namespace Binary64

/-- A double taken apart. A finite one is `± mant * 2 ^ exp`, with a minus sign if `neg`. -/
inductive Parts where
  | nan
  | infinite (neg : Bool)
  | finite (neg : Bool) (mant : Nat) (exp : Int)
  deriving Repr, DecidableEq

/-- Reads the sign, the exponent and the significand off the 64 bits. -/
def parts (x : Float) : Parts :=
  let bits : Nat := x.toBits.toNat
  let neg := decide (Nat.pow 2 63 ≤ bits)
  let biased : Nat := bits / Nat.pow 2 52 % Nat.pow 2 11
  let fraction : Nat := bits % Nat.pow 2 52
  if biased = 2047 then
    if fraction = 0 then .infinite neg else .nan
  -- subnormal: the leading bit is not implied
  else if biased = 0 then .finite neg fraction (-1074)
  else .finite neg (Nat.pow 2 52 + fraction) ((biased : Int) - 1075)

def nan : Float := 0.0 / 0.0

/-- Remainder of `x / y` with the sign of `x`. Both are integers in units of the smaller of the two
last places, and so is the remainder, which has no more digits than either. -/
def remainder (x y : Float) : Float :=
  match parts x, parts y with
  | .finite neg m e, .finite _ n f =>
    if n = 0 then nan
    else
      let g := min e f
      let r := m * Nat.pow 2 (e - g).toNat % (n * Nat.pow 2 (f - g).toNat)
      let v := (Float.ofNat r).scaleB g
      if neg then -v else v
  | .finite .., .infinite _ => x
  | _, _ => nan

/-- Place of a double in the total order: the bits count up from zero, and down below it. -/
def rank (x : Float) : Int :=
  let bits : Nat := x.toBits.toNat
  if bits < Nat.pow 2 63 then bits else -((bits - Nat.pow 2 63 : Nat) : Int) - 1

def order (x y : Float) : Ordering := compare (rank x) (rank y)

/-- `h ^ 2 - a ^ 2 - b ^ 2` for `b ≤ a`, without cancellation: what rounding left over in `h`. -/
def residual (a b h : Float) : Float :=
  if h ≤ 2.0 * b then
    let d := h - b
    a * (2.0 * d - a) + (d - 2.0 * (a - b)) * d
  else
    let d := h - a
    2.0 * d * (a - 2.0 * b) + ((4.0 * d - b) * b + d * d)

/-- Numbers above this are too big to be squared. -/
def big : Float := 1e150

/-- The squares of numbers below this lose digits. -/
def small : Float := 1e-140

def bigUnit : Float := (1.0 : Float).scaleB 600

def smallUnit : Float := (1.0 : Float).scaleB (-600)

/-- The power of two that a number is divided by to be squared. -/
def unit (a : Float) : Float := if big < a then bigUnit else if a < small then smallUnit else 1.0

/-- Length of a vector. Dividing by a power of two first keeps the squares in range, and one
correcting step makes up for the rounding of the squares. Taking the magnitude in the end changes
nothing; it shows that no length is negative. -/
def hypot (x y : Float) : Float :=
  let a := if x.abs < y.abs then y.abs else x.abs
  let b := if x.abs < y.abs then x.abs else y.abs
  if a.isInf || b.isInf then 1.0 / 0.0
  else if b == 0.0 then a
  else
    let u := unit a
    let a := a / u
    let b := b / u
    let h := Float.sqrt (a * a + b * b)
    ((h - residual a b h / (2.0 * h)) * u).abs

end Binary64

instance : Scalar Float where
  zero := 0.0
  one := 1.0
  natCast := Float.ofNat
  decLt := inferInstance
  decLe := inferInstance
  pi := 3.141592653589793
  isNaN := Float.isNaN
  isFinite := Float.isFinite
  abs := Float.abs
  sqrt := Float.sqrt
  sin := Float.sin
  cos := Float.cos
  arcsin := Float.asin
  arctan := Float.atan2
  hypot := Binary64.hypot
  floor x := x.floor.toUInt64.toNat
  round := Float.round
  remainder := Binary64.remainder
  order := Binary64.order

end TrackFusion
