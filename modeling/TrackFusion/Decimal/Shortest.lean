import TrackFusion.Decimal.Rounding

/-!
# Shortest decimals

The fewest digits that read back as a given double.

* `Interval`: the numbers that round to a double, in exact integer arithmetic.
* `shortest`: the decimal with the fewest digits in that interval, and of those the nearest.
-/

namespace TrackFusion.Decimal

/-- A positive double and the numbers that round to it, in a common unit. The double is
`value * num / den` times a power of ten and so are the ends; the ends belong to the interval when
the significand of the double is even. -/
structure Interval where
  low : Nat
  value : Nat
  high : Nat
  closed : Bool
  deriving Repr

/-- The interval of `mant * 2 ^ exp`, in units of `2 ^ (exp - 2)`. The gap below a power of two is
half of the gap above it. -/
def interval (mant : Nat) (exp : Int) : Interval where
  low := if mant = Nat.pow 2 52 ∧ -1074 < exp then 4 * mant - 1 else 4 * mant - 2
  value := 4 * mant
  high := 4 * mant + 2
  closed := mant % 2 = 0

/-- Whether `d` grid steps lie in the interval, if a step is `p` and a unit of the interval `q`. -/
def Interval.contains (i : Interval) (p q d : Nat) : Bool :=
  if i.closed then decide (i.low * q ≤ d * p ∧ d * p ≤ i.high * q)
  else decide (i.low * q < d * p ∧ d * p < i.high * q)

/-- The multiple of the grid step in the interval that is nearest to the double, if any is. One of
the two neighbours of the double is in the interval as soon as any multiple is. -/
def Interval.nearest? (tie : Tie) (i : Interval) (p q : Nat) : Option Nat :=
  let d := i.value * q / p
  match i.contains p q d, i.contains p q (d + 1) with
  | true, true => some (roundDiv tie (i.value * q) p)
  | true, false => some d
  | false, true => some (d + 1)
  | false, false => none

/-- The numerators of `10 ^ k` and of `2 ^ e` over a common denominator. -/
def commonScale (k e : Int) : Nat × Nat :=
  (Nat.pow 10 k.toNat * Nat.pow 2 (-e).toNat, Nat.pow 10 (-k).toNat * Nat.pow 2 e.toNat)

/-- Place of the leading digit of `mant * 2 ^ exp`: the greatest `k` with `10 ^ k` at most that. -/
def leadingPlace (mant : Nat) (exp : Int) : Int :=
  let num := mant * Nat.pow 2 exp.toNat
  let den := Nat.pow 2 (-exp).toNat
  if den ≤ num then ((Nat.toDigits 10 (num / den)).length : Int) - 1
  else -((Nat.toDigits 10 ((den - 1) / num)).length : Int)

/-- Tries the grids `10 ^ k`, `10 ^ (k - 1)`, … in turn. -/
def firstHit (tie : Tie) (i : Interval) (exp : Int) : (grids : Nat) → (k : Int) → Option (Nat × Int)
  | 0, _ => none
  | grids + 1, k =>
    let (p, q) := commonScale k (exp - 2)
    match i.nearest? tie p q with
    | some d => some (d, k)
    | none => firstHit tie i exp grids (k - 1)

/-- `d * 10 ^ k` without the zeros at the end of `d`. -/
def dropZeros (d : Nat) (k : Int) : Nat × Int :=
  let zeros := ((Nat.toDigits 10 d).reverse.takeWhile (· == '0')).length
  (d / Nat.pow 10 zeros, k + zeros)

/-- The decimal `d * 10 ^ k` with the fewest digits that rounds to `mant * 2 ^ exp`. Seventeen
digits tell all doubles apart. -/
def shortest (tie : Tie) (mant : Nat) (exp : Int) : Nat × Int :=
  match firstHit tie (interval mant exp) exp 17 (leadingPlace mant exp) with
  | some (d, k) => dropZeros d k
  | none => (mant * Nat.pow 2 exp.toNat, 0)

end TrackFusion.Decimal
