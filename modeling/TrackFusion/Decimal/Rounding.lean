import TrackFusion.Binary64

/-!
# Rounding to decimal places

* `roundDiv`: the natural number nearest to a fraction, with a rule for halves.
* `fixed`: a double with a set number of places after the point, rounded from its exact value.
-/

namespace TrackFusion.Decimal

/-- Which neighbour a number halfway between two goes to. -/
inductive Tie where
  | even
  | up
  deriving DecidableEq, Repr

/-- The natural number nearest to `num / den`. -/
def roundDiv (tie : Tie) (num den : Nat) : Nat :=
  let q := num / den
  let r := num % den
  if 2 * r < den then q
  else if den < 2 * r then q + 1
  else match tie with
    | .even => q + q % 2
    | .up => q + 1

/-- `mant * 2 ^ exp` in units of `10 ^ -places`, rounded with halves to even. -/
def inUnits (places : Nat) (mant : Nat) (exp : Int) : Nat :=
  let n := mant * Nat.pow 10 places
  if 0 ≤ exp then n * Nat.pow 2 exp.toNat else roundDiv .even n (Nat.pow 2 (-exp).toNat)

/-- Decimal digits of `n`, at least `width` of them. -/
def digits (width n : Nat) : List Char :=
  let ds := Nat.toDigits 10 n
  List.replicate (width - ds.length) '0' ++ ds

/-- The text of `n` units of `10 ^ -places`. -/
def pointed (places n : Nat) : String :=
  let ds := digits (places + 1) n
  let whole := ds.take (ds.length - places)
  if places = 0 then String.ofList whole
  else String.ofList (whole ++ '.' :: ds.drop (ds.length - places))

/-- A double with `places` digits after the point. The sign of a number that rounds to zero, and of
a negative zero, is kept. -/
def fixed (places : Nat) (x : Float) : String :=
  match Binary64.parts x with
  | .nan => "NaN"
  | .infinite neg => if neg then "-inf" else "inf"
  | .finite neg mant exp =>
    (if neg then "-" else "") ++ pointed places (inUnits places mant exp)

end TrackFusion.Decimal
