import TrackFusion.Decimal.Layout

/-!
# Number literals

* `Json.Literal`: the parts of a number as JSON writes it.
* `Literal.toFloat?`: the double it stands for, if it is not too big.
* `Json.Number`: scalars that have a JSON form.
-/

namespace TrackFusion.Json

/-- A number literal. The digits are those of the text. -/
structure Literal where
  neg : Bool
  whole : List Nat
  fraction : Option (List Nat)
  exponent : Option Int
  deriving DecidableEq, Repr

namespace Literal

/-- Digits are gathered as long as the number they form fits into 64 bits. -/
def gather (acc : Nat) : List Nat → Nat × List Nat
  | [] => (acc, [])
  | d :: ds => if 10 * acc + d < Nat.pow 2 64 then gather (10 * acc + d) ds else (acc, d :: ds)

/-- The digits that count, as one natural number, and the power of ten it is to be scaled by. A
digit before the point that does not fit, and all behind it, still scale the number. -/
def significand (l : Literal) : Nat × Int :=
  let (m, left) := gather 0 l.whole
  let ds := l.fraction.getD []
  let (n, dropped) := gather m ds
  (n, (left.length : Int) + dropped.length - ds.length)

/-- `x * 10 ^ e` by one multiplication or division, after as many divisions by `10 ^ 308` as bring
the exponent in range. Nothing if that is too big. -/
def scale (x : Float) (e : Int) : Option Float :=
  if 0 ≤ e then
    if 308 < e then if x == 0.0 then some x else none
    else
      let y := x * Float.ofScientific 1 false e.toNat
      if y.isInf then none else some y
  else divide (-e).toNat x
where
  /-- Divides by `10 ^ n`. -/
  divide (n : Nat) (x : Float) : Option Float :=
    if n ≤ 308 then some (x / Float.ofScientific 1 false n)
    else if x == 0.0 then some x
    else divide (n - 308) (x / 1e308)
  termination_by n

/-- The double that a literal stands for; nothing if it is too big for one. -/
def toFloat? (l : Literal) : Option Float :=
  let (m, shift) := l.significand
  let e := l.exponent.getD 0
  let x :=
    if m = 0 then some 0.0
    else scale (Float.ofNat m) (shift + e)
  x.map fun x => if l.neg then -x else x

/-- The natural number that a literal without sign, point and exponent stands for. -/
def toNat? (l : Literal) : Option Nat :=
  if l.neg || l.fraction.isSome || l.exponent.isSome then none
  else some (l.whole.foldl (fun acc d => 10 * acc + d) 0)

end Literal

/-- Scalars that can be written to and read from JSON. -/
class Number (α : Type) where
  /-- The literal of a number. -/
  text : α → String
  /-- The text of a number inside a message. -/
  plain : α → String
  /-- The number of a literal; nothing if it is too big. -/
  ofLiteral? : Literal → Option α

/-- JSON numbers have a digit after the point or an exponent, and are read back by their shortest
digits. Only numbers below `10 ^ -5` and from `10 ^ 16` on have an exponent. -/
def numberLayout : Decimal.Layout where
  minPlace := some (-5)
  maxPlace := some 15
  whole := ".0"
  plus := "+"
  tie := .even
  nan := "null"
  infinity := "null"

instance : Number Float where
  text x := if x.isFinite then numberLayout.render x else "null"
  plain x := Decimal.Layout.plain.render x
  ofLiteral? := Literal.toFloat?

end TrackFusion.Json
