import TrackFusion.Decimal.Shortest

/-!
# Layout of decimals

Where the point, the zeros and the exponent of a shortest decimal go.

* `Layout`: the decisions of a number format.
* `Layout.render`: a double in such a format.
-/

namespace TrackFusion.Decimal

/-- The decisions of a number format. The place of a number is the exponent of its leading digit. -/
structure Layout where
  /-- Numbers with a lower place are written with an exponent. -/
  minPlace : Option Int
  /-- Numbers with a greater place are written with an exponent. -/
  maxPlace : Option Int
  /-- Follows the digits of a whole number. -/
  whole : String
  /-- Precedes an exponent that is not negative. -/
  plus : String
  tie : Tie
  nan : String
  infinity : String

namespace Layout

/-- Digits with the point after place zero, filled up with zeros on either side. -/
def positional (l : Layout) (ds : List Char) (k : Int) : String :=
  if 0 ≤ k then String.ofList (ds ++ List.replicate k.toNat '0') ++ l.whole
  else
    let places := (-k).toNat
    let ds := List.replicate (places + 1 - ds.length) '0' ++ ds
    String.ofList (ds.take (ds.length - places) ++ '.' :: ds.drop (ds.length - places))

/-- One digit before the point and an exponent of ten. -/
def scientific (l : Layout) (ds : List Char) (k : Int) : String :=
  let place := k + ds.length - 1
  let point := if ds.length ≤ 1 then [] else ['.']
  String.ofList (ds.take 1 ++ point ++ ds.drop 1) ++ "e"
    ++ (if place < 0 then "-" else l.plus) ++ toString place.natAbs

/-- A double in the format, by its shortest decimal. -/
def render (l : Layout) (x : Float) : String :=
  match Binary64.parts x with
  | .nan => l.nan
  | .infinite neg => (if neg then "-" else "") ++ l.infinity
  | .finite neg mant exp =>
    let (d, k) := if mant = 0 then (0, 0) else shortest l.tie mant exp
    let ds := Nat.toDigits 10 d
    let place := k + ds.length - 1
    (if neg then "-" else "") ++
      if l.minPlace.any (place < ·) || l.maxPlace.any (· < place) then l.scientific ds k
      else l.positional ds k

/-- Numbers inside a message: never with an exponent, halves go up. -/
def plain : Layout where
  minPlace := none
  maxPlace := none
  whole := ""
  plus := ""
  tie := .up
  nan := "NaN"
  infinity := "inf"

end Layout

end TrackFusion.Decimal
