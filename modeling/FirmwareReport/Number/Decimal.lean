import FirmwareReport.Number.Double

/-!
# Doubles as decimal texts

Two ways to write a double:

* `fixedPlaces places x`: its exact binary value rounded to a given number of
  places, ties to even;
* `Style.write style x`: the **shortest digits that read back** as the same
  double, laid out as a `Style` says.

For the second, the reals that round to a finite double form an interval around
it (`Neighbourhood`), closed when the mantissa is even. Decimal grids of one, two,
three … significant digits are tried in turn. On each grid only the two points
next to the value can lie in the interval first, so these two are tested, in exact
arithmetic; the first grid with a hit gives the digits, and of two hits the
nearer one is taken. Seventeen digits always suffice.
-/

namespace FirmwareReport

/-! ### Placing the point -/

/-- A run of zeros. -/
def zeros (n : Nat) : List Char :=
  List.replicate n '0'

/-- Digits with the point placed so that the value is `0.digits * 10 ^ point`, filled
up with zeros where the point lies outside the digits; `whole` follows a number
without a fraction. -/
def pointAt (point : Int) (whole digits : List Char) : List Char :=
  if point ≤ 0 then ['0', '.'] ++ zeros (-point).toNat ++ digits
  else
    let places := point.toNat
    if digits.length ≤ places then digits ++ zeros (places - digits.length) ++ whole
    else digits.take places ++ ['.'] ++ digits.drop places

/-- A minus sign for negative numbers. -/
def signText (negative : Bool) : List Char :=
  if negative then ['-'] else []

/-! ### A given number of places -/

/-- A double with exactly the given number of decimal places, at least one: the exact value, ties
to even, never with an exponent. -/
def fixedPlaces (places : Nat) (x : Float) : String :=
  match Double.ofFloat x with
  | .nan => "NaN"
  | .infinite negative => String.ofList (signText negative ++ "inf".toList)
  | .finite negative v =>
    let scaled := roundDiv .toEven (v.numerator * Nat.pow 10 places) v.denominator
    let digits := Nat.toDigits 10 scaled
    let padded := zeros (places + 1 - digits.length) ++ digits
    let whole := padded.length - places
    String.ofList
      (signText negative ++ padded.take whole ++ ['.'] ++ padded.drop whole)

/-! ### The shortest digits that read back -/

/-- The reals that round to a positive double, in units of a quarter of its last
place: from `low` to `high` around `value`, the ends included when `closed`. -/
structure Neighbourhood where
  low : Nat
  value : Nat
  high : Nat
  /-- The unit is this power of two. -/
  exponent : Int
  closed : Bool

/-- The neighbourhood of a positive magnitude. Below a power of two the doubles lie
twice as dense, so the lower half of the interval is half as wide there. -/
def Magnitude.neighbourhood (v : Magnitude) : Neighbourhood where
  low := if v.mantissa = fractionLimit ∧ -1074 < v.exponent then 4 * v.mantissa - 1
    else 4 * v.mantissa - 2
  value := 4 * v.mantissa
  high := 4 * v.mantissa + 2
  exponent := v.exponent - 2
  closed := v.mantissa % 2 = 0

namespace Neighbourhood

/-- The factor that brings units of the neighbourhood onto the common scale with
the decimal grid of step `10 ^ k`. -/
def unitFactor (n : Neighbourhood) (k : Int) : Nat :=
  Nat.pow 2 n.exponent.toNat * Nat.pow 10 (-k).toNat

/-- The factor that brings points of the decimal grid of step `10 ^ k` onto that scale. -/
def gridFactor (n : Neighbourhood) (k : Int) : Nat :=
  Nat.pow 10 k.toNat * Nat.pow 2 (-n.exponent).toNat

/-- Whether `c * 10 ^ k` reads back as the double. -/
def holds (n : Neighbourhood) (k : Int) (c : Nat) : Bool :=
  let low := n.low * n.unitFactor k
  let high := n.high * n.unitFactor k
  let point := c * n.gridFactor k
  if n.closed then low ≤ point && point ≤ high else low < point && point < high

/-- How many digits the value has in front of the point; zero or less where the
digits begin behind it. -/
def magnitudeOf (n : Neighbourhood) : Int :=
  let places := 340
  let scaled := n.value * n.unitFactor (-places) / n.gridFactor (-places)
  ((Nat.toDigits 10 scaled).length : Int) - places

/-- The point of the grid of step `10 ^ k` that reads back and is nearest to the
value, if one of the two points next to the value reads back. -/
def onGrid? (n : Neighbourhood) (tie : Tie) (k : Int) : Option Nat :=
  let num := n.value * n.unitFactor k
  let den := n.gridFactor k
  let below := num / den
  match n.holds k below, n.holds k (below + 1) with
  | true, true => some (roundDiv tie num den)
  | true, false => some below
  | false, true => some (below + 1)
  | false, false => none

/-- The first grid with a hit, over grids of ever more digits. -/
def firstGrid? (n : Neighbourhood) (tie : Tie) (magnitude : Int) : List Nat → Option (Nat × Int)
  | [] => none
  | count :: counts =>
    let k := magnitude - count
    match n.onGrid? tie k with
    | some c => some (c, k)
    | none => firstGrid? n tie magnitude counts

/-- **The shortest digits that read back**, without trailing zeros, and the place
of the point: the double is read from `0.digits * 10 ^ point`. -/
def shortest (n : Neighbourhood) (tie : Tie) : List Char × Int :=
  match n.firstGrid? tie n.magnitudeOf (List.range' 1 17) with
  | some (c, k) =>
    let digits := Nat.toDigits 10 c
    ((digits.reverse.dropWhile (· == '0')).reverse, k + digits.length)
  | none => ([], 0)

end Neighbourhood

/-! ### Layout -/

/-- How the shortest digits of a double are laid out. -/
structure Style where
  /-- Where a tie between two equally short texts goes. -/
  tie : Tie
  /-- Decimal exponents of the leading digit that are written positionally; `none` for all. -/
  positional : Option (Int × Int)
  /-- What follows a number without a fraction. -/
  whole : List Char
  /-- The text of what is not a number. -/
  nan : String
  /-- The text of infinity, with a sign of its own. -/
  infinity : Bool → String

/-- Scientific notation: one digit, the others behind a point, and a signed exponent. -/
def scientific (exponent : Int) (digits : List Char) : List Char :=
  let mantissa := match digits with
    | d :: [] => [d]
    | d :: more => d :: '.' :: more
    | [] => []
  let sign := if exponent < 0 then '-' else '+'
  mantissa ++ ['e', sign] ++ Nat.toDigits 10 exponent.natAbs

namespace Style

/-- Positive magnitudes in a style. -/
def writeMagnitude (style : Style) (v : Magnitude) : List Char :=
  let (digits, point) := v.neighbourhood.shortest style.tie
  match style.positional with
  | none => pointAt point style.whole digits
  | some (least, greatest) =>
    if least ≤ point - 1 ∧ point - 1 ≤ greatest then pointAt point style.whole digits
    else scientific (point - 1) digits

/-- A double in a style. -/
def write (style : Style) (x : Float) : String :=
  match Double.ofFloat x with
  | .nan => style.nan
  | .infinite negative => style.infinity negative
  | .finite negative v =>
    let magnitude := if v.mantissa = 0 then '0' :: style.whole else style.writeMagnitude v
    String.ofList (signText negative ++ magnitude)

/-- **Plain numbers**, for people: never an exponent, no fraction for whole numbers. -/
def plain : Style where
  tie := .up
  positional := none
  whole := []
  nan := "NaN"
  infinity negative := if negative then "-inf" else "inf"

/-- **Numbers of a dataset**: a whole number shows `.0`, and decimal exponents outside
−5 … 15 are written out. What is no finite number has no text there and is `null`. -/
def dataset : Style where
  tie := .toEven
  positional := some (-5, 15)
  whole := ['.', '0']
  nan := "null"
  infinity _ := "null"

end Style

end FirmwareReport
