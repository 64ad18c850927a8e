/-!
# Doubles, taken apart

Times, means and percentages are computed in double precision. To print such a
number exactly, or to round it to a whole one, it is taken apart into a sign, a
mantissa and a power of two (`Double.ofFloat`); from then on everything is exact
arithmetic on natural numbers. The magnitude of a finite double is the fraction
`numerator / denominator` of `Magnitude`, one of the two being a power of two or
a multiple of one.

`roundDiv` rounds a quotient to the nearest whole number; what becomes of a half
is said by a `Tie`.
-/

namespace FirmwareReport

/-! ### Rounding a quotient -/

/-- Where a value half way between two neighbours goes. -/
inductive Tie
  /-- To the larger neighbour. -/
  | up
  /-- To the even neighbour. -/
  | toEven
deriving DecidableEq, Repr

/-- The whole number nearest to `n / d`. -/
def roundDiv (tie : Tie) (n d : Nat) : Nat :=
  let q := n / d
  let r := n % d
  if 2 * r < d then q
  else if d < 2 * r then q + 1
  else match tie with
    | .up => q + 1
    | .toEven => q + q % 2

/-! ### The parts of a double -/

/-- A nonnegative binary number `mantissa * 2 ^ exponent`. -/
structure Magnitude where
  mantissa : Nat
  exponent : Int
deriving DecidableEq, Repr

namespace Magnitude

/-- The numerator of the magnitude as a fraction. -/
def numerator (v : Magnitude) : Nat := v.mantissa * Nat.pow 2 v.exponent.toNat

/-- The denominator of the magnitude as a fraction, a power of two. -/
def denominator (v : Magnitude) : Nat := Nat.pow 2 (-v.exponent).toNat

/-- The nearest whole number; a half goes up. -/
def round (v : Magnitude) : Nat := roundDiv .up v.numerator v.denominator

end Magnitude

/-- A double as a number. -/
inductive Double
  /-- Not a number. -/
  | nan
  /-- An infinity. -/
  | infinite (negative : Bool)
  /-- A finite number; zero has a sign too. -/
  | finite (negative : Bool) (magnitude : Magnitude)
deriving DecidableEq, Repr

/-- How many values the fraction field of a double has, two to the power of 52. -/
def fractionLimit : Nat := 4503599627370496

/-- How many values the exponent field of a double has, two to the power of 11. -/
def exponentLimit : Nat := 2048

/-- Take a double apart. A finite one has its fraction field as the mantissa, with
the leading one that is not stored in front of it unless the number is subnormal. -/
def Double.ofFloat (x : Float) : Double :=
  let bits := x.toBits.toNat
  let negative := bits / (exponentLimit * fractionLimit) == 1
  let biased : Nat := bits / fractionLimit % exponentLimit
  let fraction := bits % fractionLimit
  if biased = exponentLimit - 1 then
    if fraction = 0 then .infinite negative else .nan
  else if biased = 0 then .finite negative ⟨fraction, -1074⟩
  else .finite negative ⟨fractionLimit + fraction, (biased : Int) - 1075⟩

/-- The whole number nearest to a positive finite double, a half going up; all other
doubles count as zero. -/
def nearestNat (x : Float) : Nat :=
  match Double.ofFloat x with
  | .finite false magnitude => magnitude.round
  | _ => 0

end FirmwareReport
