import CornerPoint.Decimal.Grid
import CornerPoint.Scalar

/-!
Double precision: `Float` as a scalar. Its operations are those of the machine; only the passage
between a binary number and exact values is spelled out here.
-/
namespace CornerPoint.Binary64

/-- One more than the largest fraction: there are 52 fraction bits. -/
def fractionLimit : Nat := 0x10000000000000

/-- One more than the largest exponent: there are 11 exponent bits. -/
def exponentLimit : Nat := 0x800

def isNegative (x : Float) : Bool := 0x8000000000000000 ≤ x.toBits.toNat

/-- The exact value of a finite number, read off its sign, exponent and fraction bits. -/
def value? (x : Float) : Option Rat :=
  let fraction := x.toBits.toNat % fractionLimit
  let exponent := x.toBits.toNat / fractionLimit % exponentLimit
  if exponent + 1 = exponentLimit then none
  else
    let significand := if exponent = 0 then fraction else fractionLimit + fraction
    let power : Int := if exponent = 0 then -1074 else (exponent : Int) - 1075
    let size := (significand : Rat) * (2 : Rat) ^ power
    some (if isNegative x then -size else size)

/-- The number nearest to `digits · 10 ^ exponent`, infinite past the largest. An exponent far
outside the range is settled without working the power out: a positive multiple of `10 ^ 401` is
out of range, and below `10 ^ (-400)` there is only zero. -/
def ofDecimal (digits : Nat) (exponent : Int) : Float :=
  if digits = 0 then 0.0
  else if 400 < exponent then 1.0 / 0.0
  else if exponent < -401 - (digits.log2 : Int) then 0.0
  else OfScientific.ofScientific digits (decide (exponent < 0)) exponent.natAbs

def ofNumeral : Numeral → Float
  | .decimal negative digits exponent =>
    let size := ofDecimal digits exponent
    if negative then -size else size
  | .infinite negative => if negative then -1.0 / 0.0 else 1.0 / 0.0
  | .undefined => 0.0 / 0.0

/-- Beyond 400 places on either side the result no longer depends on the number of places: such a
grid holds every number there is, or has all but zero out of range. -/
def roundTo? (places : Int) (x : Float) : Option Float :=
  match value? x with
  | none => some x
  | some q =>
    let places := max (-400) (min 400 places)
    let multiple := Decimal.nearestMultiple places q
    let rounded := ofNumeral (.decimal (decide (multiple < 0)) multiple.natAbs (-places))
    if rounded.isInf then none else some rounded

end CornerPoint.Binary64

namespace CornerPoint

instance : Scalar Float where
  zero := 0.0
  one := 1.0
  abs := Float.abs
  value? := Binary64.value?
  ofNumeral? n := some (Binary64.ofNumeral n)
  roundTo? := Binary64.roundTo?

end CornerPoint
