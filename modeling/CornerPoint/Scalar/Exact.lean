import CornerPoint.Decimal.Grid
import CornerPoint.Scalar

/-!
Exact arithmetic: rational numbers are scalars, each of them finite, and rounding to a grid never
leaves their range.
-/
namespace CornerPoint

instance : Scalar Rat where
  zero := 0
  one := 1
  abs x := if x < 0 then -x else x
  value? := some
  ofNumeral? := Numeral.value?
  roundTo? places x := some (Decimal.onGrid places x)

namespace Scalar

@[simp] theorem isFinite_rat (q : Rat) : isFinite q = true := rfl

@[simp] theorem value?_rat (q : Rat) : value? q = some q := rfl

@[simp] theorem roundTo?_rat (places : Int) (q : Rat) :
    roundTo? places q = some (Decimal.onGrid places q) := rfl

end Scalar

end CornerPoint
