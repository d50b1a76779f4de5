/-!
Decimal grids. The grid of `places` decimals holds the multiples of `10 ^ (-places)`; a negative
number of places gives the multiples of ten, a hundred and so on.
-/
namespace CornerPoint.Decimal

/-- The nearest integer; a half goes to the even neighbour. -/
def roundHalfEven (q : Rat) : Int :=
  let below := q.floor
  let part := q - below
  if part < 1 / 2 then below
  else if 1 / 2 < part then below + 1
  else if below % 2 = 0 then below
  else below + 1

/-- Which multiple of the grid's unit lies nearest to `q`. -/
def nearestMultiple (places : Int) (q : Rat) : Int :=
  roundHalfEven (q * (10 : Rat) ^ places)

/-- The grid point nearest to `q`. -/
def onGrid (places : Int) (q : Rat) : Rat :=
  (nearestMultiple places q : Rat) * (10 : Rat) ^ (-places)

end CornerPoint.Decimal
