import CornerPoint.Decimal.Fixed
import CornerPoint.Scalar.Binary64

/-!
The shortest decimal that reads back as a given number. Grids are tried from coarse to fine, and on
each of them the two neighbours of the number.
-/
namespace CornerPoint.Decimal

/-- The exponent of the leading digit of a positive number. -/
def magnitude (q : Rat) : Int :=
  let e : Int := ((digits q.num.natAbs).length : Int) - (digits q.den).length
  if (10 : Rat) ^ e ≤ q then e else e - 1

/-- The nearer of those neighbours of `q` among the multiples of `10 ^ exponent` that read back. -/
def neighbour? (readsBack : Nat → Int → Bool) (q : Rat) (exponent : Int) : Option Nat :=
  let scaled := q * (10 : Rat) ^ (-exponent)
  let below := scaled.floor.toNat
  let above := below + 1
  let belowIsNearer := scaled - (below : Rat) ≤ (above : Rat) - scaled
  if readsBack below exponent && (belowIsNearer || !readsBack above exponent) then some below
  else if readsBack above exponent then some above
  else none

/-- Digits and exponent of the shortest decimal for a positive number. Seventeen digits always
read back. -/
def shortest (x : Float) (q : Rat) : Nat × Int :=
  let readsBack (digits : Nat) (exponent : Int) : Bool := Binary64.ofDecimal digits exponent == x
  let found := (List.range 17).findSome? fun (k : Nat) =>
    (neighbour? readsBack q (magnitude q - (k : Int))).map (·, magnitude q - (k : Int))
  found.getD (0, 0)

/-- From `10 ^ 16` on and below `10 ^ (-4)` a power of ten is split off, whose exponent has a sign
and at least two digits. Otherwise there is always a point. -/
def written (digits : List Char) (exponent : Int) : List Char :=
  let point : Int := (digits.length : Int) + exponent
  let zeros (n : Int) : List Char := List.replicate n.toNat '0'
  if -4 < point && point ≤ 0 then '0' :: '.' :: zeros (-point) ++ digits
  else if 0 < point && point ≤ 16 then
    let padded := digits ++ zeros exponent
    let part := padded.drop point.toNat
    padded.take point.toNat ++ '.' :: (if part.isEmpty then ['0'] else part)
  else
    let part := digits.drop 1
    let power := point - 1
    digits.take 1 ++ (if part.isEmpty then [] else '.' :: part) ++
      'e' :: (if power < 0 then '-' else '+') :: padded 2 power.natAbs

def number (x : Float) : String :=
  let minus := if Binary64.isNegative x then ['-'] else []
  match Binary64.value? x.abs with
  | none => if x.isNaN then "NaN" else String.ofList (minus ++ "Infinity".toList)
  | some q =>
    if q = 0 then String.ofList (minus ++ ['0', '.', '0'])
    else
      let (size, exponent) := shortest x.abs q
      String.ofList (minus ++ written (digits size) exponent)

end CornerPoint.Decimal
