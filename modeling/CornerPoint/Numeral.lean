/-!
Numerals as they are written: a signed decimal, an infinity, or a mark that no number is meant.
A numeral has no arithmetic of its own. It is what readers of text produce and what each kind of
scalar then takes a value from.
-/
namespace CornerPoint

/-- A decimal stands for `± digits · 10 ^ exponent`. The sign is kept apart from the digits, so
that a negative zero stays one. -/
inductive Numeral where
  | decimal (negative : Bool) (digits : Nat) (exponent : Int)
  | infinite (negative : Bool)
  | undefined
  deriving DecidableEq, Repr

namespace Numeral

def ofInt (n : Int) : Numeral := .decimal (decide (n < 0)) n.natAbs 0

/-- The exact value, where there is one. -/
def value? : Numeral → Option Rat
  | .decimal negative digits exponent =>
    let size := (digits : Rat) * (10 : Rat) ^ exponent
    some (if negative then -size else size)
  | .infinite _ | .undefined => none

end Numeral

end CornerPoint
