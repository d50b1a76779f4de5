import CornerPoint.Decimal.Grid

/-!
Decimal text with a fixed number of places, and the same text without the zeros that add nothing.
-/
namespace CornerPoint.Decimal

def digits (n : Nat) : List Char := Nat.toDigits 10 n

/-- The digits of `n`, with zeros in front up to the given width. -/
def padded (width n : Nat) : List Char :=
  List.replicate (width - (digits n).length) '0' ++ digits n

/-- The nearest decimal with that many places, a half going to the even neighbour. Zero has no
sign, and there is no point without places. -/
def fixed (places : Nat) (q : Rat) : List Char :=
  let multiple := nearestMultiple places q
  let unit := Nat.pow 10 places
  let whole := multiple.natAbs / unit
  let part := multiple.natAbs % unit
  (if multiple < 0 then ['-'] else []) ++ digits whole ++
    (if places = 0 then [] else '.' :: padded places part)

def stripEnd (c : Char) (text : List Char) : List Char :=
  (text.reverse.dropWhile (· == c)).reverse

/-- Without zeros at the end, and without a point at the end. -/
def trimmed (places : Nat) (q : Rat) : List Char :=
  stripEnd '.' (stripEnd '0' (fixed places q))

end CornerPoint.Decimal
