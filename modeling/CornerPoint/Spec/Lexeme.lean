import CornerPoint.Text.Blank
import CornerPoint.Text.Cut
import CornerPoint.Text.Digit
import CornerPoint.Text.Word

/-!
The smallest parts of a specification, as cuts of its text.
-/
namespace CornerPoint.Spec

open Text

def sign : Cut := Cut.one fun c => c == '+' || c == '-'

def minus : Cut := Cut.one (· == '-')

def point : Cut := Cut.one (· == '.')

def blanks : Cut := Cut.many isBlank

def digits : Cut := Cut.many isDigit

def wordRest : Cut := Cut.many isWord

/-- A point and the digits after it; a point without digits is left alone. -/
def fraction : Cut := (point ++ digits).onlyIf fun taken => 2 ≤ taken.length

/-- What may stand before the name in a term: a sign, blanks, digits, a point, digits. -/
def coefficient : Cut := sign ++ blanks ++ digits ++ point ++ digits

end CornerPoint.Spec
