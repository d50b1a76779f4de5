import CornerPoint.Numeral
import CornerPoint.Text.Blank
import CornerPoint.Text.Digit

/-!
Reading numerals. The grammar is that of decimal notation with an optional sign, point and exponent,
together with words for infinity and for no number at all. Two readers admit more: `read?` takes
digits of every script and underscores between digits, and `readField?` is the one for fields of a
form.
-/
namespace CornerPoint.Numeral

def digitsValue (digits : List Char) : Nat :=
  digits.foldl (fun n c => 10 * n + (c.toNat - '0'.toNat)) 0

/-- Whether a minus sign stands in front, and the text after the sign. -/
def splitSign : List Char → Bool × List Char
  | '-' :: rest => (true, rest)
  | '+' :: rest => (false, rest)
  | text => (false, text)

/-- Digits after a point, if there is one, and the text after them. -/
def splitPart : List Char → List Char × List Char
  | '.' :: rest => (rest.takeWhile Char.isDigit, rest.dropWhile Char.isDigit)
  | text => ([], text)

/-- The exponent that ends a numeral: none at all, or a mark, an optional sign and digits. -/
def exponent? : List Char → Option Int
  | [] => some 0
  | mark :: rest =>
    let (negative, digits) := splitSign rest
    if mark.toLower == 'e' && !digits.isEmpty && digits.all Char.isDigit then
      let size : Int := digitsValue digits
      some (if negative then -size else size)
    else none

def decimal? (negative : Bool) (text : List Char) : Option Numeral :=
  let whole := text.takeWhile Char.isDigit
  let (part, rest) := splitPart (text.dropWhile Char.isDigit)
  if whole.isEmpty && part.isEmpty then none
  else
    (exponent? rest).map fun e => .decimal negative (digitsValue (whole ++ part)) (e - part.length)

def word? (negative : Bool) (text : List Char) : Option Numeral :=
  match String.ofList (text.map Char.toLower) with
  | "inf" | "infinity" => some (.infinite negative)
  | "nan" => some .undefined
  | _ => none

/-- The common grammar, with Western digits only. -/
def parse? (text : List Char) : Option Numeral :=
  let (negative, body) := splitSign text
  (word? negative body).or (decimal? negative body)

/-- Remove underscores, each of which has to stand between two digits. -/
def joinDigits? (afterDigit : Bool) : List Char → Option (List Char)
  | [] => some []
  | c :: rest =>
    if c == '_' then
      if afterDigit && (rest.head?.any Char.isDigit) then joinDigits? false rest else none
    else (joinDigits? c.isDigit rest).map (c :: ·)

/-- White space at either end does not count. The information separators are not white space, so
they are refused here even where a text around the numeral takes them for blanks. -/
def read? (text : List Char) : Option Numeral :=
  (joinDigits? false ((Text.trim Text.isWhiteSpace text).map Text.westernDigit)).bind parse?

/-- Remove underscores that stand neither at an end nor beside each other. -/
def dropUnderscores? (text : List Char) : Option (List Char) :=
  let twice := (text.zip text.tail).any fun (c, d) => c == '_' && d == '_'
  if text.head? == some '_' || text.getLast? == some '_' || twice then none
  else some (text.filter (· != '_'))

/-- White space at either end does not count, or else underscores within do not. -/
def readField? (text : List Char) : Option Numeral :=
  (parse? (Text.trim Text.isWhiteSpace text)).or ((dropUnderscores? text).bind parse?)

end CornerPoint.Numeral
