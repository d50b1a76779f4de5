import CornerPoint.Text.Blank

/-!
Text in single quotes, with blanks other than the space escaped.
-/
namespace CornerPoint.Text

/-- The last `width` hexadecimal digits of `n`. -/
def hex : (width n : Nat) → List Char
  | 0, _ => []
  | width + 1, n => hex width (n / 16) ++ [Nat.digitChar (n % 16)]

/-- A letter for the tabulator and the line ends, and the code point for the other blanks. -/
def escape (c : Char) : List Char :=
  if c == '\t' then ['\\', 't']
  else if c == '\n' then ['\\', 'n']
  else if c == '\r' then ['\\', 'r']
  else if c == ' ' || !isBlank c then [c]
  else if c.toNat < 0x100 then ['\\', 'x'] ++ hex 2 c.toNat
  else ['\\', 'u'] ++ hex 4 c.toNat

/-- For texts without quotes and backslashes. -/
def quoted (text : List Char) : List Char := '\'' :: text.flatMap escape ++ ['\'']

end CornerPoint.Text
