/-!
White space, and texts cut and trimmed at it.
-/
namespace CornerPoint.Text

/-- The Unicode property of that name. -/
def isWhiteSpace (c : Char) : Bool :=
  let n := c.toNat
  (0x9 ≤ n && n ≤ 0xd) || n == 0x20 || n == 0x85 || n == 0xa0 || n == 0x1680 ||
    (0x2000 ≤ n && n ≤ 0x200a) || n == 0x2028 || n == 0x2029 || n == 0x202f || n == 0x205f ||
    n == 0x3000

/-- White space and the four information separators. -/
def isBlank (c : Char) : Bool :=
  isWhiteSpace c || (0x1c ≤ c.toNat && c.toNat ≤ 0x1f)

/-- Without the characters of a class at either end. -/
def trim (p : Char → Bool) (text : List Char) : List Char :=
  ((text.dropWhile p).reverse.dropWhile p).reverse

def strip (text : List Char) : List Char := trim isBlank text

/-- Every run of blanks becomes one space, and none is left at either end. The flags tell whether
a character has been written and whether a space is owed before the next one. -/
def collapseFrom (started owed : Bool) : List Char → List Char
  | [] => []
  | c :: rest =>
    if isBlank c then collapseFrom started started rest
    else if owed then ' ' :: c :: collapseFrom true false rest
    else c :: collapseFrom true false rest

def collapse (text : List Char) : List Char := collapseFrom false false text

/-- Without spaces. Other blanks stay. -/
def withoutSpaces (text : List Char) : List Char := text.filter (· != ' ')

end CornerPoint.Text
