import CornerPoint.Text.Alphanumeric

/-!
Word characters and the letters that are the same up to case.
-/
namespace CornerPoint.Text

/-- Whether one of the ranges, which ascend, holds `n`. -/
def inRanges (n : Nat) : List (Nat × Nat) → Bool
  | [] => false
  | (first, last) :: rest => if n ≤ last then first ≤ n else inRanges n rest

/-- Letters, numbers and the underscore. -/
def isWord (c : Char) : Bool := c == '_' || inRanges c.toNat alphanumericRanges

/-- What a name may begin with: an unaccented letter or the underscore. -/
def isNameStart (c : Char) : Bool := c.isAlpha || c == '_'

/-- The lower case of an unaccented letter. The long s is an s, and an i with the dot missing or
with a dot on its capital is an i. -/
def fold (c : Char) : Char :=
  if c == '\u017f' then 's' else if c == '\u0131' || c == '\u0130' then 'i' else c.toLower

/-- What follows after `word`, if the text begins with it in whatever case. -/
def afterFolded? : (word text : List Char) → Option (List Char)
  | [], text => some text
  | _ :: _, [] => none
  | w :: word, c :: text => if fold c == w then afterFolded? word text else none

end CornerPoint.Text
