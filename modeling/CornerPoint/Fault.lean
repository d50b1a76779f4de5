/-!
What can stop a computation on rows, points and numbers that were entered by hand.
-/
namespace CornerPoint

/-- The three numbers of a row. -/
inductive Coefficient where
  | a
  | b
  | c
  deriving DecidableEq, Repr

namespace Coefficient

def label : Coefficient → String
  | .a => "a"
  | .b => "b"
  | .c => "c"

end Coefficient

inductive Fault where
  /-- A line or half-plane needs coefficients that were left out. -/
  | missing (coefficients : List Coefficient)
  /-- Arithmetic reached a coefficient that was left out. -/
  | blankOperand
  /-- Two parallel lines were taken for crossing ones. -/
  | zeroDivision
  /-- There is no vertex to choose from. -/
  | nothingToSelect
  /-- A rounded value lies beyond the largest number. -/
  | tooLarge
  deriving DecidableEq, Repr

namespace Fault

def message : Fault → String
  | .missing coefficients => "Missing: " ++ ", ".intercalate (coefficients.map (·.label))
  | .blankOperand => "A coefficient is missing."
  | .zeroDivision => "float division by zero"
  | .nothingToSelect => "Cannot select an optimum from an empty vertex set."
  | .tooLarge => "rounded value too large to represent"

end Fault

end CornerPoint
