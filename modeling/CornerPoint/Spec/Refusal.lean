import CornerPoint.Text.Quoted

/-!
Why a specification is refused.
-/
namespace CornerPoint.Spec

inductive Refusal where
  | empty
  | noSense
  | noObjective
  | noComparator (segment : List Char)
  | incomplete (segment : List Char)
  | unknownVariable (name : List Char)
  | badNumber (text : List Char)
  | badBound (text : List Char)
  deriving DecidableEq, Repr

namespace Refusal

def message : Refusal → String
  | .empty => "Specification is empty."
  | .noSense => "Objective must start with 'maximize' or 'minimize'."
  | .noObjective => "Objective expression is missing."
  | .noComparator segment =>
    "Could not parse constraint segment '" ++ String.ofList segment ++ "'."
  | .incomplete segment =>
    "Incomplete constraint expression '" ++ String.ofList segment ++ "'."
  | .unknownVariable name =>
    "Unknown variable '" ++ String.ofList name ++ "'; only x and y are supported."
  | .badNumber text =>
    "could not convert string to float: " ++ String.ofList (Text.quoted text)
  | .badBound text => "Right-hand side '" ++ String.ofList text ++ "' is not numeric."

end Refusal

end CornerPoint.Spec
