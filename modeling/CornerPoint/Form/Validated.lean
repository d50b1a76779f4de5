import CornerPoint.Fault

/-!
Values of a form that have been checked, or else all that is wrong with them.
-/
namespace CornerPoint

inductive Cause where
  | missing
  | notRecord
  | notList
  | notNumber
  | numberText
  | notFlag
  | flagText
  | notText
  | notChoice
  deriving DecidableEq, Repr

namespace Cause

def label : Cause → String
  | .missing => "missing"
  | .notRecord => "model_type"
  | .notList => "list_type"
  | .notNumber => "float_type"
  | .numberText => "float_parsing"
  | .notFlag => "bool_type"
  | .flagText => "bool_parsing"
  | .notText => "string_type"
  | .notChoice => "literal_error"

end Cause

/-- What is wrong, and where: the keys and positions that lead to the value. -/
structure Issue where
  path : List String
  cause : Cause
  deriving DecidableEq, Repr

namespace Issue

def render (i : Issue) : String := ".".intercalate i.path ++ ":" ++ i.cause.label

/-- Coefficients that were left out are no numbers. -/
def ofMissing (coefficients : List Coefficient) : List Issue :=
  coefficients.map fun k => ⟨[k.label], .notNumber⟩

def renderAll (issues : List Issue) : String := "; ".intercalate (issues.map render)

end Issue

inductive Validated (β : Type) where
  | accepted (value : β)
  | refused (issues : List Issue)
  deriving DecidableEq, Repr

namespace Validated

variable {β γ : Type}

def refuse (cause : Cause) : Validated β := .refused [⟨[], cause⟩]

def map (f : β → γ) : Validated β → Validated γ
  | .accepted v => .accepted (f v)
  | .refused issues => .refused issues

/-- The issues of both sides are kept, those of the left side first. -/
def combine : Validated (β → γ) → Validated β → Validated γ
  | .accepted f, .accepted v => .accepted (f v)
  | .accepted _, .refused issues => .refused issues
  | .refused issues, .accepted _ => .refused issues
  | .refused issues, .refused more => .refused (issues ++ more)

instance : Applicative Validated where
  pure := .accepted
  map := map
  seq f v := combine f (v ())

/-- Issues are reported under the given key. -/
def within (key : String) : Validated β → Validated β
  | .accepted v => .accepted v
  | .refused issues => .refused (issues.map fun i => { i with path := key :: i.path })

/-- All members of a list, with the issues of all of them. Positions are counted from `start`. -/
def all (check : β → Validated γ) (start : Nat) : List β → Validated (List γ)
  | [] => .accepted []
  | b :: rest => List.cons <$> (check b).within (toString start) <*> all check (start + 1) rest

/-- All members of a list, or the issues of the first that is refused. -/
def each (check : β → Validated γ) : List β → Validated (List γ)
  | [] => .accepted []
  | b :: rest =>
    match check b with
    | .accepted v => (each check rest).map (v :: ·)
    | .refused issues => .refused issues

end Validated

end CornerPoint
