import CornerPoint.Point

/-!
The objective `a·x + b·y` and the sense in which it is to be optimised.
-/
namespace CornerPoint

inductive Sense where
  | min
  | max
  deriving DecidableEq, Repr

namespace Sense

def text : Sense → String
  | .min => "min"
  | .max => "max"

def ofText? : String → Option Sense
  | "min" => some .min
  | "max" => some .max
  | _ => none

/-- Every text but `max` asks for the minimum. -/
def ofText (text : String) : Sense := if text = "max" then .max else .min

def flip : Sense → Sense
  | .min => .max
  | .max => .min

end Sense

structure Objective (κ : Type) where
  a : κ
  b : κ
  deriving DecidableEq, Repr

namespace Objective

variable {κ μ α : Type}

def map (f : κ → μ) (o : Objective κ) : Objective μ := ⟨f o.a, f o.b⟩

def complete? (o : Objective (Option κ)) : Option (Objective κ) :=
  match o.a, o.b with
  | some a, some b => some ⟨a, b⟩
  | _, _ => none

def value [Scalar α] (o : Objective α) (p : Point α) : α := o.a * p.x + o.b * p.y

end Objective

end CornerPoint
