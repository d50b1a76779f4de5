import CornerPoint.Decimal.Fixed
import CornerPoint.Vertex

/-!
Numbers and vertices for people to read.
-/
namespace CornerPoint.Display

variable {α : Type} [Scalar α]

/-- Values below this size are shown as zero. -/
def snap : α := 1e-12

def places : Nat := 4

/-- Round to the given number of places. Zero is shown without a sign, and nothing results if the
rounded value is out of range. -/
def round? (places : Int) (v : α) : Option α :=
  if Scalar.abs v < snap then some 0
  else (Scalar.roundTo? places v).map fun r => if r == 0 then 0 else r

def round (places : Int) (v : α) : Except Fault α :=
  match round? places v with
  | some r => .ok r
  | none => .error .tooLarge

/-- The value that a number is shown with. -/
def shown (v : α) : α := (round? places v).getD v

def number (v : α) : String :=
  match Scalar.value? (shown v) with
  | some q => String.ofList (Decimal.trimmed places q)
  | none => if 0 < v then "inf" else if v < 0 then "-inf" else "nan"

def optimum (sense : Sense) (v : Vertex α) : String :=
  let label := match sense with
    | .max => "Maximum"
    | .min => "Minimum"
  label ++ ": Z = " ++ number v.z ++ " at (x=" ++ number v.x ++ ", y=" ++ number v.y ++ ")"

def vertex (v : Vertex α) : String :=
  "(" ++ number v.x ++ ", " ++ number v.y ++ ")  Z = " ++ number v.z

end CornerPoint.Display
