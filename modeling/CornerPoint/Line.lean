import CornerPoint.Point
import CornerPoint.Row

/-!
Boundary lines `a·x + b·y = c` and where they cross. Each pair of lines is solved by determinants.
Pairs come in the order of their first and then of their second line, and this order later decides
between equally good corners.
-/
namespace CornerPoint

structure Line (α : Type) where
  a : α
  b : α
  c : α
  deriving DecidableEq, Repr

namespace Row

variable {α : Type}

def line (r : Row α) : Line α := ⟨r.a, r.b, r.c⟩

def enteredLine (r : Row (Option α)) : Except Fault (Line α) :=
  match r.complete? with
  | some row => .ok row.line
  | none => .error (.missing r.blanks)

end Row

/-- Each two members of a list once, the earlier one first. -/
def pairs {β : Type} : List β → List (β × β)
  | [] => []
  | b :: rest => rest.map (b, ·) ++ pairs rest

namespace Line

variable {α : Type} [Scalar α]

def det (l m : Line α) : α := l.a * m.b - m.a * l.b

/-- The solution of the two equations by determinants. -/
def solution (l m : Line α) : Point α :=
  ⟨(l.c * m.b - m.c * l.b) / l.det m, (l.a * m.c - m.a * l.c) / l.det m⟩

/-- Lines whose determinant is smaller than `eps` count as parallel and have no crossing, and so
do lines whose crossing is not finite. -/
def crossing (eps : α) (l m : Line α) : Except Fault (Option (Point α)) :=
  if Scalar.abs (l.det m) < eps then .ok none
  else if l.det m == 0 then .error .zeroDivision
  else
    let p := l.solution m
    .ok (if p.isFinite then some p else none)

def crossings (eps : α) (lines : List (Line α)) : Except Fault (List (Point α)) :=
  ((pairs lines).mapM fun pair => crossing eps pair.1 pair.2).map (List.filterMap id)

end Line

end CornerPoint
