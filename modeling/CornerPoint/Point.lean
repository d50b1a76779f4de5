import CornerPoint.Scalar

/-!
Points of the plane and the turn that three of them make.
-/
namespace CornerPoint

structure Point (α : Type) where
  x : α
  y : α
  deriving DecidableEq, Repr

namespace Point

variable {α : Type} [Scalar α]

/-- Twice the signed area of the triangle `o a b`: positive for a turn to the left. -/
def cross (o a b : Point α) : α :=
  (a.x - o.x) * (b.y - o.y) - (a.y - o.y) * (b.x - o.x)

def isFinite (p : Point α) : Bool := Scalar.isFinite p.x && Scalar.isFinite p.y

/-- From left to right, and upwards among points with one abscissa. -/
def before (p q : Point α) : Bool :=
  if p.x == q.x then p.y < q.y else p.x < q.x

end Point

end CornerPoint
