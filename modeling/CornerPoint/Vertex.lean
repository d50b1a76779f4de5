import CornerPoint.Fault
import CornerPoint.Objective
import CornerPoint.Sorting

/-!
Vertices: points together with their objective value. They are sorted by value, the best one is
selected, and vertices that lie close together are merged.
-/
namespace CornerPoint

structure Vertex (α : Type) extends Point α where
  z : α
  deriving DecidableEq, Repr

namespace Vertex

variable {α : Type} [Scalar α]

def lower (p q : Vertex α) : Bool := p.z < q.z

def evaluate (o : Objective α) (points : List (Point α)) : List (Vertex α) :=
  points.map fun p => ⟨p, o.value p⟩

/-- An objective with blanks does no harm as long as there is no point to evaluate. -/
def evaluateEntered (o : Objective (Option α)) (points : List (Point α)) :
    Except Fault (List (Vertex α)) :=
  match o.complete?, points with
  | some complete, _ => .ok (evaluate complete points)
  | none, [] => .ok []
  | none, _ :: _ => .error .blankOperand

/-- By ascending value; vertices of equal value keep their order. -/
def sortByValue (vertices : List (Vertex α)) : List (Vertex α) :=
  Sorting.sort lower vertices

/-- By descending value; vertices of equal value keep their order. -/
def sortByValueDescending (vertices : List (Vertex α)) : List (Vertex α) :=
  Sorting.sortDescending lower vertices

/-- Among equally good vertices the latest is the maximum and the earliest the minimum. -/
def select? (sense : Sense) (vertices : List (Vertex α)) : Option (Vertex α) :=
  match sense with
  | .max => (sortByValue vertices).getLast?
  | .min => (sortByValue vertices).head?

def select (sense : Sense) (vertices : List (Vertex α)) : Except Fault (Vertex α) :=
  match select? sense vertices with
  | some best => .ok best
  | none => .error .nothingToSelect

/-- Both coordinates differ by at most the tolerance. -/
def near (tol : α) (p q : Vertex α) : Bool :=
  decide (Scalar.abs (p.x - q.x) ≤ tol) && decide (Scalar.abs (p.y - q.y) ≤ tol)

/-- Leave out each vertex that is near one kept before it. -/
def merge (tol : α) (vertices : List (Vertex α)) : List (Vertex α) :=
  vertices.foldl (fun kept p => if kept.any (near tol p) then kept else kept ++ [p]) []

end Vertex

end CornerPoint
