import CornerPoint.HalfPlane
import CornerPoint.Hull
import CornerPoint.Line
import CornerPoint.Options
import CornerPoint.Problem
import CornerPoint.Vertex

/-!
Solving a problem by its corner points. All boundary lines are crossed in pairs, the crossings that
violate a row are dropped, and the objective is evaluated on the rest. An objective without a
bound is not noticed: the best corner is the answer even then.
-/
namespace CornerPoint

/-- Everything that is computed on the way from a problem to its solution. -/
structure Workings (α : Type) where
  rows : List (Row α)
  halfPlanes : List (HalfPlane α)
  lines : List (Line α)
  candidates : List (Point α)
  feasible : List (Point α)
  evaluated : List (Vertex α)
  sorted : List (Vertex α)
  distinct : List (Vertex α)
  hull : List (Point α)
  deriving DecidableEq, Repr

inductive Solution (α : Type) where
  | invalid (defect : Defect)
  | infeasible (candidates : Nat)
  | optimal (best : Vertex α) (vertices : Option (List (Vertex α))) (hull : List (Point α))
      (candidates : Nat)
  deriving DecidableEq, Repr

inductive Status where
  | invalid
  | infeasible
  | optimal
  deriving DecidableEq, Repr

namespace Status

def text : Status → String
  | .invalid => "invalid"
  | .infeasible => "infeasible"
  | .optimal => "optimal"

end Status

namespace Workings

variable {α : Type} [Scalar α]

/-- What follows from the crossings of a problem's boundary lines. Vertices are sorted before they
are merged, so that of near copies the one of lowest value stays. -/
def ofCandidates (o : Options α) (p : Problem α) (candidates : List (Point α)) : Workings α :=
  let planes := CornerPoint.halfPlanes p.rows
  let feasible := feasiblePoints o.feasibilityTol planes candidates
  let evaluated := Vertex.evaluate p.objective feasible
  let sorted := Vertex.sortByValue evaluated
  { rows := p.rows
    halfPlanes := planes
    lines := p.rows.map Row.line
    candidates
    feasible
    evaluated
    sorted
    distinct := Vertex.merge o.dedupTol sorted
    hull := Hull.hull o.eps feasible }

end Workings

namespace Solution

variable {α : Type}

def status : Solution α → Status
  | .invalid _ => .invalid
  | .infeasible _ => .infeasible
  | .optimal .. => .optimal

def best? : Solution α → Option (Vertex α)
  | .optimal best _ _ _ => some best
  | _ => none

def vertices? : Solution α → Option (List (Vertex α))
  | .optimal _ vertices _ _ => vertices
  | _ => none

def hull? : Solution α → Option (List (Point α))
  | .optimal _ _ hull _ => some hull
  | _ => none

/-- How many pairs of boundary lines cross. -/
def candidates : Solution α → Nat
  | .invalid _ => 0
  | .infeasible n => n
  | .optimal _ _ _ n => n

/-- There is a best vertex exactly if some crossing satisfies every row. -/
def ofWorkings [Scalar α] (o : Options α) (sense : Sense) (w : Workings α) : Solution α :=
  match Vertex.select? sense w.evaluated with
  | none => .infeasible w.candidates.length
  | some best =>
    .optimal best
      (if o.listVertices then some (Vertex.sortByValueDescending w.distinct) else none)
      w.hull w.candidates.length

end Solution

namespace Problem

variable {α : Type} [Scalar α]

def workings (o : Options α) (p : Problem α) : Except Fault (Workings α) :=
  (Line.crossings o.eps (p.rows.map Row.line)).map (Workings.ofCandidates o p)

def solve (o : Options α) (p : Problem α) : Except Fault (Solution α) :=
  (p.workings o).map (Solution.ofWorkings o p.sense)

/-- A draft with a defect is answered by that defect. -/
def solveDraft (o : Options α) (d : Draft α) : Except Fault (Solution α) :=
  match d.check with
  | .error defect => .ok (.invalid defect)
  | .ok p => p.solve o

end Problem

end CornerPoint
