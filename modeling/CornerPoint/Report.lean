import CornerPoint.Display
import CornerPoint.Solution
import CornerPoint.Window

/-!
The report on a solve: the solution, its message, a readable listing of the vertices, and the window
that frames them.
-/
namespace CornerPoint

namespace Solution

variable {α : Type} [Scalar α]

def message (sense : Sense) : Solution α → String
  | .invalid defect => defect.message
  | .infeasible _ => "Feasible region is empty."
  | .optimal best _ _ _ => Display.optimum sense best

end Solution

/-- What is added to the solution of a problem without defects. -/
structure Exhibit (α : Type) where
  listing : List String
  window : Window α
  deriving DecidableEq, Repr

structure Report (α : Type) where
  solution : Solution α
  message : String
  exhibit : Option (Exhibit α)
  deriving DecidableEq, Repr

namespace Exhibit

variable {α : Type} [Scalar α]

/-- The window frames the vertices if any are listed, and else the hull. -/
def ofSolution (p : Problem α) (s : Solution α) : Exhibit α :=
  let vertices := s.vertices?.getD []
  let points := if vertices.isEmpty then s.hull?.getD [] else vertices.map (·.toPoint)
  { listing := vertices.map Display.vertex
    window := Window.frame Window.defaultPad points p.constraints }

end Exhibit

namespace Report

variable {α : Type} [Scalar α]

def ofDraft (o : Options α) (d : Draft α) : Except Fault (Report α) :=
  match d.check with
  | .error defect => .ok ⟨.invalid defect, defect.message, none⟩
  | .ok p => (p.solve o).map fun s => ⟨s, s.message p.sense, some (Exhibit.ofSolution p s)⟩

end Report

end CornerPoint
