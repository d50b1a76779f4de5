import CornerPoint.CrossCheck
import CornerPoint.Diagnosis
import CornerPoint.Form.Document
import CornerPoint.Report
import CornerPoint.Spec.LinearForm

/-!
Problems and results as documents.
-/
namespace CornerPoint

variable {ν α : Type}

open Document

def Point.document (p : Point ν) : Document ν := .record [("x", .number p.x), ("y", .number p.y)]

def Vertex.document (v : Vertex ν) : Document ν :=
  .record [("x", .number v.x), ("y", .number v.y), ("z", .number v.z)]

def HalfPlane.document (h : HalfPlane ν) : Document ν :=
  .record [("a", .number h.a), ("b", .number h.b), ("c", .number h.c)]

def Line.document (l : Line ν) : Document ν :=
  .record [("a", .number l.a), ("b", .number l.b), ("c", .number l.c)]

def Row.document (r : Row (Option ν)) : Document ν :=
  .record [("a", .optional r.a), ("b", .optional r.b), ("sign", .text r.sign.text),
    ("c", .optional r.c), ("name", .optionalText r.name)]

def Objective.document (o : Objective (Option ν)) : Document ν :=
  .record [("a", .optional o.a), ("b", .optional o.b)]

def Problem.document (d : Draft ν) : Document ν :=
  .record [("name", .text d.name), ("sense", .text d.sense.text),
    ("objective", d.objective.document), ("constraints", .list (d.constraints.map Row.document)),
    ("nonneg_x", .flag d.nonnegX), ("nonneg_y", .flag d.nonnegY)]

def Options.document (o : Options ν) : Document ν :=
  .record [("eps", .number o.eps), ("feasibility_tol", .number o.feasibilityTol),
    ("dedup_tol", .number o.dedupTol), ("list_vertices", .flag o.listVertices)]

def Window.document (w : Window ν) : Document ν :=
  .list [.number w.minX, .number w.maxX, .number w.minY, .number w.maxY]

def Exhibit.fields (e : Exhibit ν) : List (String × Document ν) :=
  [("vertex_listing", .texts e.listing), ("plot_bounds", e.window.document)]

def Report.document (r : Report ν) : Document ν :=
  let absent : Document ν := .null
  .record ([("status", .text r.solution.status.text),
    ("optimum", (r.solution.best?.map Vertex.document).getD absent),
    ("vertices", (r.solution.vertices?.map fun vs => .list (vs.map Vertex.document)).getD absent),
    ("hull", (r.solution.hull?.map fun ps => .list (ps.map Point.document)).getD absent),
    ("candidates", .integer r.solution.candidates),
    ("message", .text r.message)] ++ (r.exhibit.map Exhibit.fields).getD [])

/-- Each stage under its name, in the order in which it is worked out. -/
def Workings.document (w : Workings ν) : Document ν :=
  let stage (name : String) (items : List (Document ν)) : Document ν :=
    .list [.text name, .list items]
  .list [
    stage "constraints" (w.rows.map fun r => (r.map some).document),
    stage "half_planes" (w.halfPlanes.map HalfPlane.document),
    stage "lines" (w.lines.map Line.document),
    stage "candidates" (w.candidates.map Point.document),
    stage "feasible" (w.feasible.map Point.document),
    stage "evaluated" (w.evaluated.map Vertex.document),
    stage "sorted" (w.sorted.map Vertex.document),
    stage "unique" (w.distinct.map Vertex.document),
    stage "hull" (w.hull.map Point.document)]

def Diagnosis.document (d : Diagnosis) : Document ν :=
  .record [("status", .text d.status), ("message", .text d.message),
    ("conflicting_constraints", .texts d.conflicts), ("suggestions", .texts d.suggestions)]

def MatrixForm.document (s : MatrixForm ν) : Document ν :=
  .record [("A_ub", .list (s.upper.map fun h => .list [.number h.a, .number h.b])),
    ("b_ub", .list (s.upper.map fun h => .number h.c)),
    ("A_eq", .list (s.equal.map fun l => .list [.number l.a, .number l.b])),
    ("b_eq", .list (s.equal.map fun l => .number l.c))]

/-- The point is left out on request: where the optimum is not unique it means little. -/
def CrossCheck.document (withPoint : Bool) : CrossCheck → Document Rat
  | .invalid defect =>
    .record [("status", .text Status.invalid.text), ("objective_value", .null), ("x", .null),
      ("y", .null), ("message", .text defect.message)]
  | .answered status found =>
    .record ([("status", .text status.text), ("objective_value", .optional (found.map (·.1)))] ++
      if withPoint then
        [("x", .optional (found.map (·.2.x))), ("y", .optional (found.map (·.2.y)))]
      else [])

def Spec.LinearForm.document (f : Spec.LinearForm ν) : Document ν :=
  let named (key : String) (v : Option ν) : List (String × Document ν) :=
    v.toList.map fun v => (key, .number v)
  .record [("coeffs", .record (named "x" f.x ++ named "y" f.y)), ("constant", .number f.constant)]

end CornerPoint
