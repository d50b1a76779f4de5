import CornerPoint.Form.Field
import CornerPoint.HalfPlane
import CornerPoint.Line
import CornerPoint.Options
import CornerPoint.Problem
import CornerPoint.Vertex

/-!
Forms for points, lines, rows, problems and options. Issues come in the order in which the fields
are listed here.
-/
namespace CornerPoint.Form

variable {α : Type} [Scalar α]

def point : Entry → Validated (Point α) :=
  record fun fields => Point.mk <$> required fields "x" scalar <*> required fields "y" scalar

def vertex : Entry → Validated (Vertex α) :=
  record fun fields =>
    (fun x y z => { x, y, z : Vertex α }) <$> required fields "x" scalar <*>
      required fields "y" scalar <*> required fields "z" scalar

def line : Entry → Validated (Line α) :=
  record fun fields =>
    Line.mk <$> required fields "a" scalar <*> required fields "b" scalar <*>
      required fields "c" scalar

def halfPlane : Entry → Validated (HalfPlane α) :=
  record fun fields =>
    HalfPlane.mk <$> required fields "a" scalar <*> required fields "b" scalar <*>
      required fields "c" scalar

def coefficient (fields : Fields) (key : String) : Validated (Option α) :=
  defaulted fields key none (optional scalar)

def row : Entry → Validated (Row (Option α)) :=
  record fun fields =>
    Row.mk <$> coefficient fields "a" <*> coefficient fields "b" <*>
      defaulted fields "sign" .le (choice Sign.ofText?) <*> coefficient fields "c" <*>
      defaulted fields "name" none (optional text)

def objective : Entry → Validated (Objective (Option α)) :=
  record fun fields => Objective.mk <$> coefficient fields "a" <*> coefficient fields "b"

def problem : Entry → Validated (Draft α) :=
  record fun fields =>
    Problem.mk <$> defaulted fields "name" "problem" text <*>
      defaulted fields "sense" .max (choice Sense.ofText?) <*>
      required fields "objective" objective <*> defaulted fields "constraints" [] (list row) <*>
      defaulted fields "nonneg_x" false (flag α) <*>
      defaulted fields "nonneg_y" false (flag α)

def options : Entry → Validated (Options α) :=
  record fun fields =>
    Options.mk <$> defaulted fields "eps" Options.defaultEps scalar <*>
      defaulted fields "feasibility_tol" Options.defaultFeasibilityTol scalar <*>
      defaulted fields "dedup_tol" Options.defaultDedupTol scalar <*>
      defaulted fields "list_vertices" true (flag α)

/-- Options that are left out, or given as nothing, are the default ones. -/
def optionsOrDefault : Option Entry → Validated (Options α)
  | none | some .null => .accepted .default
  | some entry => options entry

end CornerPoint.Form
