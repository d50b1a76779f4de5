import CornerPoint.Solution

/-!
Why a problem has no feasible corner: each row is dropped in turn, and the rows whose absence helps
are named.
-/
namespace CornerPoint

inductive Diagnosis where
  | invalid (defect : Defect)
  /-- Nothing to explain. -/
  | solvable
  | infeasible (conflicts : List String)
  deriving DecidableEq, Repr

namespace Diagnosis

def status : Diagnosis → String
  | .invalid _ => "error"
  | .solvable => Status.optimal.text
  | .infeasible _ => Status.infeasible.text

def message : Diagnosis → String
  | .invalid defect => defect.message
  | .solvable => "Problem is not infeasible."
  | .infeasible _ =>
    "Feasible region is empty; listed constraints whose removal restores feasibility."

def conflicts : Diagnosis → List String
  | .infeasible conflicts => conflicts
  | _ => []

def suggestions : Diagnosis → List String
  | .invalid _ => ["Fill in every coefficient with a finite number."]
  | .solvable => []
  | .infeasible [] => ["Several constraints conflict together, or with x >= 0 / y >= 0."]
  | .infeasible (_ :: _) => ["Relax or inspect the conflicting constraints above."]

end Diagnosis

namespace Problem

variable {α : Type} [Scalar α]

def diagnosisOptions : Options α := { Options.default with listVertices := false }

/-- Whether the problem has a feasible corner once row `k` is dropped. -/
def restoredWithout (p : Problem α) (k : Nat) : Except Fault Bool :=
  ((p.without k).solve diagnosisOptions).map fun s => s.status != .infeasible

/-- The label of row `k`, if its absence helps. -/
def conflict? (p : Problem α) (r : Row α) (k : Nat) : Except Fault (Option String) :=
  (p.restoredWithout k).map fun restored =>
    if restored then some (r.label ("c" ++ toString (k + 1))) else none

/-- The labels of the rows whose absence helps, in the order of the rows. -/
def conflicts (p : Problem α) : Except Fault (List String) :=
  (p.constraints.zipIdx.mapM fun (r, k) => p.conflict? r k).map (List.filterMap id)

def diagnose (p : Problem α) : Except Fault Diagnosis := do
  let s ← p.solve diagnosisOptions
  if s.status = .infeasible then return .infeasible (← p.conflicts)
  else return .solvable

def diagnoseDraft (d : Draft α) : Except Fault Diagnosis :=
  match d.check with
  | .error defect => .ok (.invalid defect)
  | .ok p => p.diagnose

end Problem

end CornerPoint
