import CornerPoint.Elimination

/-!
A second opinion on a problem from a general solver, which also notices objectives without a bound.
-/
namespace CornerPoint

inductive SolverStatus where
  | optimal
  | iterationLimit
  | infeasible
  | unbounded
  deriving DecidableEq, Repr

namespace SolverStatus

def text : SolverStatus → String
  | .optimal => "optimal"
  | .iterationLimit => "iteration_limit"
  | .infeasible => "infeasible"
  | .unbounded => "unbounded"

/-- A code that is not known counts as giving up. -/
def ofCode (code : Int) : SolverStatus :=
  if code = 0 then .optimal
  else if code = 2 then .infeasible
  else if code = 3 then .unbounded
  else .iterationLimit

end SolverStatus

inductive CrossCheck where
  | invalid (defect : Defect)
  | answered (status : SolverStatus) (found : Option (Rat × Point Rat))
  deriving DecidableEq, Repr

namespace CrossCheck

/-- The solver's cost is the objective in the sense `min` and its negation in the sense `max`. -/
def ofReply (sense : Sense) (reply : Reply) : CrossCheck :=
  let status := SolverStatus.ofCode reply.code
  let objective (cost : Rat) : Rat := match sense with
    | .min => cost
    | .max => -cost
  .answered status
    (if status = .optimal then reply.found.map fun (cost, p) => (objective cost, p) else none)

end CrossCheck

namespace Problem

variable {α : Type} [Scalar α]

def crossCheckWith (solver : LinearProgram Rat → Reply) (p : Problem α) : CrossCheck :=
  CrossCheck.ofReply p.sense (solver (LinearProgram.ofProblem p).exact)

def crossCheckDraft (solver : LinearProgram Rat → Reply) (d : Draft α) : CrossCheck :=
  match d.check with
  | .error defect => .invalid defect
  | .ok p => p.crossCheckWith solver

end Problem

end CornerPoint
