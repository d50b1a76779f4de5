import CornerPoint.HalfPlane
import CornerPoint.Line
import CornerPoint.Problem

/-!
A problem in the form that general solvers take: upper bounds and equations apart, non-negative
variables marked, and a cost to be made as small as possible.
-/
namespace CornerPoint

structure MatrixForm (κ : Type) where
  upper : List (HalfPlane κ)
  equal : List (Line κ)
  deriving DecidableEq, Repr

namespace MatrixForm

variable {κ α : Type}

/-- Lower bounds are negated. -/
def ofRows (negate : κ → κ) (rows : List (Row κ)) : MatrixForm κ where
  upper := rows.filterMap fun r =>
    match r.sign with
    | .le => some ⟨r.a, r.b, r.c⟩
    | .ge => some ⟨negate r.a, negate r.b, negate r.c⟩
    | .eq => none
  equal := rows.filterMap fun r =>
    match r.sign with
    | .eq => some ⟨r.a, r.b, r.c⟩
    | _ => none

/-- Blanks may stay, except where one would have to be negated. -/
def ofEnteredRows [Scalar α] (rows : List (Row (Option α))) :
    Except Fault (MatrixForm (Option α)) :=
  if rows.any fun r => r.sign = .ge && !r.blanks.isEmpty then .error .blankOperand
  else .ok (ofRows (Option.map Neg.neg) rows)

end MatrixForm

structure LinearProgram (α : Type) where
  cost : Objective α
  matrices : MatrixForm α
  nonnegX : Bool
  nonnegY : Bool
  deriving DecidableEq, Repr

namespace LinearProgram

variable {α μ : Type}

def map (f : α → μ) (lp : LinearProgram α) : LinearProgram μ where
  cost := lp.cost.map f
  matrices :=
    { upper := lp.matrices.upper.map fun h => ⟨f h.a, f h.b, f h.c⟩
      equal := lp.matrices.equal.map fun l => ⟨f l.a, f l.b, f l.c⟩ }
  nonnegX := lp.nonnegX
  nonnegY := lp.nonnegY

/-- The same programme with the exact values of its numbers, which have to be finite. -/
def exact [Scalar α] (lp : LinearProgram α) : LinearProgram Rat :=
  lp.map fun v => (Scalar.value? v).getD 0

/-- To maximise an objective, its negation is made as small as possible. -/
def ofProblem [Scalar α] (p : Problem α) : LinearProgram α where
  cost :=
    match p.sense with
    | .min => p.objective
    | .max => p.objective.map Neg.neg
  matrices := MatrixForm.ofRows Neg.neg p.constraints
  nonnegX := p.nonnegX
  nonnegY := p.nonnegY

end LinearProgram

end CornerPoint
