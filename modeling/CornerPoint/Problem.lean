import CornerPoint.Objective
import CornerPoint.Row

/-!
Two-variable linear problems. A draft is a problem as entered, whose coefficients may be missing or
not finite; checking a draft yields the problem or its first defect.
-/
namespace CornerPoint

structure Problem (κ : Type) where
  name : String := "problem"
  sense : Sense := .max
  objective : Objective κ
  constraints : List (Row κ) := []
  nonnegX : Bool := false
  nonnegY : Bool := false
  deriving DecidableEq, Repr

abbrev Draft (α : Type) := Problem (Option α)

/-- Why a draft is no problem: the first part of it with a coefficient that is missing or not
finite. Rows are counted from zero. -/
inductive Defect where
  | objective
  | row (index : Nat) (name : Option String)
  deriving DecidableEq, Repr

namespace Defect

def message : Defect → String
  | .objective => "Objective coefficients are incomplete or not finite."
  | .row index name =>
    let label := (name.filter (· ≠ "")).getD ("#" ++ toString (index + 1))
    "Constraint " ++ label ++ " is incomplete or has non-finite values."

end Defect

namespace Problem

variable {κ μ : Type}

def map (f : κ → μ) (p : Problem κ) : Problem μ :=
  { p with objective := p.objective.map f, constraints := p.constraints.map (Row.map f) }

def flipped (p : Problem κ) : Problem κ := { p with sense := p.sense.flip }

/-- The problem without its row `k`. -/
def without (p : Problem κ) (k : Nat) : Problem κ :=
  { p with constraints := p.constraints.eraseIdx k }

end Problem

section Check

variable {α : Type} [Scalar α]

def finite? (entry : Option α) : Option α := entry.filter Scalar.isFinite

def Objective.check? (o : Objective (Option α)) : Option (Objective α) :=
  (o.map finite?).complete?

def Row.check? (r : Row (Option α)) : Option (Row α) :=
  (r.map finite?).complete?

/-- The first row with a defect is reported, with its position counted from `start`. -/
def checkRows (start : Nat) : List (Row (Option α)) → Except Defect (List (Row α))
  | [] => .ok []
  | r :: rest =>
    match r.check? with
    | none => .error (.row start r.name)
    | some row => (checkRows (start + 1) rest).map (row :: ·)

/-- The objective is looked at before the rows. -/
def Problem.check (d : Draft α) : Except Defect (Problem α) :=
  match d.objective.check? with
  | none => .error .objective
  | some objective =>
    (checkRows 0 d.constraints).map fun constraints => { d with objective, constraints }

end Check

namespace Problem

variable {α : Type} [Scalar α]

def nonnegRowX : Row α := { a := 1, b := 0, sign := .ge, c := 0, name := some "x>=0" }

def nonnegRowY : Row α := { a := 0, b := 1, sign := .ge, c := 0, name := some "y>=0" }

/-- The rows entered, followed by the rows for the variables that may not be negative. -/
def rows (p : Problem α) : List (Row α) :=
  p.constraints ++ (if p.nonnegX then [nonnegRowX] else []) ++
    (if p.nonnegY then [nonnegRowY] else [])

end Problem

end CornerPoint
