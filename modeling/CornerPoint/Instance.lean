import CornerPoint.Problem
import CornerPoint.Chance.Source

/-!
Random problems that have a solution: upper bounds with positive coefficients on two variables that
may not be negative.
-/
namespace CornerPoint.Instance

open Chance

variable {σ α : Type} [Scalar α]

/-- Row `j`, counted from zero. -/
def row (source : Source σ α) (j : Nat) : StateM σ (Row α) := do
  let a ← source.between 0.5 5.0
  let b ← source.between 0.5 5.0
  let c ← source.between 10.0 60.0
  return { a, b, sign := .le, c, name := some ("c" ++ toString (j + 1)) }

def problem (source : Source σ α) (rows : Nat) : StateM σ (Problem α) := do
  let constraints ← (List.range rows).mapM (row source)
  let sense := if ← source.decision then Sense.min else Sense.max
  let a ← source.between 1.0 4.0
  let b ← source.between 1.0 4.0
  return { name := "random-planar", sense, objective := ⟨a, b⟩, constraints,
           nonnegX := true, nonnegY := true }

structure Request where
  constraints : Int := 4
  seed : Option Int := none
  count : Int := 1
  deriving DecidableEq, Repr

/-- Each problem has a seed of its own, one more than the seed before; a negative number of
problems or rows is none. -/
def batch (r : Request) : List (Problem α) :=
  (List.range r.count.toNat).map fun (k : Nat) =>
    (problem twister r.constraints.toNat (Twister.ofSeed (r.seed.getD 0 + (k : Int)))).1

end CornerPoint.Instance
