import CornerPoint.Scalar

/-!
The tolerances of a solve.
-/
namespace CornerPoint

structure Options (α : Type) where
  /-- Determinants smaller than this belong to parallel lines, and turns of at most this much to
  straight ones. -/
  eps : α
  /-- How far a corner may lie outside a half-plane. -/
  feasibilityTol : α
  /-- How far apart two copies of one vertex may lie in each coordinate. -/
  dedupTol : α
  listVertices : Bool
  deriving DecidableEq, Repr

namespace Options

variable {α : Type} [Scalar α]

def defaultEps : α := 1e-7

/-- Wider than `defaultEps`, to take up the rounding of the crossings. -/
def defaultFeasibilityTol : α := 1e-6

def defaultDedupTol : α := 1e-7

def default : Options α :=
  { eps := defaultEps
    feasibilityTol := defaultFeasibilityTol
    dedupTol := defaultDedupTol
    listVertices := true }

end Options

end CornerPoint
