import CornerPoint.Point
import CornerPoint.Sorting

/-!
The convex hull by two monotone chains: the points are sorted from left to right, a chain runs along
the lower side and another one back along the upper side, and each chain drops a point as soon as
it no longer makes a left turn there.
-/
namespace CornerPoint.Hull

variable {α : Type} [Scalar α]

/-- Drop points from the end of a chain until `p` follows with a left turn of more than `eps`.
The chain is given with its last point first. -/
def retreat (eps : α) (p : Point α) : List (Point α) → List (Point α)
  | a :: o :: rest =>
    if Point.cross o a p ≤ eps then retreat eps p (o :: rest) else a :: o :: rest
  | short => short

def chain (eps : α) (points : List (Point α)) : List (Point α) :=
  (points.foldl (fun back p => p :: retreat eps p back) []).reverse

/-- The hull counter-clockwise from its leftmost point, the lower of them if there are two. Points
that turn by no more than `eps` are left out, and a single point has no hull. -/
def hull (eps : α) (points : List (Point α)) : List (Point α) :=
  if points.length < 2 then []
  else
    let sorted := Sorting.sort Point.before points
    (chain eps sorted).dropLast ++ (chain eps sorted.reverse).dropLast

end CornerPoint.Hull
