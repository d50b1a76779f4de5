import CornerPoint.LinearProgram

/-!
An exact solver for linear programmes. Variables are eliminated one after the other: each lower and
each upper bound on the first variable combine to an inequality without it, and a point of the
smaller system extends to one of the larger. The cost is the last variable to go, so that its
bounds are those of the programme.
-/
namespace CornerPoint

/-- `coefficients · v ≤ bound` for a list `v` of variables. -/
structure Inequality where
  coefficients : List Rat
  bound : Rat
  deriving DecidableEq, Repr

namespace Inequality

def dot : (a v : List Rat) → Rat
  | k :: a, x :: v => k * x + dot a v
  | _, _ => 0

def head (i : Inequality) : Rat := i.coefficients.headD 0

def tail (i : Inequality) : List Rat := i.coefficients.tail

/-- The inequality without its first variable, which has to have the coefficient zero. -/
def shorten (i : Inequality) : Inequality := ⟨i.tail, i.bound⟩

/-- The sum of an upper bound and a lower bound on the first variable, in the proportion in which
that variable cancels. -/
def combine (upper lower : Inequality) : Inequality :=
  ⟨List.zipWith (fun u l => -lower.head * u + upper.head * l) upper.tail lower.tail,
    -lower.head * upper.bound + upper.head * lower.bound⟩

/-- The inequalities that are left once the first variable is eliminated. -/
def eliminate (rows : List Inequality) : List Inequality :=
  let free := rows.filter (·.head == 0)
  let upper := rows.filter (0 < ·.head)
  let lower := rows.filter (·.head < 0)
  free.map shorten ++ upper.flatMap fun u => lower.map (combine u)

/-- Where an inequality bounds the first variable, given the others. -/
def limit (others : List Rat) (i : Inequality) : Rat := (i.bound - dot i.tail others) / i.head

def greatest? : List Rat → Option Rat
  | [] => none
  | v :: rest => some (rest.foldl (fun m w => if m < w then w else m) v)

def least? : List Rat → Option Rat
  | [] => none
  | v :: rest => some (rest.foldl (fun m w => if w < m then w else m) v)

/-- A value for the first variable: the least that is allowed, the greatest if there is no least,
and zero if there is neither. -/
def choose (rows : List Inequality) (others : List Rat) : Rat :=
  let lower := greatest? ((rows.filter (·.head < 0)).map (limit others))
  let upper := least? ((rows.filter (0 < ·.head)).map (limit others))
  (lower.or upper).getD 0

/-- A solution in the given number of variables. -/
def solution? : Nat → List Inequality → Option (List Rat)
  | 0, rows => if rows.all (0 ≤ ·.bound) then some [] else none
  | n + 1, rows => (solution? n (eliminate rows)).map fun others => choose rows others :: others

end Inequality

/-- A solver's answer: a code and, where the code is zero, the least cost and where it is reached.
-/
structure Reply where
  code : Int
  found : Option (Rat × Point Rat)
  deriving DecidableEq, Repr

namespace LinearProgram

/-- The variables are y, x and the cost, in this order. -/
def inequalities (lp : LinearProgram Rat) : List Inequality :=
  lp.matrices.upper.map (fun h => ⟨[h.b, h.a, 0], h.c⟩) ++
    lp.matrices.equal.map (fun l => ⟨[l.b, l.a, 0], l.c⟩) ++
    lp.matrices.equal.map (fun l => ⟨[-l.b, -l.a, 0], -l.c⟩) ++
    (if lp.nonnegX then [⟨[0, -1, 0], 0⟩] else []) ++
    (if lp.nonnegY then [⟨[-1, 0, 0], 0⟩] else []) ++
    [⟨[lp.cost.b, lp.cost.a, -1], 0⟩, ⟨[-lp.cost.b, -lp.cost.a, 1], 0⟩]

/-- The code is 0 for an optimum, 2 if no point satisfies the rows and 3 if the cost has no lower
bound. -/
def solve (lp : LinearProgram Rat) : Reply :=
  let rows := lp.inequalities
  match Inequality.solution? 3 rows with
  | some [y, x, cost] =>
    if (Inequality.eliminate (Inequality.eliminate rows)).any (·.head < 0) then
      ⟨0, some (cost, ⟨x, y⟩)⟩
    else ⟨3, none⟩
  | _ => ⟨2, none⟩

end LinearProgram

end CornerPoint
