import CornerPoint.Options
import CornerPoint.Point
import CornerPoint.Row

/-!
The window in which a solution is drawn. It always shows the origin and the point (1, 1).
-/
namespace CornerPoint

structure Window (α : Type) where
  minX : α
  maxX : α
  minY : α
  maxY : α
  deriving DecidableEq, Repr

/-- The values to frame on either axis. -/
structure Marks (α : Type) where
  xs : List α
  ys : List α
  deriving DecidableEq, Repr

namespace Marks

variable {α : Type} [Scalar α]

def ofPoints (points : List (Point α)) : Marks α :=
  ⟨points.map (·.x), points.map (·.y)⟩

/-- Where a line meets the axes. A line that is nearly parallel to an axis does not meet it. -/
def ofRow (r : Row α) : Marks α :=
  { xs := if Options.defaultEps < Scalar.abs r.a then [r.c / r.a] else []
    ys := if Options.defaultEps < Scalar.abs r.b then [r.c / r.b] else [] }

def ofRows (rows : List (Row α)) : Marks α :=
  ⟨rows.flatMap fun r => (ofRow r).xs, rows.flatMap fun r => (ofRow r).ys⟩

/-- A blank right-hand side does no harm in a row that meets neither axis. -/
def ofEnteredRow (r : Row (Option α)) : Except Fault (Marks α) :=
  match r.a, r.b, r.c with
  | some a, some b, some c => .ok (ofRow { a, b, c })
  | some a, some b, none =>
    if Options.defaultEps < Scalar.abs b || Options.defaultEps < Scalar.abs a then
      .error .blankOperand
    else .ok ⟨[], []⟩
  | _, _, _ => .error .blankOperand

def ofEnteredRows (rows : List (Row (Option α))) : Except Fault (Marks α) :=
  (rows.mapM ofEnteredRow).map fun marks => ⟨marks.flatMap (·.xs), marks.flatMap (·.ys)⟩

end Marks

namespace Window

variable {α : Type} [Scalar α]

def least (start : α) (values : List α) : α :=
  values.foldl (fun m v => if v < m then v else m) start

def greatest (start : α) (values : List α) : α :=
  values.foldl (fun m v => if m < v then v else m) start

/-- The margin is a share of the span, and one unit where that share is nothing. -/
def margin (pad lo hi : α) : α :=
  let share := (hi - lo) * pad
  if share == 0 then 1 else share

def defaultPad : α := 0.2

/-- Marks that are not finite are left out. -/
def ofMarks (pad : α) (marks : Marks α) : Window α :=
  let xs := marks.xs.filter Scalar.isFinite
  let ys := marks.ys.filter Scalar.isFinite
  let minX := least 0 xs
  let maxX := greatest 1 xs
  let minY := least 0 ys
  let maxY := greatest 1 ys
  let padX := margin pad minX maxX
  let padY := margin pad minY maxY
  ⟨minX - padX, maxX + padX, minY - padY, maxY + padY⟩

/-- Without points the window shows where the rows' lines meet the axes. -/
def frame (pad : α) (points : List (Point α)) (rows : List (Row α)) : Window α :=
  ofMarks pad (if points.isEmpty then Marks.ofRows rows else Marks.ofPoints points)

def frameEntered (pad : α) (points : List (Point α)) (rows : List (Row (Option α))) :
    Except Fault (Window α) :=
  if points.isEmpty then (Marks.ofEnteredRows rows).map (ofMarks pad)
  else .ok (ofMarks pad (Marks.ofPoints points))

end Window

end CornerPoint
