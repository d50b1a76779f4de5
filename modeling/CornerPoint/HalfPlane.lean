import CornerPoint.Point
import CornerPoint.Row

/-!
Half-planes `a·x + b·y ≤ c`, the half-planes that a row stands for, and the points that lie in all
of them up to a tolerance.
-/
namespace CornerPoint

structure HalfPlane (α : Type) where
  a : α
  b : α
  c : α
  deriving DecidableEq, Repr

namespace HalfPlane

variable {α : Type} [Scalar α]

def value (h : HalfPlane α) (p : Point α) : α := h.a * p.x + h.b * p.y

/-- The tolerance widens the half-plane. -/
def admits (tol : α) (h : HalfPlane α) (p : Point α) : Bool :=
  h.value p ≤ h.c + tol

end HalfPlane

namespace Row

variable {α : Type} [Scalar α]

/-- An equation is kept from both sides, first as it stands and then negated. -/
def halfPlanes (r : Row α) : List (HalfPlane α) :=
  match r.sign with
  | .le => [⟨r.a, r.b, r.c⟩]
  | .ge => [⟨-r.a, -r.b, -r.c⟩]
  | .eq => [⟨r.a, r.b, r.c⟩, ⟨-r.a, -r.b, -r.c⟩]

/-- Of a row with blanks, a lower bound stops at its first negation, any other row at the
half-plane that it is copied into. -/
def enteredHalfPlanes (r : Row (Option α)) : Except Fault (List (HalfPlane α)) :=
  match r.complete? with
  | some row => .ok row.halfPlanes
  | none => .error (if r.sign = .ge then .blankOperand else .missing r.blanks)

end Row

variable {α : Type} [Scalar α]

def halfPlanes (rows : List (Row α)) : List (HalfPlane α) :=
  rows.flatMap Row.halfPlanes

/-- The first row with blanks stops the whole list. -/
def enteredHalfPlanes (rows : List (Row (Option α))) : Except Fault (List (HalfPlane α)) :=
  (rows.mapM Row.enteredHalfPlanes).map List.flatten

def Point.satisfies (tol : α) (planes : List (HalfPlane α)) (p : Point α) : Bool :=
  planes.all (HalfPlane.admits tol · p)

/-- The members that are flagged. -/
def masked {β : Type} (members : List β) (flags : List Bool) : List β :=
  (members.zip flags).filterMap fun (b, keep) => if keep then some b else none

theorem masked_map {β : Type} (keep : β → Bool) (members : List β) :
    masked members (members.map keep) = members.filter keep := by
  unfold masked
  induction members with
  | nil => rfl
  | cons b members ih =>
    rw [List.map_cons, List.zip_cons_cons, List.filterMap_cons, ih, List.filter_cons]
    cases keep b <;> rfl

/-- The points that lie in every half-plane, in the order given. The values of all half-planes at
all points are tabulated first, and then each point goes by its row of the table. -/
def feasiblePoints (tol : α) (planes : List (HalfPlane α)) (points : List (Point α)) :
    List (Point α) :=
  if points.isEmpty then []
  else if planes.isEmpty then points
  else
    let table := points.map fun p => planes.map (HalfPlane.value · p)
    let bounds := planes.map fun h => h.c + tol
    masked points
      (table.map fun values => (values.zip bounds).all fun (value, bound) => value ≤ bound)

/-- The table and its shortcuts keep exactly the points that satisfy the half-planes. -/
theorem feasiblePoints_eq_filter (tol : α) (planes : List (HalfPlane α))
    (points : List (Point α)) :
    feasiblePoints tol planes points = points.filter (Point.satisfies tol planes) := by
  have hrow (p : Point α) :
      ((planes.map (HalfPlane.value · p)).zip (planes.map fun h => h.c + tol)).all
        (fun (value, bound) => value ≤ bound) = p.satisfies tol planes := by
    rw [List.zip_map', List.all_map]
    rfl
  unfold feasiblePoints
  split
  · rename_i hempty
    rw [List.isEmpty_iff.mp hempty, List.filter_nil]
  split
  · rename_i hempty
    rw [List.isEmpty_iff.mp hempty]
    exact (List.filter_eq_self.mpr fun p _ => rfl).symm
  · simp only [List.map_map, Function.comp_def, hrow]
    exact masked_map _ points

end CornerPoint
