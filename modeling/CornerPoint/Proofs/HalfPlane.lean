import CornerPoint.Proofs.Region
import CornerPoint.Proofs.Traversal

/-!
Half-planes say what their rows say. Rows without blanks are turned into half-planes as they were
entered, the tolerance widens each row on the side or sides that it bounds, and the points that are
kept are those at which every row holds within the tolerance.
-/
namespace CornerPoint

theorem enteredHalfPlanes_map_some {α : Type} [Scalar α] (rows : List (Row α)) :
    enteredHalfPlanes (rows.map (Row.map some)) = .ok (halfPlanes rows) := by
  have hall : rows.mapM (Row.enteredHalfPlanes ∘ Row.map some) =
      .ok (rows.map Row.halfPlanes) := mapM_eq_ok (fun r => rfl) _
  unfold enteredHalfPlanes
  rw [List.mapM_map, hall]
  rfl

namespace Row

instance (tol : ℚ) (r : Row ℚ) (q : Point ℚ) : Decidable (r.HoldsWithin tol q) :=
  match h : r.sign with
  | .le => decidable_of_iff (r.lhs q ≤ r.c + tol) (by rw [HoldsWithin, h])
  | .eq => decidable_of_iff (r.lhs q ≤ r.c + tol ∧ r.c - tol ≤ r.lhs q) (by rw [HoldsWithin, h])
  | .ge => decidable_of_iff (r.c - tol ≤ r.lhs q) (by rw [HoldsWithin, h])

/-- An equation is widened by the same amount on both of its sides. -/
theorem holdsWithin_iff_abs_le {r : Row ℚ} (h : r.sign = .eq) (tol : ℚ) (q : Point ℚ) :
    r.HoldsWithin tol q ↔ |r.lhs q - r.c| ≤ tol := by
  have hbelow : r.lhs q ≤ r.c + tol ↔ r.lhs q - r.c ≤ tol := sub_le_iff_le_add'.symm
  have habove : r.c - tol ≤ r.lhs q ↔ -tol ≤ r.lhs q - r.c := by
    constructor <;> intro hside <;> linarith
  rw [HoldsWithin, h, abs_le, and_comm]
  exact and_congr habove hbelow

end Row

/-- A point satisfies the half-planes of a list of rows if each row holds within the tolerance: an
upper bound may be exceeded by it, a lower bound missed by it, and an equation be off by it. Of any
points, exactly those are kept, in their order. -/
theorem halfPlanes_keep_meaning (rows : List (Row ℚ)) (tol : ℚ) :
    enteredHalfPlanes (rows.map (Row.map some)) = .ok (halfPlanes rows) ∧
    (∀ q : Point ℚ, q.satisfies tol (halfPlanes rows) ↔ ∀ r ∈ rows, r.HoldsWithin tol q) ∧
    (∀ points : List (Point ℚ), feasiblePoints tol (halfPlanes rows) points =
      points.filter fun q => ∀ r ∈ rows, r.HoldsWithin tol q) ∧
    ∀ (r : Row ℚ) (q : Point ℚ),
      (r.sign = .le → (r.HoldsWithin tol q ↔ r.a * q.x + r.b * q.y ≤ r.c + tol)) ∧
      (r.sign = .ge → (r.HoldsWithin tol q ↔ r.a * q.x + r.b * q.y ≥ r.c - tol)) ∧
      (r.sign = .eq → (r.HoldsWithin tol q ↔ |r.a * q.x + r.b * q.y - r.c| ≤ tol)) := by
  have hsatisfies (q : Point ℚ) := q.satisfies_iff tol rows
  refine ⟨enteredHalfPlanes_map_some rows, hsatisfies, fun points => ?_, fun r q => ⟨?_, ?_, ?_⟩⟩
  · rw [feasiblePoints_eq_filter]
    refine List.filter_congr fun q _ => ?_
    rw [Bool.eq_iff_iff, hsatisfies, decide_eq_true_iff]
  · intro hsign
    rw [Row.HoldsWithin, hsign, Row.lhs]
  · intro hsign
    rw [Row.HoldsWithin, hsign, Row.lhs, ge_iff_le]
  · exact fun hsign => Row.holdsWithin_iff_abs_le hsign tol q

end CornerPoint
