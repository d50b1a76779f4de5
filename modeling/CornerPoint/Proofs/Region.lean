import CornerPoint.HalfPlane
import CornerPoint.Line
import CornerPoint.Problem
import CornerPoint.Scalar.Exact
import Mathlib.Algebra.Order.Ring.Rat
import Mathlib.Tactic.Linarith

/-!
The exact feasible set of a problem, said of its rows and without half-planes or tolerances, and
what the half-planes of a row admit.
-/
namespace CornerPoint

theorem Scalar.abs_rat (q : ℚ) : Scalar.abs q = |q| := by
  change (if q < 0 then -q else q) = |q|
  split
  · rename_i h
    exact (abs_of_neg h).symm
  · rename_i h
    exact (abs_of_nonneg (not_lt.mp h)).symm

namespace Row

def lhs (r : Row ℚ) (q : Point ℚ) : ℚ := r.a * q.x + r.b * q.y

def Holds (r : Row ℚ) (q : Point ℚ) : Prop :=
  match r.sign with
  | .le => r.lhs q ≤ r.c
  | .eq => r.lhs q = r.c
  | .ge => r.c ≤ r.lhs q

instance (r : Row ℚ) (q : Point ℚ) : Decidable (r.Holds q) := by
  unfold Holds
  split <;> infer_instance

/-- A row that may be missed by the tolerance, on either side if it is an equation. -/
def HoldsWithin (tol : ℚ) (r : Row ℚ) (q : Point ℚ) : Prop :=
  match r.sign with
  | .le => r.lhs q ≤ r.c + tol
  | .eq => r.lhs q ≤ r.c + tol ∧ r.c - tol ≤ r.lhs q
  | .ge => r.c - tol ≤ r.lhs q

theorem holdsWithin_zero (r : Row ℚ) (q : Point ℚ) : r.HoldsWithin 0 q ↔ r.Holds q := by
  unfold HoldsWithin Holds
  split <;> simp [le_antisymm_iff]

theorem Holds.within {r : Row ℚ} {q : Point ℚ} (h : r.Holds q) {tol : ℚ} (htol : 0 ≤ tol) :
    r.HoldsWithin tol q := by
  unfold HoldsWithin
  unfold Holds at h
  split <;> simp_all <;> linarith

end Row

theorem HalfPlane.admits_iff (tol : ℚ) (h : HalfPlane ℚ) (q : Point ℚ) :
    h.admits tol q ↔ h.a * q.x + h.b * q.y ≤ h.c + tol :=
  decide_eq_true_iff

/-- The half-planes of a row admit exactly the points at which it holds within the tolerance: the
negation of a row moves the tolerance to its other side. -/
theorem Row.admits_iff (tol : ℚ) (r : Row ℚ) (q : Point ℚ) :
    (∀ h ∈ r.halfPlanes, h.admits tol q) ↔ r.HoldsWithin tol q := by
  have hneg : -r.a * q.x + -r.b * q.y ≤ -r.c + tol ↔ r.c - tol ≤ r.lhs q := by
    unfold Row.lhs
    constructor <;> intro h <;> linarith
  unfold Row.halfPlanes Row.HoldsWithin
  cases r.sign with
  | le => simp only [List.forall_mem_singleton, HalfPlane.admits_iff, Row.lhs]
  | ge => simpa only [List.forall_mem_singleton, HalfPlane.admits_iff] using hneg
  | eq =>
    rw [List.forall_mem_cons, List.forall_mem_singleton, HalfPlane.admits_iff,
      HalfPlane.admits_iff]
    exact and_congr_right fun _ => hneg

theorem Point.satisfies_iff (tol : ℚ) (rows : List (Row ℚ)) (q : Point ℚ) :
    q.satisfies tol (halfPlanes rows) ↔ ∀ r ∈ rows, r.HoldsWithin tol q := by
  simp only [Point.satisfies, halfPlanes, List.all_eq_true, List.mem_flatMap]
  constructor
  · intro h r hr
    exact (r.admits_iff tol q).mp fun g hg => h g ⟨r, hr, hg⟩
  · rintro h g ⟨r, hr, hg⟩
    exact (r.admits_iff tol q).mpr (h r hr) g hg

namespace Problem

/-- The points that satisfy every row and are not negative where that is asked for. -/
structure Feasible (p : Problem ℚ) (q : Point ℚ) : Prop where
  rows : ∀ r ∈ p.constraints, r.Holds q
  nonnegX : p.nonnegX → 0 ≤ q.x
  nonnegY : p.nonnegY → 0 ≤ q.y

theorem feasible_iff (p : Problem ℚ) (q : Point ℚ) :
    p.Feasible q ↔ ∀ r ∈ p.rows, r.Holds q := by
  have hx : (nonnegRowX : Row ℚ).Holds q ↔ 0 ≤ q.x := by
    change (0 : ℚ) ≤ 1 * q.x + 0 * q.y ↔ 0 ≤ q.x
    rw [one_mul, zero_mul, add_zero]
  have hy : (nonnegRowY : Row ℚ).Holds q ↔ 0 ≤ q.y := by
    change (0 : ℚ) ≤ 0 * q.x + 1 * q.y ↔ 0 ≤ q.y
    rw [one_mul, zero_mul, zero_add]
  constructor
  · rintro ⟨hr, hnx, hny⟩ r hmem
    simp only [Problem.rows, List.mem_append] at hmem
    rcases hmem with (h | h) | h
    · exact hr r h
    · split at h
      · rename_i hp
        obtain rfl : r = nonnegRowX := by simpa using h
        exact hx.mpr (hnx hp)
      · simp at h
    · split at h
      · rename_i hp
        obtain rfl : r = nonnegRowY := by simpa using h
        exact hy.mpr (hny hp)
      · simp at h
  · intro h
    refine ⟨fun r hr => h r (by simp [Problem.rows, hr]), fun hp => ?_, fun hp => ?_⟩
    · exact hx.mp (h nonnegRowX (by simp [Problem.rows, hp]))
    · exact hy.mp (h nonnegRowY (by simp [Problem.rows, hp]))

instance (p : Problem ℚ) (q : Point ℚ) : Decidable (p.Feasible q) :=
  decidable_of_iff _ (p.feasible_iff q).symm

end Problem

end CornerPoint
