import CornerPoint.Scalar.Binary64
import Mathlib

/-!
The order of doubles. All but the undefined number can be compared with each other: the infinite
ones stand outermost, then the sign decides, then the exponent and then the significand.
-/
namespace CornerPoint.Binary64

open Float.Model (UnpackedFloat)

/-- Infinite, finite or zero, and on which side of zero. -/
def side : UnpackedFloat → ℤ
  | .infinity .negative => -2
  | .finite .negative .. => -1
  | .zero _ | .notANumber => 0
  | .finite .positive .. => 1
  | .infinity .positive => 2

/-- The exponent and then the significand, counted away from zero. -/
def magnitude : UnpackedFloat → ℤ ×ₗ ℤ
  | .finite .negative m e _ => toLex (-e, -m)
  | .finite .positive m e _ => toLex (e, m)
  | _ => toLex (0, 0)

/-- The place of a number in the order. The two zeros share one. -/
def rank (u : UnpackedFloat) : ℤ ×ₗ ℤ ×ₗ ℤ := toLex (side u, magnitude u)

section Unpacked

variable {u v : UnpackedFloat}

theorem compare_of_side_ne (hu : u ≠ .notANumber) (hv : v ≠ .notANumber) (h : side u ≠ side v) :
    u.compare v = some (compare (side u) (side v)) := by
  rcases u with (_ | _) | _ | _ | ⟨_ | _, m, e, hm⟩ <;>
    rcases v with (_ | _) | _ | _ | ⟨_ | _, n, k, hn⟩ <;>
    first
    | rfl
    | exact (h rfl).elim
    | exact (hu rfl).elim
    | exact (hv rfl).elim

theorem compare_of_side_eq (hu : u ≠ .notANumber) (hv : v ≠ .notANumber) (h : side u = side v) :
    ∃ o, u.compare v = some o ∧ (o = .lt ↔ magnitude u < magnitude v) ∧
      (o = .eq ↔ magnitude u = magnitude v) := by
  rcases u with (_ | _) | _ | _ | ⟨_ | _, m, e, hm⟩ <;>
    rcases v with (_ | _) | _ | _ | ⟨_ | _, n, k, hn⟩ <;>
    simp only [side, reduceCtorEq, ne_eq, not_true_eq_false] at h hu hv <;> try omega
  case infinity.negative.infinity.negative => exact ⟨_, rfl, by decide, by decide⟩
  case infinity.positive.infinity.positive => exact ⟨_, rfl, by decide, by decide⟩
  case zero.zero => exact ⟨_, rfl, by simp [magnitude], by simp [magnitude]⟩
  case finite.negative.finite.negative =>
    refine ⟨_, rfl, ?_, ?_⟩
    · simp only [magnitude, Prod.Lex.toLex_lt_toLex, Ordering.swap_eq_lt, Ordering.then_eq_gt,
        compare_gt_iff_gt, compare_eq_iff_eq]
      omega
    · simp only [magnitude, toLex_inj, Prod.mk.injEq, Ordering.swap_eq_eq, Ordering.then_eq_eq,
        compare_eq_iff_eq]
      omega
  case finite.positive.finite.positive =>
    refine ⟨_, rfl, ?_, ?_⟩
    · simp only [magnitude, Prod.Lex.toLex_lt_toLex, Ordering.then_eq_lt, compare_lt_iff_lt,
        compare_eq_iff_eq]
      omega
    · simp only [magnitude, toLex_inj, Prod.mk.injEq, Ordering.then_eq_eq, compare_eq_iff_eq]
      omega

theorem exists_compare (hu : u ≠ .notANumber) (hv : v ≠ .notANumber) :
    ∃ o, u.compare v = some o ∧ (o = .lt ↔ rank u < rank v) ∧ (o = .eq ↔ rank u = rank v) := by
  simp only [rank, Prod.Lex.toLex_lt_toLex, toLex_inj, Prod.mk.injEq]
  by_cases h : side u = side v
  · obtain ⟨o, ho, hlt, heq⟩ := compare_of_side_eq hu hv h
    exact ⟨o, ho, by simp [h, hlt], by simp [h, heq]⟩
  · refine ⟨_, compare_of_side_ne hu hv h, ?_, ?_⟩
    · simp [compare_lt_iff_lt, h]
    · simp [h]

end Unpacked

section Packed

variable {x y : Float}

theorem unpack_ne_of_isNaN (h : x.isNaN = false) : x.toModel.unpack ≠ .notANumber := by
  intro hx
  change x.toModel.unpack.isNaN = false at h
  rw [hx] at h
  cases h

theorem lt_iff_rank (hx : x.isNaN = false) (hy : y.isNaN = false) :
    x < y ↔ rank x.toModel.unpack < rank y.toModel.unpack := by
  obtain ⟨o, ho, hlt, -⟩ := exists_compare (unpack_ne_of_isNaN hx) (unpack_ne_of_isNaN hy)
  rw [← hlt]
  change decide ((x.toModel.unpack.compare y.toModel.unpack == some .lt) = true) = true ↔ _
  simp [ho]

theorem le_iff_rank (hx : x.isNaN = false) (hy : y.isNaN = false) :
    x ≤ y ↔ rank x.toModel.unpack ≤ rank y.toModel.unpack := by
  obtain ⟨o, ho, hlt, heq⟩ := exists_compare (unpack_ne_of_isNaN hx) (unpack_ne_of_isNaN hy)
  rw [le_iff_lt_or_eq, ← hlt, ← heq]
  change decide ((x.toModel.unpack.compare y.toModel.unpack).any (·.isLE) = true) = true ↔ _
  cases o <;> simp [ho]

end Packed

end CornerPoint.Binary64
