import CornerPoint.Decimal.Grid
import Mathlib.Algebra.Order.Field.Power
import Mathlib.Algebra.Order.Floor.Semifield
import Mathlib.Data.Rat.Floor
import Mathlib.Tactic.Linarith

/-!
Rounding to a decimal grid. An integer is nearest to a number if no half unit lies between them, and
if it is even where one lies exactly. Only one integer is nearest, and which one it is follows the
order of the numbers and their signs, so rounding does.
-/
namespace CornerPoint.Decimal

variable {q r : ℚ} {k l : ℤ}

/-- At most half a unit away, and even if it is that far. -/
structure IsNearest (q : ℚ) (k : ℤ) : Prop where
  close : |q - k| ≤ 1 / 2
  even : |q - k| = 1 / 2 → k % 2 = 0

namespace IsNearest

/-- Two integers are apart by a unit, so their half-unit ranges meet at most in an end, which only
the even one of the two keeps. -/
theorem le (hk : IsNearest q k) (hl : IsNearest r l) (h : q ≤ r) : k ≤ l := by
  by_contra! hlt
  have hgap : (l : ℚ) + 1 ≤ k := by exact_mod_cast hlt
  have hq := (abs_le.mp hk.close).1
  have hr := (abs_le.mp hl.close).2
  have hqk : q - k = -(1 / 2) := by linarith
  have hrl : r - l = 1 / 2 := by linarith
  have hnext : k = l + 1 := by
    have hcast : (k : ℚ) = l + 1 := by linarith
    exact_mod_cast hcast
  have hkeven := hk.even (by rw [hqk, abs_neg, abs_of_pos one_half_pos])
  have hleven := hl.even (by rw [hrl, abs_of_pos one_half_pos])
  omega

theorem unique (hk : IsNearest q k) (hl : IsNearest q l) : k = l :=
  le_antisymm (hk.le hl le_rfl) (hl.le hk le_rfl)

theorem neg (h : IsNearest q k) : IsNearest (-q) (-k) := by
  have hdistance : |-q - ((-k : ℤ) : ℚ)| = |q - k| := by
    rw [Int.cast_neg, neg_sub_neg, abs_sub_comm]
  refine ⟨hdistance.trans_le h.close, fun htie => ?_⟩
  have heven := h.even (hdistance.symm.trans htie)
  omega

theorem self (k : ℤ) : IsNearest k k := by
  refine ⟨by simp, fun htie => ?_⟩
  norm_num at htie

end IsNearest

section Integers

theorem isNearest_roundHalfEven (q : ℚ) : IsNearest q (roundHalfEven q) := by
  have hlow : ((q.floor : ℤ) : ℚ) ≤ q := Int.floor_le q
  have hhigh : q < (q.floor : ℤ) + 1 := Int.lt_floor_add_one q
  unfold roundHalfEven
  simp only
  generalize q.floor = below at hlow hhigh ⊢
  have hbelow : |q - below| = q - below := abs_of_nonneg (by linarith)
  have habove : |q - ((below + 1 : ℤ) : ℚ)| = below + 1 - q := by
    rw [Int.cast_add, Int.cast_one, abs_sub_comm]
    exact abs_of_nonneg (by linarith)
  split_ifs with hless hmore heven
  · exact ⟨by linarith, fun htie => by linarith⟩
  · exact ⟨by linarith, fun htie => by linarith⟩
  · exact ⟨by linarith, fun _ => heven⟩
  · exact ⟨by linarith, fun _ => by omega⟩

theorem roundHalfEven_eq (h : IsNearest q k) : roundHalfEven q = k :=
  (isNearest_roundHalfEven q).unique h

theorem roundHalfEven_mono (h : q ≤ r) : roundHalfEven q ≤ roundHalfEven r :=
  (isNearest_roundHalfEven q).le (isNearest_roundHalfEven r) h

theorem roundHalfEven_neg (q : ℚ) : roundHalfEven (-q) = -roundHalfEven q :=
  roundHalfEven_eq (isNearest_roundHalfEven q).neg

theorem roundHalfEven_intCast (k : ℤ) : roundHalfEven k = k :=
  roundHalfEven_eq (IsNearest.self k)

theorem abs_roundHalfEven_le (q : ℚ) : |(roundHalfEven q : ℚ)| ≤ |q| + 1 := by
  have hclose := (isNearest_roundHalfEven q).close
  have htriangle := abs_sub_abs_le_abs_sub (roundHalfEven q : ℚ) q
  rw [abs_sub_comm] at htriangle
  linarith

end Integers

section Grid

variable {places finer : ℤ}

theorem ten_zpow_pos (e : ℤ) : (0 : ℚ) < 10 ^ e := zpow_pos (by norm_num) e

theorem ten_zpow_neg_mul (e : ℤ) : (10 : ℚ) ^ (-e) * 10 ^ e = 1 := by
  rw [← zpow_add₀ (by norm_num), neg_add_cancel, zpow_zero]

theorem nearestMultiple_multiple (places k : ℤ) :
    nearestMultiple places ((k : ℚ) * 10 ^ (-places)) = k := by
  rw [nearestMultiple, mul_assoc, ten_zpow_neg_mul, mul_one, roundHalfEven_intCast]

theorem onGrid_multiple (places k : ℤ) :
    onGrid places ((k : ℚ) * 10 ^ (-places)) = (k : ℚ) * 10 ^ (-places) := by
  rw [onGrid, nearestMultiple_multiple]

theorem onGrid_onGrid (places : ℤ) (q : ℚ) : onGrid places (onGrid places q) = onGrid places q :=
  onGrid_multiple places _

theorem onGrid_zero (places : ℤ) : onGrid places 0 = 0 := by
  simpa using onGrid_multiple places 0

theorem onGrid_mono (places : ℤ) (h : q ≤ r) : onGrid places q ≤ onGrid places r := by
  have hscaled : q * 10 ^ places ≤ r * 10 ^ places :=
    mul_le_mul_of_nonneg_right h (ten_zpow_pos places).le
  have hmultiple : (nearestMultiple places q : ℚ) ≤ nearestMultiple places r :=
    Int.cast_le.mpr (roundHalfEven_mono hscaled)
  exact mul_le_mul_of_nonneg_right hmultiple (ten_zpow_pos (-places)).le

theorem onGrid_neg (places : ℤ) (q : ℚ) : onGrid places (-q) = -onGrid places q := by
  rw [onGrid, nearestMultiple, neg_mul, roundHalfEven_neg, Int.cast_neg, neg_mul]
  rfl

/-- The unit of a grid is a point of all finer ones. -/
theorem onGrid_unit (h : places ≤ finer) :
    onGrid finer ((10 : ℚ) ^ (-places)) = 10 ^ (-places) := by
  obtain ⟨n, hn⟩ := Int.eq_ofNat_of_zero_le (sub_nonneg.mpr h)
  have hunit : (10 : ℚ) ^ (-places) = ((10 ^ n : ℤ) : ℚ) * 10 ^ (-finer) := by
    rw [Int.cast_pow, Int.cast_ofNat, ← zpow_natCast, ← zpow_add₀ (by norm_num)]
    congr 1
    omega
  rw [hunit, onGrid_multiple]

/-- No point of a grid but zero is smaller than the unit of a finer grid. -/
theorem unit_le_abs_onGrid (h : places ≤ finer) (hq : onGrid places q ≠ 0) :
    (10 : ℚ) ^ (-finer) ≤ |onGrid places q| := by
  have hmultiple : nearestMultiple places q ≠ 0 := by
    intro hzero
    exact hq (by rw [onGrid, hzero, Int.cast_zero, zero_mul])
  have hone : (1 : ℚ) ≤ |(nearestMultiple places q : ℚ)| := by
    exact_mod_cast Int.one_le_abs hmultiple
  calc (10 : ℚ) ^ (-finer) ≤ 10 ^ (-places) := zpow_le_zpow_right₀ (by norm_num) (by omega)
    _ ≤ |(nearestMultiple places q : ℚ)| * 10 ^ (-places) :=
      le_mul_of_one_le_left (ten_zpow_pos (-places)).le hone
    _ = |onGrid places q| := by rw [onGrid, abs_mul, abs_of_pos (ten_zpow_pos (-places))]

theorem onGrid_neg_iff (places : ℤ) (q : ℚ) :
    onGrid places q < 0 ↔ nearestMultiple places q < 0 := by
  have hunit := ten_zpow_pos (-places)
  rw [onGrid, mul_neg_iff, Int.cast_lt_zero]
  constructor
  · rintro (⟨-, h⟩ | ⟨h, -⟩)
    · exact absurd hunit h.not_gt
    · exact h
  · exact fun h => .inr ⟨h, hunit⟩

theorem floor_abs_onGrid (places : ℕ) (q : ℚ) :
    ⌊|onGrid places q|⌋₊ = (nearestMultiple places q).natAbs / 10 ^ places := by
  have habs : |onGrid places q| =
      ((nearestMultiple places q).natAbs : ℚ) / ((10 ^ places : ℕ) : ℚ) := by
    rw [onGrid, abs_mul, abs_of_pos (ten_zpow_pos (-places)), Nat.cast_natAbs, Int.cast_abs,
      zpow_neg, zpow_natCast, Nat.cast_pow, Nat.cast_ofNat, div_eq_mul_inv]
  rw [habs, Nat.floor_div_eq_div]

end Grid

end CornerPoint.Decimal
