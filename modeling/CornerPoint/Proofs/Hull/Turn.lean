import CornerPoint.Proofs.Corner
import CornerPoint.Proofs.Hull

/-!
Turns between points that lie in order from left to right. A direction from a point to a later one
goes to the right or straight up, and such directions are in a linear order by the turn from one to
the other. What is said of one order holds of the other after a half-turn of the plane.
-/
namespace CornerPoint

/-- The turn from one direction to another, positive to the left. -/
def turn (u v : ℚ × ℚ) : ℚ := u.1 * v.2 - u.2 * v.1

/-- To the right, or straight up. -/
def Forward (u : ℚ × ℚ) : Prop := 0 < u.1 ∨ u.1 = 0 ∧ 0 < u.2

section Turn

variable {u v w : ℚ × ℚ}

theorem turn_add_left (u v w : ℚ × ℚ) : turn (u + v) w = turn u w + turn v w := by
  simp only [turn, Prod.fst_add, Prod.snd_add]
  ring

theorem turn_add_right (u v w : ℚ × ℚ) : turn u (v + w) = turn u v + turn u w := by
  simp only [turn, Prod.fst_add, Prod.snd_add]
  ring

theorem turn_swap (u v : ℚ × ℚ) : turn v u = -turn u v := by
  simp only [turn]
  ring

@[simp] theorem turn_self (u : ℚ × ℚ) : turn u u = 0 := by
  simp only [turn]
  ring

theorem Forward.fst_nonneg (h : Forward u) : 0 ≤ u.1 := by
  rcases h with h | ⟨h, -⟩
  · exact h.le
  · exact h.ge

/-- Of two forward directions, one that others turn left to is not the one straight up. -/
theorem Forward.fst_pos_of_turn (hu : Forward u) (hv : Forward v) (h : 0 < turn u v) :
    0 < u.1 := by
  rcases hu with hu | ⟨hu, hup⟩
  · exact hu
  · have hle : u.2 * v.1 ≥ 0 := mul_nonneg hup.le hv.fst_nonneg
    rw [turn, hu, zero_mul] at h
    linarith

/-- The three turns between three directions, weighted by the directions themselves. -/
theorem turn_mul_fst (u v w : ℚ × ℚ) : turn u w * v.1 = turn u v * w.1 + turn v w * u.1 := by
  simp only [turn]
  ring

theorem turn_mul_snd (u v w : ℚ × ℚ) : turn u w * v.2 = turn u v * w.2 + turn v w * u.2 := by
  simp only [turn]
  ring

/-- Only no direction at all is without a turn from two others that differ. -/
theorem eq_zero_of_turn_eq_zero (huv : turn u v ≠ 0) (huw : turn u w = 0) (hvw : turn v w = 0) :
    w = 0 := by
  have hfst := turn_mul_fst u w v
  have hsnd := turn_mul_snd u w v
  rw [turn_swap v w, hvw, huw, neg_zero, zero_mul, zero_mul, add_zero] at hfst hsnd
  exact Prod.ext ((mul_eq_zero.mp hfst).resolve_left huv) ((mul_eq_zero.mp hsnd).resolve_left huv)

theorem Forward.turn_pos_of_pos_of_nonneg (hu : Forward u) (hv : Forward v) (hw : Forward w)
    (huv : 0 < turn u v) (hvw : 0 ≤ turn v w) : 0 < turn u w := by
  have hu1 : 0 < u.1 := hu.fst_pos_of_turn hv huv
  rcases hw with hw1 | ⟨hw1, hw2⟩
  · have hsum : 0 < turn u w * v.1 := by
      rw [turn_mul_fst u v w]
      exact add_pos_of_pos_of_nonneg (mul_pos huv hw1) (mul_nonneg hvw hu1.le)
    exact pos_of_mul_pos_left hsum hv.fst_nonneg
  · rw [turn, hw1, mul_zero, sub_zero]
    exact mul_pos hu1 hw2

theorem Forward.turn_pos_of_nonneg_of_pos (hu : Forward u) (hv : Forward v) (hw : Forward w)
    (huv : 0 ≤ turn u v) (hvw : 0 < turn v w) : 0 < turn u w := by
  have hv1 : 0 < v.1 := hv.fst_pos_of_turn hw hvw
  have hu1 : 0 < u.1 := by
    rcases hu with hu | ⟨hu, hup⟩
    · exact hu
    · have hpos : 0 < u.2 * v.1 := mul_pos hup hv1
      rw [turn, hu, zero_mul] at huv
      linarith
  have hsum : 0 < turn u w * v.1 := by
    rw [turn_mul_fst u v w]
    exact add_pos_of_nonneg_of_pos (mul_nonneg huv hw.fst_nonneg) (mul_pos hvw hu1)
  exact pos_of_mul_pos_left hsum hv1.le

end Turn

namespace Point

def coords (p : Point ℚ) : ℚ × ℚ := (p.x, p.y)

/-- The way from one point to another. -/
def way (p q : Point ℚ) : ℚ × ℚ := q.coords - p.coords

theorem coords_injective : Function.Injective coords := by
  rintro ⟨x, y⟩ ⟨x', y'⟩ h
  obtain ⟨rfl, rfl⟩ := Prod.mk.inj h
  rfl

theorem way_add_way (p q r : Point ℚ) : way p q + way q r = way p r :=
  sub_add_sub_cancel' q.coords p.coords r.coords

theorem forward_way_iff (p q : Point ℚ) : Forward (way p q) ↔ before p q := by
  rw [before_iff]
  change 0 < q.x - p.x ∨ q.x - p.x = 0 ∧ 0 < q.y - p.y ↔ p.x < q.x ∨ p.x = q.x ∧ p.y < q.y
  rw [sub_pos, sub_pos, sub_eq_zero, eq_comm]

theorem not_before_self (p : Point ℚ) : ¬before p p := by
  simp [before_weakOrder.irrefl p]

theorem not_before_of_before {p q : Point ℚ} (h : before p q) : ¬before q p := by
  simp [before_weakOrder.asymm h]

theorem cross_eq_turn (o a b : Point ℚ) : cross o a b = turn (way o a) (way o b) := rfl

theorem cross_eq_turn_next (o a b : Point ℚ) : cross o a b = turn (way o a) (way a b) := by
  rw [cross_eq_turn, ← way_add_way o a b, turn_add_right, turn_self, zero_add]

theorem cross_rotate (o a b : Point ℚ) : cross a b o = cross o a b := by
  rw [cross_eq_turn, cross_eq_turn]
  simp only [turn, way, coords, Prod.fst_sub, Prod.snd_sub]
  ring

theorem cross_swap (o a b : Point ℚ) : cross o b a = -cross o a b := by
  rw [cross_eq_turn, cross_eq_turn, turn_swap]

@[simp] theorem cross_self_left (o b : Point ℚ) : cross o o b = 0 := by
  rw [cross_eq_turn_next, way, sub_self]
  simp [turn]

@[simp] theorem cross_self_right (o a : Point ℚ) : cross o a a = 0 := by
  rw [cross_eq_turn, turn_self]

variable {a b c d : Point ℚ}

/-- Two left turns in a row, and no left turn is undone by leaving out a point. -/
theorem cross_pos_of_consecutive (hab : before a b) (hbc : before b c) (hcd : before c d)
    (habc : 0 < cross a b c) (hbcd : 0 < cross b c d) : 0 < cross a b d ∧ 0 < cross a c d := by
  rw [← forward_way_iff] at hab hbc hcd
  rw [cross_eq_turn_next] at habc hbcd
  have hcross : 0 < turn (way a b) (way c d) :=
    hab.turn_pos_of_pos_of_nonneg hbc hcd habc hbcd.le
  constructor
  · rw [cross_eq_turn_next, ← way_add_way b c d, turn_add_right]
    exact add_pos habc hcross
  · rw [cross_eq_turn_next, ← way_add_way a b c, turn_add_left]
    exact add_pos hcross hbcd

/-- A point on the left of the line from `m` to `n` is on the left of any two points that lie in
order on a left turn from `m` to `n`. -/
theorem cross_pos_of_beyond {m n u : Point ℚ} (hab : before a b) (hmn : before m n)
    (hmu : before m u) (hun : before u n) (hma : 0 ≤ cross m a b) (hbn : 0 < cross a b n)
    (hu : 0 < cross m n u) : 0 < cross a b u := by
  rw [← forward_way_iff] at hab hmn hmu hun
  -- The line through `a` and `b` is compared with the one through `m` and `n`: where it is the
  -- flatter one, `u` is seen from `m`, and otherwise from `n`.
  rcases le_or_gt 0 (turn (way a b) (way m n)) with hflat | hsteep
  · have hleft : 0 < turn (way a b) (way m u) :=
      hab.turn_pos_of_nonneg_of_pos hmn hmu hflat hu
    have hsum : cross a b u = cross m a b + turn (way a b) (way m u) := by
      rw [cross_eq_turn_next m a b, turn_swap, ← way_add_way m a u, turn_add_right,
        cross_eq_turn a b u]
      ring
    rw [hsum]
    exact add_pos_of_nonneg_of_pos hma hleft
  · have hun' : 0 < turn (way u n) (way m n) := by
      rw [cross_swap m u n, cross_eq_turn_next] at hu
      rwa [← way_add_way m u n, turn_add_right, turn_self, add_zero, turn_swap]
    have hback : 0 < turn (way u n) (way a b) := by
      refine hun.turn_pos_of_pos_of_nonneg hmn hab hun' ?_
      rw [turn_swap]
      exact neg_nonneg.mpr hsteep.le
    have hsum : cross a b u = cross a b n + turn (way u n) (way a b) := by
      rw [cross_eq_turn a b n, ← way_add_way a u n, turn_add_right, turn_swap (way a b),
        cross_eq_turn a b u]
      ring
    rw [hsum]
    exact add_pos hbn hback

/-- Apart from `s` itself, what is on the left of the sides at a corner `s` is on the left of the
line through `s` along the way from one neighbour to the other. -/
theorem turn_pos_of_corner {s q : Point ℚ} (hcorner : 0 < cross a s b) (ha : 0 ≤ cross a s q)
    (hb : 0 ≤ cross s b q) (hne : q ≠ s) : 0 < turn (way a b) (way s q) := by
  have hsum : turn (way a b) (way s q) = cross a s q + cross s b q := by
    rw [← way_add_way a s b, turn_add_left, cross_eq_turn_next a s q, cross_eq_turn s b q]
  rw [hsum]
  refine lt_of_le_of_ne (add_nonneg ha hb) fun hzero => hne ?_
  obtain ⟨haz, hbz⟩ := (add_eq_zero_iff_of_nonneg ha hb).mp hzero.symm
  rw [cross_eq_turn_next] at hcorner haz
  rw [cross_eq_turn] at hbz
  have hway : way s q = 0 := eq_zero_of_turn_eq_zero hcorner.ne' haz hbz
  exact coords_injective (sub_eq_zero.mp hway)

section Opposite

theorem coords_opposite (p : Point ℚ) : p.opposite.coords = -p.coords := rfl

theorem cross_opposite (o a b : Point ℚ) :
    cross o.opposite a.opposite b.opposite = cross o a b := by
  rw [cross_eq_turn, cross_eq_turn]
  simp only [turn, way, coords, opposite, Prod.fst_sub, Prod.snd_sub]
  ring

theorem before_opposite (p q : Point ℚ) : before p.opposite q.opposite = before q p := by
  rw [Bool.eq_iff_iff, before_iff, before_iff]
  simp only [opposite, neg_lt_neg_iff, neg_inj, eq_comm]

end Opposite

end Point

end CornerPoint
