import CornerPoint.HalfPlane
import CornerPoint.Objective
import CornerPoint.Scalar.Exact
import Mathlib.Algebra.Order.Field.Rat
import Mathlib.Data.Finset.Max
import Mathlib.Tactic.Linarith
import Mathlib.Tactic.LinearCombination
import Mathlib.Tactic.Positivity
import Mathlib.Tactic.Ring

/-!
The geometry of finitely many half-planes with rational coefficients. From any point of their
intersection one can slide along a direction, without loss of objective value, until a further
half-plane is met; two slides reach a corner. The corners are the extreme points.
-/
namespace CornerPoint

namespace Point

/-- `t` steps from `q` in the direction `d`. -/
def shift (q : Point ℚ) (t : ℚ) (d : Point ℚ) : Point ℚ := ⟨q.x + t * d.x, q.y + t * d.y⟩

def opposite (d : Point ℚ) : Point ℚ := ⟨-d.x, -d.y⟩

theorem shift_opposite (q : Point ℚ) (t : ℚ) (d : Point ℚ) :
    q.shift t d.opposite = q.shift (-t) d := by
  simp only [shift, opposite, mul_neg, neg_mul]

def midpoint (p q : Point ℚ) : Point ℚ := ⟨(p.x + q.x) / 2, (p.y + q.y) / 2⟩

end Point

namespace HalfPlane

/-- How far a point is from the boundary, counted inwards. -/
def slack (h : HalfPlane ℚ) (q : Point ℚ) : ℚ := h.c - (h.a * q.x + h.b * q.y)

/-- How fast the boundary is approached in a direction. -/
def slope (h : HalfPlane ℚ) (d : Point ℚ) : ℚ := h.a * d.x + h.b * d.y

def det (g h : HalfPlane ℚ) : ℚ := g.a * h.b - h.a * g.b

def along (h : HalfPlane ℚ) : Point ℚ := ⟨-h.b, h.a⟩

theorem slack_shift (h : HalfPlane ℚ) (q : Point ℚ) (t : ℚ) (d : Point ℚ) :
    h.slack (q.shift t d) = h.slack q - t * h.slope d := by
  simp only [slack, slope, Point.shift]
  ring

theorem slope_opposite (h : HalfPlane ℚ) (d : Point ℚ) : h.slope d.opposite = -h.slope d := by
  simp only [slope, Point.opposite]
  ring

theorem slope_along (g h : HalfPlane ℚ) : h.slope g.along = g.det h := by
  simp only [slope, along, det]
  ring

end HalfPlane

def Inside (planes : List (HalfPlane ℚ)) (q : Point ℚ) : Prop := ∀ h ∈ planes, 0 ≤ h.slack q

/-- Two half-planes whose boundaries cross, both reached. -/
def Cornered (planes : List (HalfPlane ℚ)) (q : Point ℚ) : Prop :=
  ∃ g ∈ planes, ∃ h ∈ planes, g.slack q = 0 ∧ h.slack q = 0 ∧ g.det h ≠ 0

/-- A member of the set that does not lie midway between two others. -/
def Extreme (S : Point ℚ → Prop) (v : Point ℚ) : Prop :=
  S v ∧ ∀ p q, S p → S q → v = p.midpoint q → p = q

variable {planes : List (HalfPlane ℚ)} {q d : Point ℚ} {o : Objective ℚ}

theorem Objective.value_shift (o : Objective ℚ) (q : Point ℚ) (t : ℚ) (d : Point ℚ) :
    o.value (q.shift t d) = o.value q + t * o.value d := by
  change o.a * (q.x + t * d.x) + o.b * (q.y + t * d.y) =
    o.a * q.x + o.b * q.y + t * (o.a * d.x + o.b * d.y)
  ring

/-- The first boundary that is met in a direction in which some boundary comes nearer. -/
theorem exists_first_hit (hq : Inside planes q) (hd : ∃ h ∈ planes, 0 < h.slope d) :
    ∃ t, 0 ≤ t ∧ Inside planes (q.shift t d) ∧
      ∃ h ∈ planes, 0 < h.slope d ∧ h.slack (q.shift t d) = 0 := by
  let approached := planes.toFinset.filter fun h => 0 < h.slope d
  have hne : approached.Nonempty := by
    obtain ⟨h, hh, hs⟩ := hd
    exact ⟨h, by simp [approached, hh, hs]⟩
  obtain ⟨g, hg, hmin⟩ := approached.exists_min_image (fun h => h.slack q / h.slope d) hne
  simp only [approached, Finset.mem_filter, List.mem_toFinset] at hg hmin
  obtain ⟨hg, hgd⟩ := hg
  have ht : 0 ≤ g.slack q / g.slope d := div_nonneg (hq g hg) hgd.le
  refine ⟨g.slack q / g.slope d, ht, ?_, g, hg, hgd, ?_⟩
  · intro h hh
    rw [HalfPlane.slack_shift]
    by_cases hs : 0 < h.slope d
    · have hle := (le_div_iff₀ hs).mp (hmin h ⟨hh, hs⟩)
      linarith
    · have hle := mul_nonpos_of_nonneg_of_nonpos ht (not_lt.mp hs)
      have := hq h hh
      linarith
  · rw [HalfPlane.slack_shift, div_mul_cancel₀ _ hgd.ne', sub_self]

/-- A ray that meets no boundary stays inside. -/
theorem inside_ray (hq : Inside planes q) (hd : ∀ h ∈ planes, h.slope d ≤ 0) {t : ℚ}
    (ht : 0 ≤ t) : Inside planes (q.shift t d) := by
  intro h hh
  have hle := mul_nonpos_of_nonneg_of_nonpos ht (hd h hh)
  have := hq h hh
  rw [HalfPlane.slack_shift]
  linarith

/-- Along a ray inside, an objective that is bounded cannot grow. -/
theorem value_nonpos_of_ray (hq : Inside planes q) {bound : ℚ}
    (hb : ∀ p, Inside planes p → o.value p ≤ bound) (hd : ∀ h ∈ planes, h.slope d ≤ 0) :
    o.value d ≤ 0 := by
  by_contra hn
  have hpos : 0 < o.value d := not_le.mp hn
  have hgap : 0 ≤ bound - o.value q := sub_nonneg.mpr (hb q hq)
  have ht : 0 ≤ (bound - o.value q + 1) / o.value d := by positivity
  have hlast := hb _ (inside_ray hq hd ht)
  rw [Objective.value_shift, div_mul_cancel₀ _ hpos.ne'] at hlast
  linarith

theorem Objective.value_opposite (o : Objective ℚ) (d : Point ℚ) :
    o.value d.opposite = -o.value d := by
  change o.a * -d.x + o.b * -d.y = -(o.a * d.x + o.b * d.y)
  ring

theorem exists_slide_forward (hq : Inside planes q) (hv : 0 ≤ o.value d)
    (hd : ∃ h ∈ planes, 0 < h.slope d) :
    ∃ t, Inside planes (q.shift t d) ∧ o.value q ≤ o.value (q.shift t d) ∧
      ∃ h ∈ planes, h.slope d ≠ 0 ∧ h.slack (q.shift t d) = 0 := by
  obtain ⟨t, ht, hin, h, hh, hs, hz⟩ := exists_first_hit hq hd
  refine ⟨t, hin, ?_, h, hh, hs.ne', hz⟩
  rw [Objective.value_shift]
  have := mul_nonneg ht hv
  linarith

/-- Slide along a line that some boundary crosses, in the direction that does not lose, until a
boundary that crosses the line is reached. -/
theorem exists_slide (hq : Inside planes q) {bound : ℚ}
    (hb : ∀ p, Inside planes p → o.value p ≤ bound) (hd : ∃ h ∈ planes, h.slope d ≠ 0) :
    ∃ t, Inside planes (q.shift t d) ∧ o.value q ≤ o.value (q.shift t d) ∧
      ∃ h ∈ planes, h.slope d ≠ 0 ∧ h.slack (q.shift t d) = 0 := by
  by_cases hforward : 0 ≤ o.value d ∧ ∃ h ∈ planes, 0 < h.slope d
  · exact exists_slide_forward hq hforward.1 hforward.2
  -- Otherwise the way back neither loses nor is a ray, since the objective is bounded.
  have hback : o.value d ≤ 0 ∧ ∃ h ∈ planes, h.slope d < 0 := by
    by_cases hv : 0 ≤ o.value d
    · have hray : ∀ h ∈ planes, h.slope d ≤ 0 := by
        intro h hh
        by_contra hn
        exact hforward ⟨hv, h, hh, not_le.mp hn⟩
      obtain ⟨h, hh, hs⟩ := hd
      exact ⟨value_nonpos_of_ray hq hb hray, h, hh, lt_of_le_of_ne (hray h hh) hs⟩
    · refine ⟨(not_le.mp hv).le, ?_⟩
      by_contra hn
      push Not at hn
      have hray : ∀ h ∈ planes, h.slope d.opposite ≤ 0 := by
        intro h hh
        rw [HalfPlane.slope_opposite]
        have := hn h hh
        linarith
      have := value_nonpos_of_ray hq hb hray
      rw [Objective.value_opposite] at this
      exact hv (by linarith)
  obtain ⟨hv, h, hh, hs⟩ := hback
  have hv' : 0 ≤ o.value d.opposite := by
    rw [Objective.value_opposite]
    linarith
  have hs' : 0 < h.slope d.opposite := by
    rw [HalfPlane.slope_opposite]
    linarith
  obtain ⟨t, hin, hle, g, hg, hgs, hz⟩ := exists_slide_forward hq hv' ⟨h, hh, hs'⟩
  rw [Point.shift_opposite] at hin hle hz
  rw [HalfPlane.slope_opposite, neg_ne_zero] at hgs
  exact ⟨-t, hin, hle, g, hg, hgs, hz⟩

/-- A half-plane with a boundary of its own is parallel to at most one of two that cross. -/
theorem HalfPlane.exists_det_ne {g h f : HalfPlane ℚ} (hcross : g.det h ≠ 0)
    (hf : f.a ≠ 0 ∨ f.b ≠ 0) : f.det g ≠ 0 ∨ f.det h ≠ 0 := by
  by_contra hn
  push Not at hn
  obtain ⟨hg, hh⟩ := hn
  simp only [det] at hg hh hcross
  rcases hf with ha | hb
  · apply mul_ne_zero ha hcross
    linear_combination g.a * hh - h.a * hg
  · apply mul_ne_zero hb hcross
    linear_combination g.b * hh - h.b * hg

theorem exists_corner (hq : Inside planes q) {bound : ℚ}
    (hb : ∀ p, Inside planes p → o.value p ≤ bound)
    (hcross : ∃ g ∈ planes, ∃ h ∈ planes, g.det h ≠ 0) :
    ∃ v, Inside planes v ∧ o.value q ≤ o.value v ∧ Cornered planes v := by
  obtain ⟨g, hg, h, hh, hdet⟩ := hcross
  -- The first slide is at right angles to a boundary, the second along the one that it met.
  have hstart : g.slope ⟨g.a, g.b⟩ ≠ 0 := by
    intro hz
    simp only [HalfPlane.slope] at hz
    apply hdet
    have ha : g.a = 0 := by nlinarith [mul_self_nonneg g.a, mul_self_nonneg g.b]
    have hb : g.b = 0 := by nlinarith [mul_self_nonneg g.a, mul_self_nonneg g.b]
    simp [HalfPlane.det, ha, hb]
  obtain ⟨t, hin, hle, f, hf, hfs, hfz⟩ := exists_slide hq hb ⟨g, hg, hstart⟩
  have hfn : f.a ≠ 0 ∨ f.b ≠ 0 := by
    by_contra hn
    push Not at hn
    exact hfs (by simp [HalfPlane.slope, hn])
  have hcross : ∃ k ∈ planes, k.slope f.along ≠ 0 := by
    rcases HalfPlane.exists_det_ne hdet hfn with hfg | hfh
    · exact ⟨g, hg, by rwa [HalfPlane.slope_along]⟩
    · exact ⟨h, hh, by rwa [HalfPlane.slope_along]⟩
  obtain ⟨u, hin', hle', k, hk, hks, hkz⟩ := exists_slide hin hb hcross
  rw [HalfPlane.slope_along] at hks
  refine ⟨_, hin', hle.trans hle', f, hf, k, hk, ?_, hkz, hks⟩
  have hself : f.slope f.along = 0 := by
    rw [HalfPlane.slope_along]
    exact sub_self _
  rw [HalfPlane.slack_shift, hself, mul_zero, sub_zero]
  exact hfz

/-- Where every boundary that is reached runs in the direction `d`, there is room to move along
`d` both ways. -/
theorem exists_room (hq : Inside planes q)
    (hd : ∀ h ∈ planes, h.slack q = 0 → h.slope d = 0) :
    ∃ room, 0 < room ∧ ∀ t, |t| ≤ room → Inside planes (q.shift t d) := by
  induction planes with
  | nil => exact ⟨1, one_pos, fun t _ h hh => by simp at hh⟩
  | cons h planes ih =>
    obtain ⟨room, hpos, hroom⟩ := ih (fun g hg => hq g (List.mem_cons_of_mem h hg))
      (fun g hg => hd g (List.mem_cons_of_mem h hg))
    have hown : ∃ own, 0 < own ∧ ∀ t, |t| ≤ own → 0 ≤ h.slack (q.shift t d) := by
      have hs := hq h (List.mem_cons_self ..)
      by_cases hz : h.slope d = 0
      · refine ⟨1, one_pos, fun t _ => ?_⟩
        rw [HalfPlane.slack_shift, hz, mul_zero, sub_zero]
        exact hs
      · have hne : h.slack q ≠ 0 := fun h0 => hz (hd h (List.mem_cons_self ..) h0)
        have habs : 0 < |h.slope d| := abs_pos.mpr hz
        refine ⟨h.slack q / |h.slope d|, div_pos (lt_of_le_of_ne hs hne.symm) habs, ?_⟩
        intro t ht
        rw [HalfPlane.slack_shift]
        have hle : t * h.slope d ≤ h.slack q := by
          calc t * h.slope d ≤ |t * h.slope d| := le_abs_self _
            _ = |t| * |h.slope d| := abs_mul ..
            _ ≤ h.slack q := (le_div_iff₀ habs).mp ht
        linarith
    obtain ⟨own, hpos', hown⟩ := hown
    refine ⟨min room own, lt_min hpos hpos', ?_⟩
    intro t ht g hg
    rcases List.mem_cons.mp hg with rfl | hg
    · exact hown t (ht.trans (min_le_right ..))
    · exact hroom t (ht.trans (min_le_left ..)) g hg

/-- Away from corners, all boundaries that are reached run in one direction. -/
theorem exists_common_direction (hn : ¬ Cornered planes q) :
    ∃ d : Point ℚ, (d.x ≠ 0 ∨ d.y ≠ 0) ∧ ∀ h ∈ planes, h.slack q = 0 → h.slope d = 0 := by
  by_cases hg : ∃ g ∈ planes, g.slack q = 0 ∧ (g.a ≠ 0 ∨ g.b ≠ 0)
  · obtain ⟨g, hg, hz, hab⟩ := hg
    refine ⟨g.along, ?_, ?_⟩
    · rcases hab with ha | hb
      · exact Or.inr ha
      · exact Or.inl (neg_ne_zero.mpr hb)
    · intro h hh hhz
      rw [HalfPlane.slope_along]
      by_contra hdet
      exact hn ⟨g, hg, h, hh, hz, hhz, hdet⟩
  · push Not at hg
    refine ⟨⟨1, 0⟩, Or.inl one_ne_zero, ?_⟩
    intro h hh hz
    have hab := hg h hh hz
    simp [HalfPlane.slope, hab]

theorem cornered_of_extreme (h : Extreme (Inside planes) q) : Cornered planes q := by
  by_contra hn
  obtain ⟨d, hd, hrun⟩ := exists_common_direction hn
  obtain ⟨room, hpos, hroom⟩ := exists_room h.1 hrun
  have hend : q.shift room d = q.shift (-room) d := by
    apply h.2 _ _ (hroom room (abs_of_pos hpos).le)
      (hroom (-room) (by rw [abs_neg, abs_of_pos hpos]))
    obtain ⟨x, y⟩ := q
    simp only [Point.midpoint, Point.shift, Point.mk.injEq]
    constructor <;> ring
  simp only [Point.shift, Point.mk.injEq, add_right_inj] at hend
  rcases hd with hx | hy
  · have := mul_ne_zero hpos.ne' hx
    apply this
    linarith [hend.1]
  · have := mul_ne_zero hpos.ne' hy
    apply this
    linarith [hend.2]

/-- Two boundaries that cross have one point in common. -/
theorem HalfPlane.eq_of_slack_eq {g h : HalfPlane ℚ} {p q : Point ℚ} (hdet : g.det h ≠ 0)
    (hg : g.slack p = g.slack q) (hh : h.slack p = h.slack q) : p = q := by
  simp only [slack, det] at hg hh hdet
  obtain ⟨px, py⟩ := p
  obtain ⟨qx, qy⟩ := q
  simp only at hg hh
  simp only [Point.mk.injEq]
  constructor
  · apply mul_left_cancel₀ hdet
    linear_combination g.b * hh - h.b * hg
  · apply mul_left_cancel₀ hdet
    linear_combination h.a * hg - g.a * hh

theorem HalfPlane.slack_midpoint (h : HalfPlane ℚ) (p q : Point ℚ) :
    h.slack (p.midpoint q) = (h.slack p + h.slack q) / 2 := by
  simp only [slack, Point.midpoint]
  ring

theorem extreme_iff_cornered :
    Extreme (Inside planes) q ↔ Inside planes q ∧ Cornered planes q := by
  constructor
  · intro h
    exact ⟨h.1, cornered_of_extreme h⟩
  · rintro ⟨hin, g, hg, h, hh, hgz, hhz, hdet⟩
    refine ⟨hin, ?_⟩
    rintro p r hp hr rfl
    rw [HalfPlane.slack_midpoint] at hgz hhz
    have hgp := hp g hg
    have hgr := hr g hg
    have hhp := hp h hh
    have hhr := hr h hh
    exact HalfPlane.eq_of_slack_eq hdet (by linarith) (by linarith)

end CornerPoint
