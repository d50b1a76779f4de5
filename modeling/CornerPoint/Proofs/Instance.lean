import CornerPoint.Instance
import CornerPoint.Proofs.Chance
import CornerPoint.Proofs.ExactSolution
import CornerPoint.Proofs.Pairs

/-!
Random problems have a solution. Their rows keep well away from the origin, so the origin is a
corner of each of them, and every other corner, even one that is only admitted by the tolerance, has
a positive value.
-/
namespace CornerPoint

open Chance

/-- An upper bound with coefficients as they are drawn. -/
structure Row.Drawn (r : Row ℚ) : Prop where
  sign : r.sign = .le
  a : 0.5 ≤ r.a ∧ r.a < 5.0
  b : 0.5 ≤ r.b ∧ r.b < 5.0
  c : 10.0 ≤ r.c ∧ r.c < 60.0

/-- An objective with coefficients as they are drawn. -/
structure Objective.Drawn (f : Objective ℚ) : Prop where
  a : 1.0 ≤ f.a ∧ f.a < 4.0
  b : 1.0 ≤ f.b ∧ f.b < 4.0

structure Problem.Drawn (n : ℕ) (p : Problem ℚ) : Prop where
  rows : p.constraints.length = n ∧ ∀ r ∈ p.constraints, r.Drawn
  objective : p.objective.Drawn
  nonnegX : p.nonnegX = true
  nonnegY : p.nonnegY = true

section Draws

variable {σ : Type} {source : Source σ ℚ}

theorem Instance.row_drawn (h : source.InUnit) (j : ℕ) : Certain Row.Drawn (row source j) :=
  (h.between (by norm_num)).bind fun _ ha =>
    (h.between (by norm_num)).bind fun _ hb =>
      (h.between (by norm_num)).bind fun _ hc =>
        Certain.pure ⟨rfl, ha, hb, hc⟩

/-- Whatever sense is decided on, the coefficients lie in their ranges. -/
theorem Instance.problem_drawn (h : source.InUnit) (n : ℕ) :
    Certain (Problem.Drawn n) (problem source n) := by
  refine (Certain.mapM (row_drawn h) (List.range n)).bind fun rows ⟨hlength, hrows⟩ => ?_
  refine Certain.bind (P := fun _ => True) (fun _ => trivial) fun decided _ => ?_
  refine (h.between (by norm_num)).bind fun a ha => (h.between (by norm_num)).bind fun b hb => ?_
  exact Certain.pure ⟨⟨hlength.trans (List.length_range), hrows⟩, ⟨ha, hb⟩, rfl, rfl⟩

end Draws

def Point.origin : Point ℚ := ⟨0, 0⟩

theorem Objective.value_origin (f : Objective ℚ) : f.value .origin = 0 := by
  change f.a * 0 + f.b * 0 = 0
  rw [mul_zero, mul_zero, add_zero]

/-- On the boundary of a drawn row at least one coordinate is well above the tolerance, which
outweighs the other even if that is a little below zero. -/
theorem Objective.Drawn.value_pos {f : Objective ℚ} (hf : f.Drawn) {r : Row ℚ} (hr : r.Drawn)
    {q : Point ℚ} (hx : -1e-6 ≤ q.x) (hy : -1e-6 ≤ q.y) (hq : r.line.Contains q) :
    0 < f.value q := by
  have hline : r.a * q.x + r.b * q.y = r.c := hq
  have hx' : 0 ≤ q.x + 1e-6 := by linarith
  have hy' : 0 ≤ q.y + 1e-6 := by linarith
  have hlhs : r.c ≤ 5 * (q.x + 1e-6) + 5 * (q.y + 1e-6) := by
    have hax := mul_le_mul_of_nonneg_right hr.a.2.le hx'
    have hby := mul_le_mul_of_nonneg_right hr.b.2.le hy'
    linarith [hr.a.1, hr.b.1]
  have hvalue : q.x + 1e-6 + (q.y + 1e-6) ≤ f.value q + 1e-6 * (f.a + f.b) := by
    change _ ≤ f.a * q.x + f.b * q.y + _
    have hax := mul_le_mul_of_nonneg_right hf.a.1 hx'
    have hby := mul_le_mul_of_nonneg_right hf.b.1 hy'
    linarith
  linarith [hr.c.1, hf.a.2, hf.b.2]

/-- The two rows for variables that may not be negative meet in the origin. -/
theorem origin_mem_crossingPoints {eps : ℚ} (heps : eps ≤ 1) {rows : List (Row ℚ)}
    (h : [Problem.nonnegRowX, Problem.nonnegRowY].Sublist rows) :
    .origin ∈ Line.crossingPoints eps (rows.map Row.line) := by
  have hdet : (Problem.nonnegRowX : Row ℚ).line.det Problem.nonnegRowY.line = 1 := by
    decide +kernel
  have hsolution :
      (Problem.nonnegRowX : Row ℚ).line.solution Problem.nonnegRowY.line = .origin := by
    decide +kernel
  have hpair : (Problem.nonnegRowX.line, Problem.nonnegRowY.line) ∈ pairs (rows.map Row.line) :=
    (pairs_sublist (h.map Row.line)).subset (List.mem_singleton_self _)
  refine List.mem_filterMap.mpr ⟨_, hpair, ?_⟩
  simp only [hdet, hsolution, abs_one, if_neg heps.not_gt]

namespace Problem

variable {n : ℕ} {p : Problem ℚ} {q : Point ℚ}

theorem Drawn.rows_eq (h : p.Drawn n) : p.rows = p.constraints ++ [nonnegRowX, nonnegRowY] := by
  simp [Problem.rows, h.nonnegX, h.nonnegY]

/-- The origin violates no row, and it is where the last two rows meet. -/
theorem Drawn.origin_mem (h : p.Drawn n) : .origin ∈ p.feasibleCrossings Options.default := by
  refine mem_feasibleCrossings.mpr ⟨origin_mem_crossingPoints (by decide +kernel) ?_, ?_⟩
  · rw [h.rows_eq]
    exact List.sublist_append_right ..
  · have hfeasible : p.Feasible .origin := by
      refine ⟨fun r hr => ?_, fun _ => le_refl (0 : ℚ), fun _ => le_refl (0 : ℚ)⟩
      have hdrawn := h.rows.2 r hr
      have hlhs : r.lhs .origin = 0 := by simp [Row.lhs, Point.origin]
      rw [Row.Holds, hdrawn.sign]
      change r.lhs .origin ≤ r.c
      linarith [hdrawn.c.1]
    intro r hr
    exact ((p.feasible_iff _).mp hfeasible r hr).within (by decide +kernel)

/-- A boundary line of the problem is that of a drawn row or one of the axes. -/
theorem Drawn.contains_cases (h : p.Drawn n) {r : Row ℚ} (hr : r ∈ p.rows)
    (hq : r.line.Contains q) :
    r.Drawn ∨ (r = nonnegRowX ∧ q.x = 0) ∨ (r = nonnegRowY ∧ q.y = 0) := by
  rw [h.rows_eq] at hr
  simp only [List.mem_append, List.mem_cons, List.not_mem_nil, or_false] at hr
  rcases hr with hr | rfl | rfl
  · exact Or.inl (h.rows.2 r hr)
  · change (1 : ℚ) * q.x + 0 * q.y = 0 at hq
    exact Or.inr (Or.inl ⟨rfl, by linarith⟩)
  · change (0 : ℚ) * q.x + 1 * q.y = 0 at hq
    exact Or.inr (Or.inr ⟨rfl, by linarith⟩)

/-- No corner but the origin has a value that is not positive. -/
theorem Drawn.eq_origin_or_value_pos (h : p.Drawn n)
    (hq : q ∈ p.feasibleCrossings Options.default) : q = .origin ∨ 0 < p.objective.value q := by
  have hwithin := (mem_feasibleCrossings.mp hq).2
  have hx : -1e-6 ≤ q.x := by
    have hrow := hwithin nonnegRowX (by simp [h.rows_eq])
    change (0 : ℚ) - 1e-6 ≤ 1 * q.x + 0 * q.y at hrow
    linarith
  have hy : -1e-6 ≤ q.y := by
    have hrow := hwithin nonnegRowY (by simp [h.rows_eq])
    change (0 : ℚ) - 1e-6 ≤ 0 * q.x + 1 * q.y at hrow
    linarith
  obtain ⟨r, hr, s, hs, hrq, hsq, hdet⟩ := meeting_of_mem_feasibleCrossings (by decide +kernel) hq
  rcases h.contains_cases hr hrq with hdrawn | haxis
  · exact Or.inr (h.objective.value_pos hdrawn hx hy hrq)
  rcases h.contains_cases hs hsq with hdrawn | haxis'
  · exact Or.inr (h.objective.value_pos hdrawn hx hy hsq)
  -- Both lines are axes, and no line meets itself in a single point.
  left
  rcases haxis with ⟨rfl, hzero⟩ | ⟨rfl, hzero⟩
  · rcases haxis' with ⟨rfl, -⟩ | ⟨-, hzero'⟩
    · exact absurd hdet (by decide +kernel)
    · exact congrArg₂ Point.mk hzero hzero'
  · rcases haxis' with ⟨-, hzero'⟩ | ⟨rfl, -⟩
    · exact congrArg₂ Point.mk hzero' hzero
    · exact absurd hdet (by decide +kernel)

/-- A drawn row cuts the quadrant off. -/
theorem Drawn.feasible_bounded (h : p.Drawn n) (hn : 0 < n) (hq : p.Feasible q) :
    |q.x| ≤ 120 ∧ |q.y| ≤ 120 := by
  have hx := hq.nonnegX h.nonnegX
  have hy := hq.nonnegY h.nonnegY
  obtain ⟨r, hr⟩ := List.exists_mem_of_length_pos (h.rows.1.symm ▸ hn)
  have hdrawn := h.rows.2 r hr
  have hrow : r.a * q.x + r.b * q.y ≤ r.c := by
    have hholds := hq.rows r hr
    rwa [Row.Holds, hdrawn.sign] at hholds
  have hax := mul_le_mul_of_nonneg_right hdrawn.a.1 hx
  have hby := mul_le_mul_of_nonneg_right hdrawn.b.1 hy
  have hc := hdrawn.c.2
  rw [abs_of_nonneg hx, abs_of_nonneg hy]
  constructor
  · linarith
  · linarith

/-- A problem with `n` rows that is valid and has a best corner, which is the origin if the least
value is asked for, and whose rows, if there are any, bound its feasible set. -/
structure Solvable (n : ℤ) (p : Problem ℚ) : Prop where
  length : p.constraints.length = n.toNat
  valid : (p.map some).check = .ok p
  solved : ∃ best vertices hull candidates,
    (p.map some).solveDraft Options.default = .ok (.optimal best vertices hull candidates) ∧
      (p.sense = .min → best = ⟨.origin, 0⟩)
  bounded : 1 ≤ n → ∃ bound, ∀ q, p.Feasible q → |q.x| ≤ bound ∧ |q.y| ≤ bound

theorem Drawn.exists_best (h : p.Drawn n) : ∃ best vertices hull candidates,
    (p.map some).solveDraft Options.default = .ok (.optimal best vertices hull candidates) ∧
      (p.sense = .min → best = ⟨.origin, 0⟩) := by
  have horigin := h.origin_mem
  rcases solveDraft_cases p.check_map_some (o := Options.default) (by decide +kernel) with
    ⟨hnil, -⟩ | ⟨best, hull, candidates, hbest, hsolve⟩
  · rw [hnil] at horigin
    cases horigin
  · refine ⟨best, _, hull, candidates, hsolve, fun hmin => ?_⟩
    obtain ⟨hmem, hz⟩ := exists_mem_of_mem_evaluate (Vertex.mem_of_select? hbest)
    have hle : best.z ≤ 0 := by
      have hprefers := Vertex.select?_prefers hbest _ (List.mem_map_of_mem horigin)
      rwa [hmin, Objective.value_origin] at hprefers
    rcases h.eq_origin_or_value_pos hmem with hpoint | hpos
    · rw [hpoint, Objective.value_origin] at hz
      exact congrArg₂ Vertex.mk hpoint hz
    · rw [hz] at hle
      exact absurd hpos hle.not_gt

theorem Drawn.solvable {n : ℤ} (h : p.Drawn n.toNat) : p.Solvable n where
  length := h.rows.1
  valid := p.check_map_some
  solved := h.exists_best
  bounded hn := ⟨120, fun _ => h.feasible_bounded (by omega)⟩

end Problem

namespace Instance

/-- Whatever scalars below one a source draws and however it decides, the problem drawn from it is
solvable, and so are all problems of a request, whatever their seed. -/
theorem problems_solvable :
    (∀ {σ : Type} (source : Source σ ℚ), source.InUnit → ∀ (n : ℤ) (s : σ),
      (problem source n.toNat s).1.Solvable n) ∧
    ∀ (request : Request), ∀ p ∈ (batch request : List (Problem ℚ)),
      p.Solvable request.constraints := by
  have hdrawn {σ : Type} {source : Source σ ℚ} (h : source.InUnit) (n : ℤ) (s : σ) :
      (problem source n.toNat s).1.Solvable n := (problem_drawn h n.toNat s).solvable
  refine ⟨fun source h n s => hdrawn h n s, fun request p hp => ?_⟩
  obtain ⟨k, -, rfl⟩ := List.mem_map.mp hp
  exact hdrawn twister_inUnit _ _

/-- A sample source that goes round in eighths. -/
def dial : Source ℕ ℚ where
  unit k := (((k % 8 : ℕ) : ℚ) / 8, k + 1)
  decision k := (k % 2 == 0, k + 1)

theorem dial_solvable : dial.InUnit ∧
    (problem dial 2 0).1.constraints =
      [{ a := 1 / 2, b := 17 / 16, c := 45 / 2, name := some "c1" },
       { a := 35 / 16, b := 11 / 4, c := 165 / 4, name := some "c2" }] ∧
    (∃ vertices hull candidates, ((problem dial 2 0).1.map some).solveDraft Options.default =
      .ok (.optimal ⟨.origin, 0⟩ vertices hull candidates)) ∧
    ∃ bound, ∀ q, (problem dial 2 0).1.Feasible q → |q.x| ≤ bound ∧ |q.y| ≤ bound := by
  have hunit : dial.InUnit := by
    intro k
    change (0 : ℚ) ≤ ((k % 8 : ℕ) : ℚ) / 8 ∧ ((k % 8 : ℕ) : ℚ) / 8 < 1
    have hlt : ((k % 8 : ℕ) : ℚ) < 8 := by exact_mod_cast Nat.mod_lt k (by decide)
    exact ⟨by positivity, by linarith⟩
  have hsolvable := problems_solvable.1 dial hunit 2 0
  obtain ⟨best, vertices, hull, candidates, hsolve, hmin⟩ := hsolvable.solved
  rw [hmin (by decide +kernel)] at hsolve
  exact ⟨hunit, by decide +kernel, ⟨vertices, hull, candidates, hsolve⟩,
    hsolvable.bounded (by decide)⟩

end Instance

end CornerPoint
