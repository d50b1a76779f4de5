import CornerPoint.Proofs.Enumeration
import CornerPoint.Proofs.Selection

/-!
What a solution over exact numbers says about the feasible set: when a problem counts as feasible,
that the best corner is best of all points, and which points are listed as vertices.
-/
namespace CornerPoint

namespace Problem

/-- The crossings that lie within the tolerance of every row, in the order of enumeration. -/
def feasibleCrossings (o : Options ℚ) (p : Problem ℚ) : List (Point ℚ) :=
  feasiblePoints o.feasibilityTol (CornerPoint.halfPlanes p.rows)
    (Line.crossingPoints o.eps (p.rows.map Row.line))

/-- On the feasible set, the objective is bounded in the direction of the sense. -/
def Bounded (p : Problem ℚ) : Prop :=
  ∃ bound, ∀ q, p.Feasible q → p.sense.Prefers bound (p.objective.value q)

variable {d : Draft ℚ} {p : Problem ℚ} {o : Options ℚ} {q : Point ℚ}

theorem solveDraft_rat (hd : d.check = .ok p) (heps : 0 < o.eps) :
    d.solveDraft o = .ok (Solution.ofWorkings o p.sense
      (Workings.ofCandidates o p (Line.crossingPoints o.eps (p.rows.map Row.line)))) := by
  unfold solveDraft
  rw [hd]
  simp only [solve, workings, Line.crossings_rat heps]
  rfl

/-- The two outcomes of a solve. -/
theorem solveDraft_cases (hd : d.check = .ok p) (heps : 0 < o.eps) :
    (p.feasibleCrossings o = [] ∧ ∃ n, d.solveDraft o = .ok (.infeasible n)) ∨
    ∃ best hull n,
      Vertex.select? p.sense (Vertex.evaluate p.objective (p.feasibleCrossings o)) = some best ∧
      d.solveDraft o = .ok (.optimal best
        (if o.listVertices then
          some (Vertex.sortByValueDescending (Vertex.merge o.dedupTol (Vertex.sortByValue
            (Vertex.evaluate p.objective (p.feasibleCrossings o)))))
        else none) hull n) := by
  rw [solveDraft_rat hd heps]
  have hw : (Workings.ofCandidates o p
      (Line.crossingPoints o.eps (p.rows.map Row.line))).evaluated =
      Vertex.evaluate p.objective (p.feasibleCrossings o) := rfl
  cases hs : Vertex.select? p.sense
    (Vertex.evaluate p.objective (p.feasibleCrossings o)) with
  | none =>
    refine Or.inl ⟨List.map_eq_nil_iff.mp (Vertex.select?_eq_none.mp hs), ?_⟩
    simp only [Solution.ofWorkings, hw, hs]
    exact ⟨_, rfl⟩
  | some best =>
    refine Or.inr ?_
    simp only [Solution.ofWorkings, hw, hs]
    exact ⟨best, _, _, rfl, rfl⟩

theorem feasibleCrossings_eq_filter (o : Options ℚ) (p : Problem ℚ) :
    p.feasibleCrossings o = (Line.crossingPoints o.eps (p.rows.map Row.line)).filter
      (Point.satisfies o.feasibilityTol (CornerPoint.halfPlanes p.rows)) :=
  feasiblePoints_eq_filter ..

theorem mem_feasibleCrossings : q ∈ p.feasibleCrossings o ↔
    q ∈ Line.crossingPoints o.eps (p.rows.map Row.line) ∧
      ∀ r ∈ p.rows, r.HoldsWithin o.feasibilityTol q := by
  rw [feasibleCrossings_eq_filter, List.mem_filter, Point.satisfies_iff]

theorem mem_feasibleCrossings_of_corner (htol : 0 ≤ o.feasibilityTol)
    (hsep : Separated o.eps p.rows) (hq : p.Feasible q) (hm : Meeting p.rows q) :
    q ∈ p.feasibleCrossings o :=
  mem_feasibleCrossings.mpr ⟨mem_crossingPoints_of_meeting hsep hm,
    fun r hr => ((p.feasible_iff q).mp hq r hr).within htol⟩

theorem meeting_of_mem_feasibleCrossings (heps : 0 < o.eps)
    (h : q ∈ p.feasibleCrossings o) : Meeting p.rows q :=
  meeting_of_mem_crossingPoints heps (mem_feasibleCrossings.mp h).1

theorem feasible_of_mem_feasibleCrossings (htol : o.feasibilityTol = 0)
    (h : q ∈ p.feasibleCrossings o) : p.Feasible q := by
  refine (p.feasible_iff q).mpr fun r hr => ?_
  have hr := (mem_feasibleCrossings.mp h).2 r hr
  rwa [htol, Row.holdsWithin_zero] at hr

/-- Without a tolerance, the feasible crossings are the extreme points. -/
theorem mem_feasibleCrossings_iff_extreme (htol : o.feasibilityTol = 0) (heps : 0 < o.eps)
    (hsep : Separated o.eps p.rows) : q ∈ p.feasibleCrossings o ↔ Extreme p.Feasible q := by
  rw [extreme_iff_meeting]
  constructor
  · intro h
    exact ⟨feasible_of_mem_feasibleCrossings htol h, meeting_of_mem_feasibleCrossings heps h⟩
  · rintro ⟨hq, hm⟩
    exact mem_feasibleCrossings_of_corner htol.ge hsep hq hm

/-- To minimise an objective is to maximise its negation. -/
theorem exists_preferred_corner {f : Objective ℚ} (ht : Transversal p.rows) (hq : p.Feasible q)
    {sense : Sense} (hb : ∃ bound, ∀ v, p.Feasible v → sense.Prefers bound (f.value v)) :
    ∃ v, p.Feasible v ∧ Meeting p.rows v ∧ sense.Prefers (f.value v) (f.value q) := by
  obtain ⟨bound, hb⟩ := hb
  cases sense with
  | max => exact exists_feasible_meeting ht hq hb
  | min =>
    have hneg (v : Point ℚ) : (⟨-f.a, -f.b⟩ : Objective ℚ).value v = -f.value v := by
      change -f.a * v.x + -f.b * v.y = -(f.a * v.x + f.b * v.y)
      ring
    have hb' : ∀ v, p.Feasible v → (⟨-f.a, -f.b⟩ : Objective ℚ).value v ≤ -bound := by
      intro v hv
      rw [hneg]
      exact neg_le_neg (hb v hv)
    obtain ⟨v, hv, hm, hle⟩ := exists_feasible_meeting ht hq hb'
    rw [hneg, hneg] at hle
    exact ⟨v, hv, hm, neg_le_neg_iff.mp hle⟩

/-- If there is an optimum, no feasible point beats it, and without a tolerance it is feasible
itself. -/
theorem optimum_prefers_feasible (hd : d.check = .ok p) (htol : 0 ≤ o.feasibilityTol)
    (heps : 0 < o.eps) (hsep : Separated o.eps p.rows) :
    ∃ s, d.solveDraft o = .ok s ∧ (s.status = .optimal → ∃ best, s.best? = some best ∧
      (p.Bounded → ∀ q, p.Feasible q → p.sense.Prefers best.z (p.objective.value q)) ∧
      (o.feasibilityTol = 0 → p.Feasible best.toPoint)) := by
  rcases solveDraft_cases hd heps with ⟨-, n, hs⟩ | ⟨best, hull, n, hbest, hs⟩
  · refine ⟨_, hs, fun h => ?_⟩
    simp [Solution.status] at h
  refine ⟨_, hs, fun _ => ⟨best, rfl, ?_, ?_⟩⟩
  · intro hb q hq
    have hmem := (exists_mem_of_mem_evaluate (Vertex.mem_of_select? hbest)).1
    have ht := (meeting_of_mem_feasibleCrossings heps hmem).transversal
    obtain ⟨v, hv, hm, hpref⟩ := exists_preferred_corner ht hq hb
    have hlisted : (⟨v, p.objective.value v⟩ : Vertex ℚ) ∈
        Vertex.evaluate p.objective (p.feasibleCrossings o) :=
      List.mem_map_of_mem (mem_feasibleCrossings_of_corner htol hsep hv hm)
    exact (Vertex.select?_prefers hbest _ hlisted).trans hpref
  · intro hzero
    exact feasible_of_mem_feasibleCrossings hzero
      (exists_mem_of_mem_evaluate (Vertex.mem_of_select? hbest)).1

/-- A sample whose feasible set is a wedge without end: one row is redundant and another one has no
variables. -/
def wedge : Problem ℚ :=
  { sense := .min
    objective := ⟨1, 2⟩
    constraints :=
      [{ a := 1, b := 1, sign := .ge, c := 2 }, { a := 2, b := 2, sign := .ge, c := 4 },
       { a := 0, b := 0, sign := .le, c := 1 }]
    nonnegX := true
    nonnegY := true }

def exactOptions : Options ℚ :=
  { eps := 1 / 10, feasibilityTol := 0, dedupTol := 0, listVertices := true }

theorem wedge_bounded : wedge.Bounded := by
  refine ⟨2, fun q hq => ?_⟩
  have hrow : (2 : ℚ) ≤ 1 * q.x + 1 * q.y := hq.rows _ (List.mem_cons_self ..)
  have hy := hq.nonnegY rfl
  change (2 : ℚ) ≤ 1 * q.x + 2 * q.y
  linarith

theorem wedge_separated : Separated exactOptions.eps wedge.rows := by
  unfold Separated
  decide +kernel

theorem wedge_solution : (wedge.map some).solveDraft exactOptions =
    .ok (.optimal ⟨⟨2, 0⟩, 2⟩ (some [⟨⟨0, 2⟩, 4⟩, ⟨⟨2, 0⟩, 2⟩]) [⟨0, 2⟩, ⟨2, 0⟩] 5) := by
  decide +kernel

theorem wedge_optimum : wedge.Feasible ⟨2, 0⟩ ∧ ∀ q, wedge.Feasible q → 2 ≤ q.x + 2 * q.y := by
  obtain ⟨s, hs, h⟩ := optimum_prefers_feasible (d := wedge.map some) (p := wedge)
    (o := exactOptions) rfl le_rfl (by decide +kernel) wedge_separated
  rw [wedge_solution] at hs
  obtain rfl := Except.ok.inj hs
  obtain ⟨best, hbest, hpref, hfeas⟩ := h rfl
  obtain rfl : (⟨⟨2, 0⟩, 2⟩ : Vertex ℚ) = best := Option.some.inj hbest
  refine ⟨hfeas rfl, fun q hq => ?_⟩
  have hq : (2 : ℚ) ≤ 1 * q.x + 2 * q.y := hpref wedge_bounded q hq
  rwa [one_mul] at hq

/-- Without a tolerance, there is an optimum exactly if the feasible set is not empty and two
boundary lines cross. There is no third answer. -/
theorem optimal_iff_feasible_transversal (hd : d.check = .ok p) (htol : o.feasibilityTol = 0)
    (heps : 0 < o.eps) (hsep : Separated o.eps p.rows) :
    ∃ s, d.solveDraft o = .ok s ∧
      (s.status = .optimal ↔ (∃ q, p.Feasible q) ∧ Transversal p.rows) ∧
      (¬ ((∃ q, p.Feasible q) ∧ Transversal p.rows) → s.status = .infeasible) := by
  rcases solveDraft_cases hd heps with ⟨hnil, n, hs⟩ | ⟨best, hull, n, hbest, hs⟩
  · refine ⟨_, hs, ⟨fun h => by simp [Solution.status] at h, ?_⟩, fun _ => rfl⟩
    -- With an objective that is zero everywhere, any feasible point leads to a corner.
    rintro ⟨⟨q, hq⟩, ht⟩
    have hzero : ∀ v, p.Feasible v → (⟨0, 0⟩ : Objective ℚ).value v ≤ 0 := by
      intro v _
      change (0 : ℚ) * v.x + 0 * v.y ≤ 0
      rw [zero_mul, zero_mul, add_zero]
    obtain ⟨v, hv, hm, -⟩ := exists_feasible_meeting ht hq hzero
    have hmem := mem_feasibleCrossings_of_corner (o := o) htol.ge hsep hv hm
    simp [hnil] at hmem
  · have hmem := (exists_mem_of_mem_evaluate (Vertex.mem_of_select? hbest)).1
    have hok : (∃ q, p.Feasible q) ∧ Transversal p.rows :=
      ⟨⟨_, feasible_of_mem_feasibleCrossings htol hmem⟩,
        (meeting_of_mem_feasibleCrossings heps hmem).transversal⟩
    exact ⟨_, hs, ⟨fun _ => hok, fun _ => rfl⟩, fun hn => (hn hok).elim⟩

/-- A sample with two parallel rows only: its feasible set is a strip, which has no corner. -/
def strip : Problem ℚ :=
  { objective := ⟨1, 1⟩
    constraints :=
      [{ a := 1, b := 0, sign := .ge, c := 0 }, { a := 1, b := 0, sign := .le, c := 3 }] }

theorem wedge_optimal_strip_infeasible :
    (∃ s, (wedge.map some).solveDraft exactOptions = .ok s ∧ s.status = .optimal) ∧
    (∃ s, (strip.map some).solveDraft exactOptions = .ok s ∧ s.status = .infeasible) ∧
    strip.Feasible ⟨1, 1⟩ := by
  have heps : 0 < exactOptions.eps := by decide +kernel
  obtain ⟨s, hs, hwedge, -⟩ := optimal_iff_feasible_transversal (d := wedge.map some) (p := wedge)
    (o := exactOptions) rfl rfl heps wedge_separated
  obtain ⟨t, ht, -, hstrip⟩ := optimal_iff_feasible_transversal (d := strip.map some) (p := strip)
    (o := exactOptions) rfl rfl heps (by unfold Separated; decide +kernel)
  have hcross : Transversal wedge.rows := by
    unfold Transversal
    decide +kernel
  have hparallel : ¬ Transversal strip.rows := by
    unfold Transversal
    decide +kernel
  refine ⟨⟨s, hs, hwedge.mpr ⟨⟨⟨3, 1⟩, ?_⟩, hcross⟩⟩, ⟨t, ht, hstrip fun h => hparallel h.2⟩, ?_⟩
  · decide +kernel
  · decide +kernel

/-- Without tolerances, the listed vertices are the extreme points of the feasible set, each of
them once. -/
theorem listed_iff_extreme (hd : d.check = .ok p) (htol : o.feasibilityTol = 0)
    (hdup : o.dedupTol = 0) (hlist : o.listVertices = true) (heps : 0 < o.eps)
    (hsep : Separated o.eps p.rows) :
    ∃ s, d.solveDraft o = .ok s ∧ (s.status = .optimal → ∃ vertices, s.vertices? = some vertices ∧
      ∀ q, (q ∈ vertices.map Vertex.toPoint ↔ Extreme p.Feasible q) ∧
        (Extreme p.Feasible q → (vertices.map Vertex.toPoint).count q = 1)) := by
  rcases solveDraft_cases hd heps with ⟨-, n, hs⟩ | ⟨best, hull, n, hbest, hs⟩
  · refine ⟨_, hs, fun h => ?_⟩
    simp [Solution.status] at h
  rw [if_pos hlist, hdup] at hs
  refine ⟨_, hs, fun _ => ⟨_, rfl, fun q => ?_⟩⟩
  generalize hvs : Vertex.evaluate p.objective (p.feasibleCrossings o) = vs
  obtain ⟨hnodup, hsame⟩ := Vertex.merge_zero_points (Vertex.sortByValue vs)
  have hperm : ((Vertex.sortByValueDescending (Vertex.merge 0 (Vertex.sortByValue vs))).map
      Vertex.toPoint).Perm ((Vertex.merge 0 (Vertex.sortByValue vs)).map Vertex.toPoint) :=
    Vertex.sortByValueDescending_perm.map Vertex.toPoint
  have hlisted : q ∈ (Vertex.merge 0 (Vertex.sortByValue vs)).map Vertex.toPoint ↔
      Extreme p.Feasible q := by
    rw [hsame, (Vertex.sortByValue_perm.map Vertex.toPoint).mem_iff,
      ← mem_feasibleCrossings_iff_extreme htol heps hsep, ← hvs, Vertex.evaluate, List.map_map]
    simp
  refine ⟨hperm.mem_iff.trans hlisted, fun hq => ?_⟩
  rw [hperm.count_eq]
  exact List.count_eq_one_of_mem hnodup (hlisted.mpr hq)

theorem wedge_extreme_points :
    Extreme wedge.Feasible ⟨0, 2⟩ ∧ Extreme wedge.Feasible ⟨2, 0⟩ ∧
      ∀ q, Extreme wedge.Feasible q → q = ⟨0, 2⟩ ∨ q = ⟨2, 0⟩ := by
  obtain ⟨s, hs, h⟩ := listed_iff_extreme (d := wedge.map some) (p := wedge) (o := exactOptions)
    rfl rfl rfl rfl (by decide +kernel) wedge_separated
  rw [wedge_solution] at hs
  obtain rfl := Except.ok.inj hs
  obtain ⟨vertices, hv, hiff⟩ := h rfl
  obtain rfl := Option.some.inj hv
  refine ⟨(hiff _).1.mp (by decide +kernel), (hiff _).1.mp (by decide +kernel), fun q hq => ?_⟩
  simpa using (hiff q).1.mpr hq

end Problem

end CornerPoint
