import CornerPoint.Diagnosis
import CornerPoint.Proofs.ExactSolution

/-!
Which rows a diagnosis names. Over exact numbers it names a row exactly if some crossing of the
other rows satisfies all of them. A row whose absence leaves feasible points is therefore named as
long as two of the other boundary lines cross; where those are all parallel, the points that are
left have no corner, and the row is missed.
-/
namespace CornerPoint.Problem

variable {d : Draft ℚ} {p : Problem ℚ} {o : Options ℚ} {k : ℕ} {r : Row ℚ} {labels : List String}

theorem diagnosisOptions_eps_pos : 0 < (diagnosisOptions : Options ℚ).eps := by decide +kernel

theorem diagnosisOptions_feasibilityTol_nonneg :
    0 ≤ (diagnosisOptions : Options ℚ).feasibilityTol := by decide +kernel

theorem solve_rat (heps : 0 < o.eps) (p : Problem ℚ) : p.solve o = .ok (p.answer o) := by
  have h := solveDraft_map_some heps p
  unfold solveDraft at h
  rwa [p.check_map_some] at h

theorem answer_infeasible_iff : (p.answer o).status = .infeasible ↔ p.feasibleCrossings o = [] := by
  unfold answer Solution.ofCorners
  cases hs : Vertex.select? p.sense (Vertex.evaluate p.objective (p.feasibleCrossings o)) with
  | none => simpa [Solution.status, Vertex.evaluate] using Vertex.select?_eq_none.mp hs
  | some best =>
    have hmem := (exists_mem_of_mem_evaluate (Vertex.mem_of_select? hs)).1
    simp [Solution.status, List.ne_nil_of_mem hmem]

/-- The labels of the rows without which some crossing satisfies all others. -/
def restoring (p : Problem ℚ) : List String :=
  p.constraints.zipIdx.filterMap fun (r, k) =>
    if (p.without k).feasibleCrossings diagnosisOptions = [] then none
    else some (r.label ("c" ++ toString (k + 1)))

theorem conflict?_rat (p : Problem ℚ) (r : Row ℚ) (k : ℕ) : p.conflict? r k =
    .ok (if (p.without k).feasibleCrossings diagnosisOptions = [] then none
      else some (r.label ("c" ++ toString (k + 1)))) := by
  unfold conflict? restoredWithout
  rw [solve_rat diagnosisOptions_eps_pos]
  by_cases h : (p.without k).feasibleCrossings diagnosisOptions = []
  · simp [Except.map, h, answer_infeasible_iff.mpr h]
  · simp [Except.map, h, mt answer_infeasible_iff.mp h]

theorem conflicts_rat (p : Problem ℚ) : p.conflicts = .ok p.restoring := by
  have hall : (p.constraints.zipIdx.mapM fun (r, k) => p.conflict? r k) =
      .ok (p.constraints.zipIdx.map fun (r, k) =>
        if (p.without k).feasibleCrossings diagnosisOptions = [] then none
        else some (r.label ("c" ++ toString (k + 1)))) := by
    simp only [conflict?_rat]
    exact List.mapM_pure
  unfold conflicts restoring
  rw [hall]
  simp only [Except.map, List.filterMap_map]
  rfl

/-- A diagnosis over exact numbers. -/
theorem diagnose_rat (p : Problem ℚ) : p.diagnose =
    .ok (if p.feasibleCrossings diagnosisOptions = [] then .infeasible p.restoring
      else .solvable) := by
  unfold diagnose
  rw [solve_rat diagnosisOptions_eps_pos, conflicts_rat]
  by_cases h : p.feasibleCrossings diagnosisOptions = []
  · simp [h, answer_infeasible_iff.mpr h, bind, Except.bind, pure, Except.pure]
  · simp [h, mt answer_infeasible_iff.mp h, bind, Except.bind, pure, Except.pure]

theorem restoring_of_diagnoseDraft (hd : d.check = .ok p)
    (h : d.diagnoseDraft = .ok (.infeasible labels)) : labels = p.restoring := by
  unfold diagnoseDraft at h
  rw [hd] at h
  simp only [diagnose_rat, Except.ok.injEq] at h
  split at h
  · exact (Diagnosis.infeasible.inj h).symm
  · simp at h

theorem mem_restoring (hr : p.constraints[k]? = some r)
    (h : (p.without k).feasibleCrossings diagnosisOptions ≠ []) :
    r.label ("c" ++ toString (k + 1)) ∈ p.restoring := by
  refine List.mem_filterMap.mpr ⟨(r, k), List.mk_mem_zipIdx_iff_getElem?.mpr hr, ?_⟩
  exact if_neg h

/-- A row is named if the feasible set of the other rows is not empty, two of their boundary lines
cross, and none of their determinants is so small that it counts as zero without being zero. -/
theorem restoring_row_reported (hd : d.check = .ok p)
    (hdiag : d.diagnoseDraft = .ok (.infeasible labels)) (hr : p.constraints[k]? = some r)
    (hfeasible : ∃ q, (p.without k).Feasible q) (ht : Transversal (p.without k).rows)
    (hsep : Separated Options.defaultEps (p.without k).rows) :
    r.label ("c" ++ toString (k + 1)) ∈ labels := by
  rw [restoring_of_diagnoseDraft hd hdiag]
  obtain ⟨q, hq⟩ := hfeasible
  -- With an objective that is zero everywhere, any feasible point leads to a corner.
  have hzero : ∀ v, (p.without k).Feasible v → (⟨0, 0⟩ : Objective ℚ).value v ≤ 0 := by
    intro v _
    change (0 : ℚ) * v.x + 0 * v.y ≤ 0
    rw [zero_mul, zero_mul, add_zero]
  obtain ⟨v, hv, hm, -⟩ := exists_feasible_meeting ht hq hzero
  have hcorner : v ∈ (p.without k).feasibleCrossings diagnosisOptions :=
    mem_feasibleCrossings_of_corner diagnosisOptions_feasibilityTol_nonneg hsep hv hm
  exact mem_restoring hr (List.ne_nil_of_mem hcorner)

/-- A sample in which two rows exclude each other. -/
def squeeze : Problem ℚ :=
  { objective := ⟨1, 1⟩
    constraints :=
      [{ a := 1, b := 0, sign := .ge, c := 5, name := some "lower" },
       { a := 1, b := 0, sign := .le, c := 2, name := some "upper" },
       { a := 0, b := 1, sign := .le, c := 8 }]
    nonnegX := true
    nonnegY := true }

theorem squeeze_diagnosis :
    (squeeze.map some).diagnoseDraft = .ok (.infeasible ["lower", "upper"]) := by
  decide +kernel

theorem squeeze_upper_reported : ∃ labels,
    (squeeze.map some).diagnoseDraft = .ok (.infeasible labels) ∧ "upper" ∈ labels ∧
      (squeeze.without 1).Feasible ⟨6, 1⟩ := by
  have hfeasible : (squeeze.without 1).Feasible ⟨6, 1⟩ := by decide +kernel
  have hcross : Transversal (squeeze.without 1).rows := by
    unfold Transversal
    decide +kernel
  have hsep : Separated Options.defaultEps (squeeze.without 1).rows := by
    unfold Separated
    decide +kernel
  exact ⟨_, squeeze_diagnosis, restoring_row_reported (d := squeeze.map some) (p := squeeze)
    (k := 1) rfl squeeze_diagnosis rfl ⟨_, hfeasible⟩ hcross hsep, hfeasible⟩

/-- A sample of two parallel rows that exclude each other. -/
def apart : Problem ℚ :=
  { objective := ⟨1, 1⟩
    constraints :=
      [{ a := 1, b := 0, sign := .ge, c := 5 }, { a := 1, b := 0, sign := .le, c := 2 }] }

/-- A sample whose first two rows cross with a determinant that counts as zero. -/
def faint : Problem ℚ :=
  { objective := ⟨1, 1⟩
    constraints :=
      [{ a := 1 / 10000, b := 0, sign := .ge, c := 0 },
       { a := 0, b := 1 / 10000, sign := .ge, c := 0 },
       { a := 0, b := 0, sign := .le, c := -1 }] }

/-- A row may be missed although its absence leaves feasible points: where the other rows are
parallel, and where they nearly are. -/
theorem restoring_row_missed :
    ((¬ ∃ q, apart.Feasible q) ∧ (apart.map some).diagnoseDraft = .ok (.infeasible []) ∧
      (apart.without 0).Feasible ⟨2, 0⟩ ∧ (apart.without 1).Feasible ⟨5, 0⟩) ∧
    ((¬ ∃ q, faint.Feasible q) ∧ (faint.map some).diagnoseDraft = .ok (.infeasible []) ∧
      (faint.without 2).Feasible ⟨0, 0⟩ ∧ Transversal (faint.without 2).rows) := by
  refine ⟨⟨?_, by decide +kernel, by decide +kernel, by decide +kernel⟩,
    ?_, by decide +kernel, by decide +kernel, ?_⟩
  · rintro ⟨q, hq⟩
    have hlower : (5 : ℚ) ≤ 1 * q.x + 0 * q.y := hq.rows _ (List.mem_cons_self ..)
    have hupper : 1 * q.x + 0 * q.y ≤ (2 : ℚ) :=
      hq.rows _ (List.mem_cons_of_mem _ (List.mem_cons_self ..))
    linarith
  · rintro ⟨q, hq⟩
    have hlast : 0 * q.x + 0 * q.y ≤ (-1 : ℚ) := hq.rows _
      (List.mem_cons_of_mem _ (List.mem_cons_of_mem _ (List.mem_cons_self ..)))
    linarith
  · unfold Transversal
    decide +kernel

end CornerPoint.Problem
