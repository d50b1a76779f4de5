import CornerPoint.Proofs.ExactSolution

/-!
What a looser solve adds. A smaller `eps` lets more lines cross, and a larger tolerance lets more
crossings pass; neither takes a crossing away or moves one. So the feasible crossings of a stricter
solve are found again among those of a looser one, in the same order, and the best of more crossings
is at least as good.
-/
namespace CornerPoint

theorem filterMap_sublist_of_imp {β γ : Type} {f g : β → Option γ}
    (h : ∀ b c, f b = some c → g b = some c) (xs : List β) :
    (xs.filterMap f).Sublist (xs.filterMap g) := by
  induction xs with
  | nil => exact List.Sublist.refl _
  | cons b xs ih =>
    cases hf : f b with
    | none =>
      rw [List.filterMap_cons_none hf]
      cases hg : g b with
      | none => rwa [List.filterMap_cons_none hg]
      | some c =>
        rw [List.filterMap_cons_some hg]
        exact ih.cons c
    | some c =>
      rw [List.filterMap_cons_some hf, List.filterMap_cons_some (h b c hf)]
      exact ih.cons_cons c

theorem Line.crossingPoints_sublist {eps other : ℚ} (h : other ≤ eps) (lines : List (Line ℚ)) :
    (crossingPoints eps lines).Sublist (crossingPoints other lines) := by
  refine filterMap_sublist_of_imp (fun pair q hq => ?_) (pairs lines)
  rw [Option.ite_none_left_eq_some] at hq ⊢
  exact ⟨fun hlt => hq.1 (hlt.trans_le h), hq.2⟩

theorem Row.HoldsWithin.mono {r : Row ℚ} {q : Point ℚ} {tol other : ℚ}
    (h : r.HoldsWithin tol q) (hle : tol ≤ other) : r.HoldsWithin other q := by
  unfold HoldsWithin at h ⊢
  cases hsign : r.sign with
  | le =>
    rw [hsign] at h
    exact h.trans (by linarith)
  | ge =>
    rw [hsign] at h
    exact le_trans (by linarith) h
  | eq =>
    rw [hsign] at h
    exact ⟨h.1.trans (by linarith), le_trans (by linarith) h.2⟩

namespace Problem

variable {d : Draft ℚ} {p : Problem ℚ} {strict loose : Options ℚ}

theorem feasibleCrossings_sublist (heps : loose.eps ≤ strict.eps)
    (htol : strict.feasibilityTol ≤ loose.feasibilityTol) (p : Problem ℚ) :
    (p.feasibleCrossings strict).Sublist (p.feasibleCrossings loose) := by
  rw [feasibleCrossings_eq_filter, feasibleCrossings_eq_filter]
  have hpass : ∀ q : Point ℚ,
      q.satisfies strict.feasibilityTol (CornerPoint.halfPlanes p.rows) →
        q.satisfies loose.feasibilityTol (CornerPoint.halfPlanes p.rows) := by
    intro q hq
    rw [Point.satisfies_iff] at hq ⊢
    exact fun r hr => (hq r hr).mono htol
  exact (List.monotone_filter_right _ hpass).trans ((Line.crossingPoints_sublist heps _).filter _)

theorem workings_rat {o : Options ℚ} (heps : 0 < o.eps) (p : Problem ℚ) :
    ∃ w, p.workings o = .ok w ∧ w.feasible = p.feasibleCrossings o := by
  refine ⟨Workings.ofCandidates o p (Line.crossingPoints o.eps (p.rows.map Row.line)), ?_, rfl⟩
  unfold workings
  rw [Line.crossings_rat heps]
  rfl

/-- The best of more corners is at least as good. -/
theorem exists_best_of_sublist {sense : Sense} {f : Objective ℚ} {corners more : List (Point ℚ)}
    (hsub : corners.Sublist more) {best : Vertex ℚ}
    (hbest : Vertex.select? sense (Vertex.evaluate f corners) = some best) :
    ∃ better, Vertex.select? sense (Vertex.evaluate f more) = some better ∧
      sense.Prefers better.z best.z := by
  have hmem : best ∈ Vertex.evaluate f more := (hsub.map _).mem (Vertex.mem_of_select? hbest)
  cases hbetter : Vertex.select? sense (Vertex.evaluate f more) with
  | none =>
    rw [Vertex.select?_eq_none.mp hbetter] at hmem
    cases hmem
  | some better => exact ⟨better, rfl, Vertex.select?_prefers hbetter best hmem⟩

/-- With a smaller `eps` and a larger tolerance all feasible crossings are found again, in their
order. So what was feasible stays feasible, no crossing is lost, and the optimum does not get
worse. -/
theorem looser_tolerances_solution (hd : d.check = .ok p) (hpos : 0 < loose.eps)
    (heps : loose.eps ≤ strict.eps) (htol : strict.feasibilityTol ≤ loose.feasibilityTol) :
    ∃ w w' s t, p.workings strict = .ok w ∧ p.workings loose = .ok w' ∧
      w.feasible.Sublist w'.feasible ∧
      d.solveDraft strict = .ok s ∧ d.solveDraft loose = .ok t ∧
      (s.status = .optimal → t.status = .optimal) ∧ s.candidates ≤ t.candidates ∧
      ∀ best, s.best? = some best →
        ∃ better, t.best? = some better ∧ p.sense.Prefers better.z best.z := by
  obtain rfl := eq_map_of_check hd
  obtain ⟨w, hw, hfeasible⟩ := workings_rat (hpos.trans_le heps) p
  obtain ⟨w', hw', hfeasible'⟩ := workings_rat hpos p
  have hsub := feasibleCrossings_sublist heps htol p
  have hbetter : ∀ best, (p.answer strict).best? = some best →
      ∃ better, (p.answer loose).best? = some better ∧ p.sense.Prefers better.z best.z := by
    intro best hbest
    rw [answer, Solution.ofCorners_best?] at hbest ⊢
    exact exists_best_of_sublist hsub hbest
  refine ⟨w, w', p.answer strict, p.answer loose, hw, hw', by rwa [hfeasible, hfeasible'],
    solveDraft_map_some (hpos.trans_le heps) p, solveDraft_map_some hpos p, ?_, ?_, hbetter⟩
  · rw [Solution.status_eq_optimal_iff, Solution.status_eq_optimal_iff]
    rintro ⟨best, hbest⟩
    obtain ⟨better, hfound, -⟩ := hbetter best hbest
    exact ⟨better, hfound⟩
  · rw [answer, answer, Solution.ofCorners_candidates, Solution.ofCorners_candidates]
    exact (Line.crossingPoints_sublist heps _).length_le

/-- Options under which the corner of the wedge that two sides cut off counts as feasible. -/
def looseOptions : Options ℚ := { exactOptions with eps := 1 / 100, feasibilityTol := 4 }

theorem wedge_loosened : ∃ t better,
    (wedge.map some).solveDraft looseOptions = .ok t ∧ 5 ≤ t.candidates ∧
      t.best? = some better ∧ better.z ≤ 2 := by
  have hpos : 0 < looseOptions.eps := by decide +kernel
  have heps : looseOptions.eps ≤ exactOptions.eps := by decide +kernel
  have htol : exactOptions.feasibilityTol ≤ looseOptions.feasibilityTol := by decide +kernel
  obtain ⟨-, -, s, t, -, -, -, hs, ht, -, hcandidates, hbetter⟩ :=
    looser_tolerances_solution wedge.check_map_some hpos heps htol
  rw [wedge_solution] at hs
  obtain rfl := Except.ok.inj hs
  obtain ⟨better, hfound, hpref⟩ := hbetter _ rfl
  exact ⟨t, better, ht, hcandidates, hfound, hpref⟩

end Problem

end CornerPoint
