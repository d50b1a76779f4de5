import CornerPoint.Proofs.Invariance

/-!
To maximise an objective is to minimise its negation. The two problems have the same crossings, of
which the same are feasible, so they differ only in which of the best crossings is selected: the
last one for a maximum, and the first one for a minimum. Where the best crossings all lie in one
point there is no difference at all.
-/
namespace CornerPoint

/-- The problem with its sense exchanged and its objective negated by `neg`. -/
def Problem.negated {κ : Type} (neg : κ → κ) (p : Problem κ) : Problem κ :=
  { p.flipped with objective := p.objective.map neg }

theorem Objective.value_negated (f : Objective ℚ) (q : Point ℚ) :
    (f.map Neg.neg).value q = -f.value q := by
  change -f.a * q.x + -f.b * q.y = -(f.a * q.x + f.b * q.y)
  ring

theorem Sense.prefers_flip (sense : Sense) (v w : ℚ) :
    sense.flip.Prefers (-v) (-w) ↔ sense.Prefers v w := by
  cases sense with
  | max => exact neg_le_neg_iff
  | min => exact neg_le_neg_iff

section Corners

variable {o : Options ℚ} {sense : Sense} {f : Objective ℚ} {corners : List (Point ℚ)}
  {best other : Vertex ℚ}

/-- After the exchange something is selected as well, and before it nothing would be better. -/
theorem Vertex.exists_select?_negated
    (hbest : select? sense (evaluate f corners) = some best) :
    ∃ other, select? sense.flip (evaluate (f.map Neg.neg) corners) = some other ∧
      other.toPoint ∈ corners ∧ f.value other.toPoint = best.z ∧ other.z = -best.z := by
  obtain ⟨hmem, hz⟩ := exists_mem_of_mem_evaluate (mem_of_select? hbest)
  have hvertex : (⟨best.toPoint, (f.map Neg.neg).value best.toPoint⟩ : Vertex ℚ) ∈
      evaluate (f.map Neg.neg) corners :=
    List.mem_map_of_mem hmem
  cases hother : select? sense.flip (evaluate (f.map Neg.neg) corners) with
  | none =>
    rw [select?_eq_none.mp hother] at hvertex
    cases hvertex
  | some other =>
    obtain ⟨hmem', hz'⟩ := exists_mem_of_mem_evaluate (mem_of_select? hother)
    have hworse : sense.Prefers best.z (f.value other.toPoint) :=
      select?_prefers hbest ⟨other.toPoint, f.value other.toPoint⟩ (List.mem_map_of_mem hmem')
    have hbetter := select?_prefers hother _ hvertex
    rw [hz', Objective.value_negated, Objective.value_negated, Sense.prefers_flip,
      ← hz] at hbetter
    have hvalue := hbetter.antisymm hworse
    exact ⟨other, rfl, hmem', hvalue, by rw [hz', Objective.value_negated, hvalue]⟩

/-- Two solutions with the same corners and opposite values. -/
structure Solution.Opposite (s t : Solution ℚ) : Prop where
  status : t.status = s.status
  candidates : t.candidates = s.candidates
  hull : t.hull? = s.hull?
  value : t.best?.map Vertex.z = s.best?.map fun v => -v.z

theorem Solution.ofCorners_negated (o : Options ℚ) (sense : Sense) (f : Objective ℚ)
    (corners : List (Point ℚ)) (n : ℕ) :
    Opposite (ofCorners o sense f corners n)
      (ofCorners o sense.flip (f.map Neg.neg) corners n) := by
  cases hbest : Vertex.select? sense (Vertex.evaluate f corners) with
  | none =>
    have hnil : corners = [] := List.map_eq_nil_iff.mp (Vertex.select?_eq_none.mp hbest)
    have hother : Vertex.select? sense.flip (Vertex.evaluate (f.map Neg.neg) corners) = none :=
      Vertex.select?_eq_none.mpr (List.map_eq_nil_iff.mpr hnil)
    simp only [ofCorners, hbest, hother]
    exact ⟨rfl, rfl, rfl, rfl⟩
  | some best =>
    obtain ⟨other, hother, -, -, hz⟩ := Vertex.exists_select?_negated hbest
    simp only [ofCorners, hbest, hother]
    exact ⟨rfl, rfl, rfl, congrArg some hz⟩

end Corners

namespace Problem

variable {d : Draft ℚ} {p : Problem ℚ} {o : Options ℚ}

/-- Exchanging the sense and negating the objective changes neither the status nor the crossings nor
the hull, and the value is negated. The best corner stays the same if no other one is as good. -/
theorem negated_objective_solution (hd : d.check = .ok p) (heps : 0 < o.eps) :
    ∃ s t, d.solveDraft o = .ok s ∧ (d.negated (Option.map Neg.neg)).solveDraft o = .ok t ∧
      t.status = s.status ∧ t.candidates = s.candidates ∧ t.hull? = s.hull? ∧
      t.best?.map Vertex.z = s.best?.map (fun v => -v.z) ∧
      ∀ best, s.best? = some best →
        (∃! q, q ∈ p.feasibleCrossings o ∧ p.objective.value q = best.z) →
        t.best?.map Vertex.toPoint = some best.toPoint := by
  obtain rfl := eq_map_of_check hd
  -- The rows are untouched, and with them all that comes before the objective.
  have hnegated : (p.negated Neg.neg).answer o =
      Solution.ofCorners o p.sense.flip (p.objective.map Neg.neg) (p.feasibleCrossings o)
        (Line.crossingPoints o.eps (p.rows.map Row.line)).length := rfl
  obtain ⟨hstatus, hcandidates, hhull, hvalue⟩ := Solution.ofCorners_negated o p.sense p.objective
    (p.feasibleCrossings o) (Line.crossingPoints o.eps (p.rows.map Row.line)).length
  refine ⟨p.answer o, (p.negated Neg.neg).answer o, solveDraft_map_some heps p,
    solveDraft_map_some heps (p.negated Neg.neg), hstatus, hcandidates, hhull, hvalue, ?_⟩
  intro best hbest hunique
  rw [answer, Solution.ofCorners_best?] at hbest
  obtain ⟨other, hother, hmem, hsame, -⟩ := Vertex.exists_select?_negated hbest
  obtain ⟨hbestMem, hbestValue⟩ := exists_mem_of_mem_evaluate (Vertex.mem_of_select? hbest)
  rw [hnegated, Solution.ofCorners_best?, hother, Option.map_some,
    hunique.unique ⟨hmem, hsame⟩ ⟨hbestMem, hbestValue.symm⟩]

/-- The wedge has one best corner and keeps it. On the segment both ends are best, and the exchange
leads from one to the other. -/
theorem wedge_and_segment_negated :
    (∃ t, ((wedge.map some).negated (Option.map Neg.neg)).solveDraft exactOptions = .ok t ∧
      t.best?.map Vertex.z = some (-2) ∧ t.best?.map Vertex.toPoint = some ⟨2, 0⟩ ∧
      t.hull? = some [⟨0, 2⟩, ⟨2, 0⟩]) ∧
    ∃ t, ((segment.map some).negated (Option.map Neg.neg)).solveDraft exactOptions = .ok t ∧
      t.candidates = 3 ∧ t.best? = some ⟨⟨0, 1⟩, -1⟩ := by
  have heps : 0 < exactOptions.eps := by decide +kernel
  obtain ⟨s, t, hs, ht, -, -, hhull, hvalue, hpoint⟩ :=
    negated_objective_solution (p := wedge) (o := exactOptions) wedge.check_map_some heps
  rw [wedge_solution] at hs
  obtain rfl := Except.ok.inj hs
  have hunique : ∃! q, q ∈ wedge.feasibleCrossings exactOptions ∧ wedge.objective.value q = 2 := by
    have hall : ∀ q ∈ wedge.feasibleCrossings exactOptions,
        wedge.objective.value q = 2 → q = ⟨2, 0⟩ := by
      decide +kernel
    exact ⟨⟨2, 0⟩, by decide +kernel, fun q hq => hall q hq.1 hq.2⟩
  obtain ⟨s', t', hs', ht', -, hcandidates, -⟩ :=
    negated_objective_solution (p := segment) (o := exactOptions) segment.check_map_some heps
  rw [segment_solution] at hs'
  obtain rfl := Except.ok.inj hs'
  have hend : (((segment.map some).negated (Option.map Neg.neg)).solveDraft exactOptions).map
      Solution.best? = .ok (some ⟨⟨0, 1⟩, -1⟩) := by
    decide +kernel
  rw [ht'] at hend
  exact ⟨⟨t, ht, hvalue, hpoint _ rfl hunique, hhull⟩, t', ht', hcandidates, Except.ok.inj hend⟩

end Problem

end CornerPoint
