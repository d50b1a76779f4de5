import CornerPoint.Proofs.Hull
import CornerPoint.Proofs.Matches
import CornerPoint.Proofs.Optimum
import CornerPoint.Proofs.Validity

/-!
A solve over exact numbers as a function of its feasible corners. A draft is valid exactly if none
of its coefficients is missing, and then its rows matter only through the corners and the number of
crossings. The order of the corners decides between ties and nothing else, and repeated corners
with the same matches decide nothing at all.
-/
namespace CornerPoint

section Check

theorem checkRows_map_some (start : ℕ) (rows : List (Row ℚ)) :
    checkRows start (rows.map (Row.map some)) = .ok rows := by
  induction rows generalizing start with
  | nil => rfl
  | cons row rows ih =>
    simp only [List.map_cons, checkRows, ih]
    rfl

theorem Problem.check_map_some (p : Problem ℚ) : (p.map some).check = .ok p := by
  have hf : (p.map some).objective.check? = some p.objective := rfl
  have hrows : checkRows 0 (p.map some).constraints = .ok p.constraints := checkRows_map_some 0 _
  simp only [check, hf, hrows]
  rfl

end Check

namespace Vertex

theorem merge_eq_of_sameMatches {tol : ℚ} (htol : 0 ≤ tol) {vs ws : List (Vertex ℚ)}
    (h : SameMatches vs ws) : merge tol vs = merge tol ws := by
  -- The vertices near the first one drop out of both lists, so the lists get shorter.
  induction hn : vs.length using Nat.strong_induction_on generalizing vs ws with
  | h n ih =>
    subst hn
    have hhead := h.head?_eq
    match vs, ws with
    | [], [] => rfl
    | [], w :: ws => simp at hhead
    | v :: vs, [] => simp at hhead
    | v :: vs, w :: ws =>
      obtain rfl : v = w := by simpa using hhead
      have hrest := h.filter fun w => !near tol w v
      simp only [List.filter_cons, near_self htol, Bool.not_true, Bool.false_eq_true,
        if_false] at hrest
      have hshorter : (vs.filter fun w => !near tol w v).length < (v :: vs).length :=
        Nat.lt_succ_of_le (List.length_filter_le ..)
      rw [merge_cons, merge_cons, ih _ hshorter hrest rfl]

theorem select?_eq_of_sameMatches {sense : Sense} {vs ws : List (Vertex ℚ)}
    (h : SameMatches vs ws) : select? sense vs = select? sense ws := by
  have hsorted := h.sort lower_weakOrder
  cases sense with
  | max => exact hsorted.getLast?_eq
  | min => exact hsorted.head?_eq

end Vertex

namespace Solution

/-- What is answered when the feasible crossings are `corners`, out of `n` crossings in all. -/
def ofCorners (o : Options ℚ) (sense : Sense) (f : Objective ℚ) (corners : List (Point ℚ))
    (n : ℕ) : Solution ℚ :=
  match Vertex.select? sense (Vertex.evaluate f corners) with
  | none => .infeasible n
  | some best =>
    .optimal best
      (if o.listVertices then
        some (Vertex.sortByValueDescending (Vertex.merge o.dedupTol
          (Vertex.sortByValue (Vertex.evaluate f corners))))
      else none)
      (Hull.hull o.eps corners) n

/-- Two solutions that differ at most in their hulls and in how many crossings were tried. -/
structure SameAnswer (s t : Solution ℚ) : Prop where
  status : s.status = t.status
  best : s.best? = t.best?
  vertices : s.vertices? = t.vertices?

theorem SameAnswer.infeasible (m n : ℕ) : SameAnswer (.infeasible m) (.infeasible n) :=
  ⟨rfl, rfl, rfl⟩

theorem SameAnswer.optimal (best : Vertex ℚ) (vertices : Option (List (Vertex ℚ)))
    (hull other : List (Point ℚ)) (m n : ℕ) :
    SameAnswer (.optimal best vertices hull m) (.optimal best vertices other n) :=
  ⟨rfl, rfl, rfl⟩

variable {o : Options ℚ} {sense : Sense} {f : Objective ℚ} {corners others : List (Point ℚ)}

theorem ofCorners_best? (o : Options ℚ) (sense : Sense) (f : Objective ℚ)
    (corners : List (Point ℚ)) (n : ℕ) :
    (ofCorners o sense f corners n).best? = Vertex.select? sense (Vertex.evaluate f corners) := by
  unfold ofCorners
  split
  · rename_i hnone
    rw [hnone]
    rfl
  · rename_i best hbest
    rw [hbest]
    rfl

theorem ofCorners_candidates (o : Options ℚ) (sense : Sense) (f : Objective ℚ)
    (corners : List (Point ℚ)) (n : ℕ) : (ofCorners o sense f corners n).candidates = n := by
  unfold ofCorners
  split
  · rfl
  · rfl

theorem status_eq_optimal_iff (s : Solution ℚ) :
    s.status = .optimal ↔ ∃ best, s.best? = some best := by
  cases s with
  | invalid defect => simp [status, best?]
  | infeasible n => simp [status, best?]
  | optimal best vertices hull n => simp [status, best?]

theorem ofCorners_perm (h : corners.Perm others) (n : ℕ) :
    (ofCorners o sense f corners n).status = (ofCorners o sense f others n).status ∧
    (ofCorners o sense f corners n).candidates = (ofCorners o sense f others n).candidates ∧
    (ofCorners o sense f corners n).best?.map Vertex.z =
      (ofCorners o sense f others n).best?.map Vertex.z ∧
    (ofCorners o sense f corners n).hull? = (ofCorners o sense f others n).hull? := by
  have hvalue : (Vertex.select? sense (Vertex.evaluate f corners)).map Vertex.z =
      (Vertex.select? sense (Vertex.evaluate f others)).map Vertex.z :=
    Vertex.select?_value_eq_of_perm (h.map _)
  unfold ofCorners
  cases hc : Vertex.select? sense (Vertex.evaluate f corners) with
  | none =>
    cases ho : Vertex.select? sense (Vertex.evaluate f others) with
    | none =>
      simp only [and_self]
    | some other => simp [hc, ho] at hvalue
  | some best =>
    cases ho : Vertex.select? sense (Vertex.evaluate f others) with
    | none => simp [hc, ho] at hvalue
    | some other =>
      rw [hc, ho] at hvalue
      simp only [Hull.hull_eq_of_perm o.eps h]
      exact ⟨rfl, rfl, hvalue, rfl⟩

theorem ofCorners_sameAnswer (htol : 0 ≤ o.dedupTol) (h : SameMatches corners others) (m n : ℕ) :
    SameAnswer (ofCorners o sense f corners m) (ofCorners o sense f others n) := by
  have hvalued : SameMatches (Vertex.evaluate f corners) (Vertex.evaluate f others) := h.map _
  have hmerged : Vertex.merge o.dedupTol (Vertex.sortByValue (Vertex.evaluate f corners)) =
      Vertex.merge o.dedupTol (Vertex.sortByValue (Vertex.evaluate f others)) :=
    Vertex.merge_eq_of_sameMatches htol (hvalued.sort Vertex.lower_weakOrder)
  unfold ofCorners
  rw [Vertex.select?_eq_of_sameMatches hvalued, hmerged]
  split
  · exact SameAnswer.infeasible m n
  · exact SameAnswer.optimal ..

end Solution

namespace Problem

variable {o : Options ℚ}

/-- The solution of a problem whose coefficients are all there. -/
def answer (o : Options ℚ) (p : Problem ℚ) : Solution ℚ :=
  Solution.ofCorners o p.sense p.objective (p.feasibleCrossings o)
    (Line.crossingPoints o.eps (p.rows.map Row.line)).length

theorem solveDraft_map_some (heps : 0 < o.eps) (p : Problem ℚ) :
    (p.map some).solveDraft o = .ok (p.answer o) := by
  rw [solveDraft_rat p.check_map_some heps, Except.ok.injEq]
  have hw : (Workings.ofCandidates o p
      (Line.crossingPoints o.eps (p.rows.map Row.line))).evaluated =
      Vertex.evaluate p.objective (p.feasibleCrossings o) := rfl
  simp only [Solution.ofWorkings, answer, Solution.ofCorners, hw]
  cases Vertex.select? p.sense (Vertex.evaluate p.objective (p.feasibleCrossings o)) with
  | none => rfl
  | some best => rfl

end Problem

end CornerPoint
