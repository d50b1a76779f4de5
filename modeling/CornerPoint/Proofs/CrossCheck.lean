import CornerPoint.CrossCheck
import CornerPoint.Proofs.Elimination
import CornerPoint.Proofs.Optimum

/-!
The corner points and a general solver agree. The matrix form of a problem admits exactly its
feasible points and its cost ranks them as the sense does, so any solver that is right about linear
programmes is right about the problem, and so are the corners once two boundary lines cross.
-/
namespace CornerPoint

namespace SolverStatus

theorem ofCode_eq_optimal {code : ℤ} : ofCode code = .optimal ↔ code = 0 := by
  unfold ofCode
  grind

theorem ofCode_eq_infeasible {code : ℤ} : ofCode code = .infeasible ↔ code = 2 := by
  unfold ofCode
  grind

end SolverStatus

namespace MatrixForm

/-- The two matrices together say what the rows say. -/
theorem ofRows_iff (rows : List (Row ℚ)) (q : Point ℚ) :
    ((∀ h ∈ (ofRows Neg.neg rows).upper, h.a * q.x + h.b * q.y ≤ h.c) ∧
      ∀ l ∈ (ofRows Neg.neg rows).equal, l.Contains q) ↔ ∀ r ∈ rows, r.Holds q := by
  induction rows with
  | nil => simp [ofRows]
  | cons r rows ih =>
    rw [List.forall_mem_cons, ← ih]
    cases hs : r.sign with
    | le =>
      have hcons : ofRows Neg.neg (r :: rows) =
          ⟨⟨r.a, r.b, r.c⟩ :: (ofRows Neg.neg rows).upper, (ofRows Neg.neg rows).equal⟩ := by
        simp [ofRows, hs]
      rw [hcons, List.forall_mem_cons, and_assoc]
      simp only [Row.Holds, hs, Row.lhs]
    | ge =>
      have hcons : ofRows Neg.neg (r :: rows) =
          ⟨⟨-r.a, -r.b, -r.c⟩ :: (ofRows Neg.neg rows).upper, (ofRows Neg.neg rows).equal⟩ := by
        simp [ofRows, hs]
      have hneg : -r.a * q.x + -r.b * q.y ≤ -r.c ↔ r.c ≤ r.lhs q := by
        unfold Row.lhs
        constructor <;> intro h <;> linarith
      rw [hcons, List.forall_mem_cons, and_assoc]
      simp only [Row.Holds, hs, hneg]
    | eq =>
      have hcons : ofRows Neg.neg (r :: rows) =
          ⟨(ofRows Neg.neg rows).upper, ⟨r.a, r.b, r.c⟩ :: (ofRows Neg.neg rows).equal⟩ := by
        simp [ofRows, hs]
      rw [hcons, List.forall_mem_cons, and_left_comm]
      simp only [Row.Holds, hs, Row.lhs, Line.Contains]

end MatrixForm

namespace LinearProgram

variable {p : Problem ℚ} {q v : Point ℚ}

theorem exact_rat (lp : LinearProgram ℚ) : lp.exact = lp := by
  simp [exact, map, Objective.map]

theorem admits_ofProblem_iff : (ofProblem p).Admits q ↔ p.Feasible q := by
  have hrows := MatrixForm.ofRows_iff p.constraints q
  constructor
  · rintro ⟨hupper, hequal, hx, hy⟩
    exact ⟨hrows.mp ⟨hupper, hequal⟩, hx, hy⟩
  · rintro ⟨hr, hx, hy⟩
    exact ⟨(hrows.mpr hr).1, (hrows.mpr hr).2, hx, hy⟩

theorem cost_ofProblem : (ofProblem p).cost.value q =
    match p.sense with
    | .min => p.objective.value q
    | .max => -p.objective.value q := by
  unfold ofProblem
  cases p.sense with
  | min => rfl
  | max =>
    change -p.objective.a * q.x + -p.objective.b * q.y =
      -(p.objective.a * q.x + p.objective.b * q.y)
    ring

/-- A smaller cost is a better value. -/
theorem cost_le_iff : (ofProblem p).cost.value q ≤ (ofProblem p).cost.value v ↔
    p.sense.Prefers (p.objective.value q) (p.objective.value v) := by
  rw [cost_ofProblem, cost_ofProblem]
  cases p.sense with
  | min => exact Iff.rfl
  | max => exact neg_le_neg_iff

theorem optimal_ofProblem_iff : (ofProblem p).Optimal q ↔
    p.Feasible q ∧ ∀ v, p.Feasible v →
      p.sense.Prefers (p.objective.value q) (p.objective.value v) := by
  simp only [Optimal, admits_ofProblem_iff, cost_le_iff]

end LinearProgram

namespace Problem

variable {d : Draft ℚ} {p : Problem ℚ} {o : Options ℚ} {solver : LinearProgram ℚ → Reply}

/-- Once two boundary lines cross, only an empty feasible set has no corner. -/
theorem feasibleCrossings_eq_nil_iff (htol : o.feasibilityTol = 0)
    (hsep : Separated o.eps p.rows) (ht : Transversal p.rows) :
    p.feasibleCrossings o = [] ↔ ¬ ∃ q, p.Feasible q := by
  constructor
  · rintro hnil ⟨q, hq⟩
    have hzero : ∀ v, (⟨0, 0⟩ : Objective ℚ).value v = 0 := by
      intro v
      change (0 : ℚ) * v.x + 0 * v.y = 0
      rw [zero_mul, zero_mul, add_zero]
    obtain ⟨v, hv, hm, -⟩ := exists_feasible_meeting ht hq fun v _ => (hzero v).le
    have hmem := mem_feasibleCrossings_of_corner (o := o) htol.ge hsep hv hm
    simp [hnil] at hmem
  · intro hn
    refine List.eq_nil_iff_forall_not_mem.mpr fun q hq => ?_
    exact hn ⟨q, feasible_of_mem_feasibleCrossings htol hq⟩

/-- The selected corner has the value of any optimum of the matrix form: there is a corner at least
as good as the optimum, and none is better. -/
theorem selected_value_eq {best : Vertex ℚ} {q : Point ℚ} (htol : o.feasibilityTol = 0)
    (hsep : Separated o.eps p.rows) (ht : Transversal p.rows)
    (hbest : Vertex.select? p.sense (Vertex.evaluate p.objective (p.feasibleCrossings o)) =
      some best) (hq : (LinearProgram.ofProblem p).Optimal q) :
    best.z = p.objective.value q := by
  obtain ⟨hqf, hqbest⟩ := LinearProgram.optimal_ofProblem_iff.mp hq
  obtain ⟨v, hv, hm, hpref⟩ := exists_preferred_corner ht hqf ⟨_, hqbest⟩
  have hcorner := mem_feasibleCrossings_of_corner (o := o) htol.ge hsep hv hm
  have hlisted : (⟨v, p.objective.value v⟩ : Vertex ℚ) ∈
      Vertex.evaluate p.objective (p.feasibleCrossings o) := List.mem_map_of_mem hcorner
  have hle := (Vertex.select?_prefers hbest _ hlisted).trans hpref
  obtain ⟨hmem, hz⟩ := exists_mem_of_mem_evaluate (Vertex.mem_of_select? hbest)
  have hge := hqbest _ (feasible_of_mem_feasibleCrossings htol hmem)
  rw [← hz] at hge
  exact hle.antisymm hge

theorem crossCheckDraft_rat (hd : d.check = .ok p) :
    d.crossCheckDraft solver =
      CrossCheck.ofReply p.sense (solver (LinearProgram.ofProblem p)) := by
  unfold crossCheckDraft
  rw [hd]
  simp only [crossCheckWith, LinearProgram.exact_rat]

/-- An optimum that a solver finds has the value that the sense asks for. -/
theorem found_of_answers {reply : Reply} (h : reply.Answers (LinearProgram.ofProblem p))
    (hcode : reply.code = 0) :
    ∃ q, (LinearProgram.ofProblem p).Optimal q ∧
      CrossCheck.ofReply p.sense reply = .answered .optimal (some (p.objective.value q, q)) := by
  obtain ⟨q, hq, hfound⟩ := h.found hcode
  refine ⟨q, hq, ?_⟩
  have hstatus : SolverStatus.ofCode reply.code = .optimal :=
    SolverStatus.ofCode_eq_optimal.mpr hcode
  simp only [CrossCheck.ofReply, hstatus, hfound, if_true, Option.map_some,
    LinearProgram.cost_ofProblem]
  cases p.sense <;> simp

/-- Whatever a solver reports that is right about linear programmes, the corners bear it out. -/
theorem crossCheck_agrees (hsolver : ∀ lp, (solver lp).Answers lp) (hd : d.check = .ok p)
    (ht : Transversal p.rows) (htol : o.feasibilityTol = 0) (heps : 0 < o.eps)
    (hsep : Separated o.eps p.rows) :
    ∃ s status found, d.solveDraft o = .ok s ∧
      d.crossCheckDraft solver = .answered status found ∧
      (status = .infeasible ↔ s.status = .infeasible) ∧
      (status = .optimal → s.status = .optimal ∧
        ∃ best q, s.best? = some best ∧ found = some (best.z, q)) ∧
      (status = .unbounded → s.status = .optimal ∧
        ∃ best, s.best? = some best ∧ p.Feasible best.toPoint) := by
  have hanswers := hsolver (LinearProgram.ofProblem p)
  rw [crossCheckDraft_rat hd]
  generalize solver (LinearProgram.ofProblem p) = reply at hanswers
  have hinfeasible : SolverStatus.ofCode reply.code = .infeasible ↔ ¬ ∃ q, p.Feasible q := by
    simp only [SolverStatus.ofCode_eq_infeasible, hanswers.infeasible,
      LinearProgram.admits_ofProblem_iff]
  rcases solveDraft_cases hd heps with ⟨hnil, n, hs⟩ | ⟨best, hull, n, hbest, hs⟩
  · -- Without a corner there is no feasible point, which excludes the other two answers.
    have hcode := hinfeasible.mpr ((feasibleCrossings_eq_nil_iff htol hsep ht).mp hnil)
    refine ⟨_, _, _, hs, rfl, ⟨fun _ => rfl, fun _ => hcode⟩, ?_, ?_⟩
    · intro h
      simp [hcode] at h
    · intro h
      simp [hcode] at h
  · have hmem := (exists_mem_of_mem_evaluate (Vertex.mem_of_select? hbest)).1
    have hfeasible := feasible_of_mem_feasibleCrossings htol hmem
    refine ⟨_, _, _, hs, rfl, ⟨fun h => (hinfeasible.mp h ⟨_, hfeasible⟩).elim, ?_⟩, ?_, ?_⟩
    · intro h
      simp [Solution.status] at h
    · intro h
      obtain ⟨q, hq, hreply⟩ :=
        found_of_answers hanswers (SolverStatus.ofCode_eq_optimal.mp h)
      rw [← selected_value_eq htol hsep ht hbest hq] at hreply
      exact ⟨rfl, best, q, rfl, (CrossCheck.answered.inj hreply).2⟩
    · intro _
      exact ⟨rfl, best, rfl, hfeasible⟩

theorem wedge_crossCheck :
    (wedge.map some).crossCheckDraft LinearProgram.solve = .answered .optimal (some (2, ⟨2, 0⟩)) ∧
    (wedge.flipped.map some).crossCheckDraft LinearProgram.solve = .answered .unbounded none ∧
    (∃ s best, (wedge.map some).solveDraft exactOptions = .ok s ∧ s.best? = some best ∧
      best.z = 2) ∧
    ∃ s best, (wedge.flipped.map some).solveDraft exactOptions = .ok s ∧ s.best? = some best ∧
      wedge.flipped.Feasible best.toPoint := by
  have hmin : (wedge.map some).crossCheckDraft LinearProgram.solve =
      .answered .optimal (some (2, ⟨2, 0⟩)) := by decide +kernel
  have hmax : (wedge.flipped.map some).crossCheckDraft LinearProgram.solve =
      .answered .unbounded none := by decide +kernel
  have hcross : Transversal wedge.rows := by
    unfold Transversal
    decide +kernel
  have heps : 0 < exactOptions.eps := by decide +kernel
  refine ⟨hmin, hmax, ?_, ?_⟩
  · obtain ⟨s, status, found, hs, hreport, -, hoptimal, -⟩ :=
      crossCheck_agrees (d := wedge.map some) (p := wedge) (o := exactOptions)
        LinearProgram.solve_answers rfl hcross rfl heps wedge_separated
    obtain ⟨rfl, rfl⟩ := CrossCheck.answered.inj (hmin.symm.trans hreport)
    obtain ⟨-, best, q, hbest, hfound⟩ := hoptimal rfl
    exact ⟨s, best, hs, hbest, (congrArg Prod.fst (Option.some.inj hfound)).symm⟩
  · obtain ⟨s, status, found, hs, hreport, -, -, hunbounded⟩ :=
      crossCheck_agrees (d := wedge.flipped.map some) (p := wedge.flipped) (o := exactOptions)
        LinearProgram.solve_answers rfl hcross rfl heps wedge_separated
    obtain ⟨rfl, rfl⟩ := CrossCheck.answered.inj (hmax.symm.trans hreport)
    obtain ⟨-, best, hbest, hfeasible⟩ := hunbounded rfl
    exact ⟨s, best, hs, hbest, hfeasible⟩

end Problem

end CornerPoint
