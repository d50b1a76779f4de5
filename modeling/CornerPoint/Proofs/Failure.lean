import CornerPoint.Diagnosis
import CornerPoint.Proofs.Binary64
import CornerPoint.Proofs.HalfPlane
import CornerPoint.Proofs.Provenance
import CornerPoint.Proofs.Validity
import CornerPoint.Report

/-!
When a solve in double precision fails. The guarded solve works on the draft as it was entered and
stops at every operation that has no result: a missing coefficient, a divisor of zero, a choice from
no vertices, a figure that is out of range once it is rounded. A check of the draft rules out all of
them but one: two parallel lines are divided by their determinant if no determinant counts as small.
-/
namespace CornerPoint

section Guarded

variable {α : Type} [Scalar α]

/-- Division that stops at a divisor of zero. -/
def guardedQuotient (x y : α) : Except Fault α :=
  if y == 0 then .error .zeroDivision else .ok (x / y)

namespace Display

def guardedNumber (v : α) : Except Fault String :=
  (round places v).map fun r =>
    match Scalar.value? r with
    | some q => String.ofList (Decimal.trimmed places q)
    | none => if 0 < v then "inf" else if v < 0 then "-inf" else "nan"

def guardedOptimum (sense : Sense) (v : Vertex α) : Except Fault String := do
  let z ← guardedNumber v.z
  let x ← guardedNumber v.x
  let y ← guardedNumber v.y
  let label := match sense with
    | .max => "Maximum"
    | .min => "Minimum"
  return label ++ ": Z = " ++ z ++ " at (x=" ++ x ++ ", y=" ++ y ++ ")"

def guardedVertex (v : Vertex α) : Except Fault String := do
  let x ← guardedNumber v.x
  let y ← guardedNumber v.y
  let z ← guardedNumber v.z
  return "(" ++ x ++ ", " ++ y ++ ")  Z = " ++ z

end Display

/-- The coefficient is looked at first, and the right-hand side only if there is an intercept. -/
def Marks.guardedIntercept (coefficient rhs : Option α) : Except Fault (List α) :=
  match coefficient, rhs with
  | none, _ => .error .blankOperand
  | some a, none => if Options.defaultEps < Scalar.abs a then .error .blankOperand else .ok []
  | some a, some c =>
    if Options.defaultEps < Scalar.abs a then (guardedQuotient c a).map fun x => [x] else .ok []

def Marks.guardedRow (r : Row (Option α)) : Except Fault (Marks α) := do
  let ys ← guardedIntercept r.b r.c
  let xs ← guardedIntercept r.a r.c
  return ⟨xs, ys⟩

def Window.guardedFrame (pad : α) (points : List (Point α)) (rows : List (Row (Option α))) :
    Except Fault (Window α) :=
  if points.isEmpty then
    (rows.mapM Marks.guardedRow).map fun marks =>
      ofMarks pad ⟨marks.flatMap (·.xs), marks.flatMap (·.ys)⟩
  else .ok (ofMarks pad (Marks.ofPoints points))

namespace Problem

def enteredRows (d : Draft α) : List (Row (Option α)) :=
  d.constraints ++ (if d.nonnegX then [nonnegRowX.map some] else []) ++
    (if d.nonnegY then [nonnegRowY.map some] else [])

/-- A solve on the entries as they are. -/
def guardedSolve (o : Options α) (d : Draft α) : Except Fault (Solution α) := do
  let planes ← CornerPoint.enteredHalfPlanes d.enteredRows
  let lines ← d.enteredRows.mapM Row.enteredLine
  let candidates ← Line.crossings o.eps lines
  let feasible := feasiblePoints o.feasibilityTol planes candidates
  if feasible.isEmpty then return .infeasible candidates.length
  let evaluated ← Vertex.evaluateEntered d.objective feasible
  let best ← Vertex.select d.sense evaluated
  let vertices := if o.listVertices then
      some (Vertex.sortByValueDescending (Vertex.merge o.dedupTol (Vertex.sortByValue evaluated)))
    else none
  return .optimal best vertices (Hull.hull o.eps feasible) candidates.length

end Problem

def Solution.guardedMessage (sense : Sense) : Solution α → Except Fault String
  | .optimal best _ _ _ => Display.guardedOptimum sense best
  | s => .ok (s.message sense)

namespace Problem

/-- The solution of a draft and its message. Once the check is passed nothing relies on it. -/
def guardedAnswer (o : Options α) (d : Draft α) : Except Fault (Solution α × String) :=
  match d.check with
  | .error defect => .ok (.invalid defect, defect.message)
  | .ok _ => do
    let s ← d.guardedSolve o
    let message ← s.guardedMessage d.sense
    return (s, message)

/-- Every draft that lacks one row is answered from the start, its check included. -/
def guardedConflict? (d : Draft α) (r : Row (Option α)) (k : Nat) :
    Except Fault (Option String) := do
  let (s, _) ← (d.without k).guardedAnswer diagnosisOptions
  return if s.status != .infeasible then some (r.label ("c" ++ toString (k + 1))) else none

def guardedDiagnosis (d : Draft α) : Except Fault Diagnosis := do
  let (s, _) ← d.guardedAnswer diagnosisOptions
  match s with
  | .invalid defect => return .invalid defect
  | .optimal .. => return .solvable
  | .infeasible _ =>
    let labels ← d.constraints.zipIdx.mapM fun (r, k) => d.guardedConflict? r k
    return .infeasible (labels.filterMap id)

end Problem

def Report.guarded (o : Options α) (d : Draft α) : Except Fault (Report α) := do
  let (s, message) ← d.guardedAnswer o
  if s.status = .invalid then return ⟨s, message, none⟩
  let vertices := s.vertices?.getD []
  let listing ← vertices.mapM Display.guardedVertex
  let points := if vertices.isEmpty then s.hull?.getD [] else vertices.map (·.toPoint)
  let window ← Window.guardedFrame Window.defaultPad points d.constraints
  return ⟨s, message, some ⟨listing, window⟩⟩

end Guarded

section Laws

theorem defaultEps_pos_float : 0 < (Options.defaultEps : Float) := by decide +kernel

theorem abs_float_of_beq_zero {x : Float} (h : x == 0) : Scalar.abs x = 0 :=
  Binary64.abs_eq_zero_of_beq h

theorem guardedQuotient_eq (x : Float) {y : Float} (h : Options.defaultEps < Scalar.abs y) :
    guardedQuotient x y = .ok (x / y) := by
  refine if_neg fun hy => ?_
  rw [abs_float_of_beq_zero hy] at h
  exact absurd h (by decide +kernel)

theorem Display.round_places (v : Float) : round places v = .ok (shown v) := by
  have hsome : (round? places v).isSome = true := by
    unfold round?
    split
    · rfl
    · rw [Option.isSome_map]
      exact Binary64.roundTo?_places_isSome v
  obtain ⟨r, hr⟩ := Option.isSome_iff_exists.mp hsome
  rw [round, shown, hr]
  rfl

end Laws

namespace Line

variable {eps : Float} {lines : List (Line Float)}

/-- Two lines cannot be crossed exactly if their determinant is zero and zero is not small. -/
theorem crossing_eq_error_iff {l m : Line Float} {fault : Fault} :
    crossing eps l m = .error fault ↔ fault = .zeroDivision ∧ ¬0 < eps ∧ (l.det m == 0) = true := by
  unfold crossing
  constructor
  · intro h
    split at h
    · cases h
    · rename_i hsize
      split at h
      · rename_i hdet
        rw [abs_float_of_beq_zero hdet] at hsize
        exact ⟨(Except.error.inj h).symm, hsize, hdet⟩
      · cases h
  · rintro ⟨rfl, hsize, hdet⟩
    rw [abs_float_of_beq_zero hdet, if_neg hsize]
    exact if_pos hdet

theorem crossings_eq_error_iff {fault : Fault} :
    crossings eps lines = .error fault ↔
      fault = .zeroDivision ∧ ¬0 < eps ∧
        ∃ (i j : ℕ) (l m : Line Float), i < j ∧ lines[i]? = some l ∧ lines[j]? = some m ∧
          (l.det m == 0) = true := by
  unfold crossings
  constructor
  · intro h
    rcases mapM_cases (fun pair : Line Float × Line Float => crossing eps pair.1 pair.2)
      (pairs lines) with ⟨found, hok, -⟩ | ⟨e, herror, ⟨l, m⟩, hmem, hlm⟩
    · rw [hok] at h
      cases h
    · rw [herror] at h
      obtain rfl := Except.error.inj h
      obtain ⟨hfault, heps, hdet⟩ := crossing_eq_error_iff.mp hlm
      obtain ⟨i, j, hij, hi, hj⟩ := mem_pairs_iff.mp hmem
      exact ⟨hfault, heps, i, j, l, m, hij, hi, hj, hdet⟩
  · rintro ⟨rfl, heps, i, j, l, m, hij, hi, hj, hdet⟩
    rcases mapM_cases (fun pair : Line Float × Line Float => crossing eps pair.1 pair.2)
      (pairs lines) with ⟨found, -, hall⟩ | ⟨e, herror, ⟨l', m'⟩, -, hlm⟩
    · obtain ⟨q, hq⟩ := hall (l, m) (mem_pairs_iff.mpr ⟨i, j, hij, hi, hj⟩)
      rw [crossing_eq_error_iff.mpr ⟨rfl, heps, hdet⟩] at hq
      cases hq
    · obtain ⟨rfl, -⟩ := crossing_eq_error_iff.mp hlm
      rw [herror]
      rfl

end Line

namespace Problem

variable {o : Options Float} {p : Problem Float} {d : Draft Float}

/-- Some two boundary lines have a determinant of zero. -/
def HasParallel (p : Problem Float) : Prop :=
  ∃ (i j : ℕ) (r s : Row Float), i < j ∧ p.rows[i]? = some r ∧ p.rows[j]? = some s ∧
    (r.line.det s.line == 0) = true

theorem solve_eq_error_iff {fault : Fault} :
    p.solve o = .error fault ↔ fault = .zeroDivision ∧ ¬0 < o.eps ∧ p.HasParallel := by
  have hlines : Line.crossings o.eps (p.rows.map Row.line) = .error fault ↔
      fault = .zeroDivision ∧ ¬0 < o.eps ∧ p.HasParallel := by
    rw [Line.crossings_eq_error_iff]
    refine and_congr_right' (and_congr_right' ⟨?_, ?_⟩)
    · rintro ⟨i, j, l, m, hij, hi, hj, hdet⟩
      rw [List.getElem?_map, Option.map_eq_some_iff] at hi hj
      obtain ⟨r, hr, rfl⟩ := hi
      obtain ⟨s, hs, rfl⟩ := hj
      exact ⟨i, j, r, s, hij, hr, hs, hdet⟩
    · rintro ⟨i, j, r, s, hij, hr, hs, hdet⟩
      exact ⟨i, j, r.line, s.line, hij, by rw [List.getElem?_map, hr]; rfl,
        by rw [List.getElem?_map, hs]; rfl, hdet⟩
  rw [← hlines]
  unfold solve workings
  cases Line.crossings o.eps (p.rows.map Row.line) <;> simp [Except.map]

theorem exists_solve_of_pos (heps : 0 < o.eps) : ∃ s, p.solve o = .ok s := by
  cases h : p.solve o with
  | ok s => exact ⟨s, rfl⟩
  | error fault => exact absurd heps (solve_eq_error_iff.mp h).2.1

/-- With the tolerances of a diagnosis every sub-problem is solved. -/
theorem exists_diagnoseDraft (d : Draft Float) : ∃ diagnosis, d.diagnoseDraft = .ok diagnosis := by
  have hsolve (q : Problem Float) : ∃ s, q.solve diagnosisOptions = .ok s :=
    exists_solve_of_pos defaultEps_pos_float
  unfold diagnoseDraft
  split
  · exact ⟨_, rfl⟩
  rename_i p hp
  have hconflicts : ∃ labels, p.conflicts = .ok labels := by
    unfold conflicts
    rcases mapM_cases (fun entry : Row Float × ℕ => p.conflict? entry.1 entry.2)
      p.constraints.zipIdx with ⟨found, hok, -⟩ | ⟨fault, -, ⟨r, k⟩, -, hfault⟩
    · exact ⟨_, by rw [hok]; rfl⟩
    · obtain ⟨s, hs⟩ := hsolve (p.without k)
      simp [conflict?, restoredWithout, hs, Except.map] at hfault
  obtain ⟨s, hs⟩ := hsolve p
  obtain ⟨labels, hlabels⟩ := hconflicts
  rw [diagnose, hs, hlabels]
  by_cases hstatus : s.status = .infeasible
  · exact ⟨.infeasible labels, by simp [hstatus, bind, Except.bind, pure, Except.pure]⟩
  · exact ⟨.solvable, by simp [hstatus, bind, Except.bind, pure, Except.pure]⟩

theorem enteredRows_map_some {α : Type} [Scalar α] (p : Problem α) :
    (p.map some).enteredRows = p.rows.map (Row.map some) := by
  cases hx : p.nonnegX <;> cases hy : p.nonnegY <;> simp [enteredRows, rows, map, hx, hy]

/-- A problem without blanks is solved the same with and without guards. -/
theorem guardedSolve_map_some {α : Type} [Scalar α] (o : Options α) (p : Problem α) :
    (p.map some).guardedSolve o = p.solve o := by
  have hlines : (p.rows.map (Row.map some)).mapM Row.enteredLine = .ok (p.rows.map Row.line) := by
    rw [List.mapM_map]
    exact mapM_eq_ok (fun r => rfl) _
  unfold guardedSolve solve workings
  rw [enteredRows_map_some, enteredHalfPlanes_map_some, hlines]
  simp only [bind, Except.bind, pure, Except.pure]
  cases Line.crossings o.eps (p.rows.map Row.line) with
  | error fault => rfl
  | ok candidates =>
    simp only [Except.map, Solution.ofWorkings, Workings.ofCandidates]
    generalize feasiblePoints o.feasibilityTol (CornerPoint.halfPlanes p.rows) candidates = feasible
    have hvertices : Vertex.evaluateEntered (p.map some).objective feasible =
        .ok (Vertex.evaluate p.objective feasible) := rfl
    cases hbest : Vertex.select? p.sense (Vertex.evaluate p.objective feasible) with
    | none =>
      obtain rfl : feasible = [] := List.map_eq_nil_iff.mp (Vertex.select?_eq_none.mp hbest)
      rfl
    | some best =>
      have hne : feasible.isEmpty = false := by
        cases feasible with
        | nil => cases (Vertex.select?_eq_none.mpr rfl).symm.trans hbest
        | cons q feasible => rfl
      have hselect : Vertex.select (p.map some).sense (Vertex.evaluate p.objective feasible) =
          .ok best := by
        rw [Vertex.select, show (p.map some).sense = p.sense from rfl, hbest]
      simp only [hne, hvertices, hselect, Bool.false_eq_true, if_false]

end Problem

section Display

theorem Display.guardedNumber_eq (v : Float) : guardedNumber v = .ok (number v) := by
  rw [guardedNumber, round_places]
  rfl

theorem Display.guardedVertex_eq (v : Vertex Float) : guardedVertex v = .ok (vertex v) := by
  simp only [guardedVertex, guardedNumber_eq]
  rfl

theorem Solution.guardedMessage_eq (sense : Sense) (s : Solution Float) :
    s.guardedMessage sense = .ok (s.message sense) := by
  cases s with
  | optimal best vertices hull n =>
    simp only [guardedMessage, Display.guardedOptimum, Display.guardedNumber_eq]
    rfl
  | invalid defect => rfl
  | infeasible n => rfl

/-- A line that is far enough from an axis is never divided by zero. -/
theorem Marks.guardedIntercept_eq (a c : Float) :
    guardedIntercept (some a) (some c) =
      .ok (if Options.defaultEps < Scalar.abs a then [c / a] else []) := by
  unfold guardedIntercept
  simp only
  split
  · rename_i ha
    rw [guardedQuotient_eq c ha]
    rfl
  · rfl

theorem Window.guardedFrame_map_some (pad : Float) (points : List (Point Float))
    (rows : List (Row Float)) :
    guardedFrame pad points (rows.map (Row.map some)) = .ok (frame pad points rows) := by
  have hrow (r : Row Float) : Marks.guardedRow (r.map some) = .ok (Marks.ofRow r) := by
    simp only [Marks.guardedRow, Row.map, Marks.guardedIntercept_eq]
    rfl
  have hrows : (rows.map (Row.map some)).mapM Marks.guardedRow = .ok (rows.map Marks.ofRow) := by
    rw [List.mapM_map]
    exact mapM_eq_ok hrow rows
  unfold guardedFrame frame
  rw [hrows]
  split
  · simp only [Except.map, List.flatMap_map, Marks.ofRows]
  · rfl

end Display

namespace Problem

theorem solve_status_ne_invalid {α : Type} [Scalar α] {o : Options α} {p : Problem α}
    {s : Solution α} (h : p.solve o = .ok s) : s.status ≠ .invalid := by
  unfold solve at h
  cases hw : p.workings o with
  | error fault => simp [hw, Except.map] at h
  | ok w =>
    simp only [hw, Except.map, Except.ok.injEq] at h
    rw [← h, Solution.ofWorkings]
    split <;> simp [Solution.status]

theorem guardedAnswer_eq (o : Options Float) (d : Draft Float) :
    d.guardedAnswer o = (d.solveDraft o).map fun s => (s, s.message d.sense) := by
  unfold guardedAnswer solveDraft
  cases hd : d.check with
  | error defect => rfl
  | ok p =>
    obtain rfl := eq_map_of_check hd
    simp only [guardedSolve_map_some, Solution.guardedMessage_eq]
    rfl

theorem guardedConflict?_eq {d : Draft Float} {p : Problem Float} (h : d.check = .ok p)
    (r : Row Float) (k : ℕ) : d.guardedConflict? (r.map some) k = p.conflict? r k := by
  unfold guardedConflict? conflict? restoredWithout
  rw [guardedAnswer_eq, solveDraft, check_without h k]
  simp only
  cases (p.without k).solve diagnosisOptions with
  | error fault => rfl
  | ok s => rfl

theorem guardedDiagnosis_eq (d : Draft Float) : d.guardedDiagnosis = d.diagnoseDraft := by
  unfold guardedDiagnosis diagnoseDraft
  rw [guardedAnswer_eq, solveDraft]
  cases hd : d.check with
  | error defect => rfl
  | ok p =>
    simp only [diagnose]
    cases hs : p.solve diagnosisOptions with
    | error fault => rfl
    | ok s =>
      have hconflicts : (d.constraints.zipIdx.mapM fun (r, k) => d.guardedConflict? r k) =
          p.constraints.zipIdx.mapM fun (r, k) => p.conflict? r k := by
        have hrows : d.constraints = p.constraints.map (Row.map some) :=
          congrArg constraints (eq_map_of_check hd)
        rw [hrows, List.zipIdx_map, List.mapM_map]
        congr 1
        funext ⟨r, k⟩
        exact guardedConflict?_eq hd r k
      cases s with
      | invalid defect => exact absurd rfl (solve_status_ne_invalid hs)
      | optimal best vertices hull n => rfl
      | infeasible n =>
        simp only [hconflicts, conflicts]
        cases p.constraints.zipIdx.mapM fun (r, k) => p.conflict? r k with
        | error fault => rfl
        | ok labels => rfl

end Problem

namespace Report

theorem guarded_eq (o : Options Float) (d : Draft Float) : guarded o d = ofDraft o d := by
  unfold guarded ofDraft
  rw [Problem.guardedAnswer_eq, Problem.solveDraft]
  cases hd : d.check with
  | error defect => rfl
  | ok p =>
    obtain rfl := Problem.eq_map_of_check hd
    simp only
    cases hs : p.solve o with
    | error fault => rfl
    | ok s =>
      simp only [bind, Except.bind, pure, Except.pure, Except.map,
        if_neg (Problem.solve_status_ne_invalid hs), mapM_eq_ok Display.guardedVertex_eq,
        Problem.map, Window.guardedFrame_map_some]
      rfl

theorem ofDraft_eq_error_iff {o : Options Float} {d : Draft Float} {fault : Fault} :
    ofDraft o d = .error fault ↔
      fault = .zeroDivision ∧ ¬0 < o.eps ∧ ∃ p, d.check = .ok p ∧ p.HasParallel := by
  unfold ofDraft
  cases hd : d.check with
  | error defect => simp
  | ok p =>
    have hsolve : p.solve o = .error fault ↔ _ := Problem.solve_eq_error_iff
    simp only [Except.ok.injEq, exists_eq_left', ← hsolve]
    cases p.solve o <;> simp [Except.map]

/-- A report fails exactly if the draft is valid, no determinant counts as small, and two boundary
lines have a determinant of zero. Any other report says whether the draft has a defect, and names
the objective or else the first row that has one. Every operation that could have stopped it on the
way has a result, and a diagnosis never fails. -/
theorem ofDraft_outcome (o : Options Float) (d : Draft Float) :
    (∀ fault, ofDraft o d = .error fault ↔
      fault = .zeroDivision ∧ ¬0 < o.eps ∧ ∃ p, d.check = .ok p ∧ p.HasParallel) ∧
    (∀ report, ofDraft o d = .ok report →
      (report.solution.status = .invalid ↔ d.Defective) ∧
      (d.objective.Defective →
        report.message = "Objective coefficients are incomplete or not finite.") ∧
      (¬d.objective.Defective → ∀ k r, FirstDefective d.constraints k r →
        report.message = "Constraint " ++ r.label ("#" ++ toString (k + 1)) ++
          " is incomplete or has non-finite values.")) ∧
    guarded o d = ofDraft o d ∧
    d.guardedDiagnosis = d.diagnoseDraft ∧ ∃ diagnosis, d.diagnoseDraft = .ok diagnosis := by
  refine ⟨fun fault => ofDraft_eq_error_iff, ?_, guarded_eq o d, d.guardedDiagnosis_eq,
    d.exists_diagnoseDraft⟩
  intro report hreport
  unfold ofDraft at hreport
  rcases d.check_cases with ⟨p, hp, -, hsound⟩ | ⟨hd, hobjective⟩ | ⟨k, r, hd, hobjective, hfirst⟩
  · -- A valid draft has a solution that is not called invalid, and no part to be blamed.
    rw [hp] at hreport
    cases hs : p.solve o with
    | error fault => simp [hs, Except.map] at hreport
    | ok s =>
      simp only [hs, Except.map, Except.ok.injEq] at hreport
      obtain rfl := hreport
      refine ⟨iff_of_false (Problem.solve_status_ne_invalid hs) hsound, ?_, ?_⟩
      · intro hobjective
        exact absurd (Or.inl hobjective) hsound
      · intro _ k r hfirst
        exact absurd (Or.inr ⟨r, List.mem_of_getElem? hfirst.here, hfirst.defective⟩) hsound
  · rw [hd] at hreport
    obtain rfl := Except.ok.inj hreport
    exact ⟨iff_of_true rfl (Or.inl hobjective), fun _ => rfl, fun h => absurd hobjective h⟩
  · rw [hd] at hreport
    obtain rfl := Except.ok.inj hreport
    refine ⟨iff_of_true rfl (Or.inr ⟨r, List.mem_of_getElem? hfirst.here, hfirst.defective⟩),
      fun h => absurd h hobjective, ?_⟩
    intro _ k' r' hfirst'
    obtain ⟨rfl, rfl⟩ := hfirst.unique hfirst'
    exact Defect.message_row k r

/-- Two copies of one row, and an `eps` that is not a number. -/
example : (ofDraft { Options.default with eps := (0.0 : Float) / 0.0 }
    { objective := ⟨some 1.0, some 1.0⟩
      constraints := [{ a := some 1.0, b := some 0.0, c := some 2.0 },
        { a := some 1.0, b := some 0.0, c := some 2.0 }] }).toOption.isNone = true := by
  decide +kernel

end Report

end CornerPoint
