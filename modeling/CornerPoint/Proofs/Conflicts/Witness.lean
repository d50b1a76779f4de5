import CornerPoint.Diagnosis
import CornerPoint.Proofs.Pairs
import CornerPoint.Proofs.Validity

/-!
What a diagnosis says about the rows it names. It names a row exactly if there is an optimum without
it. The crossings of fewer rows are among those of all rows, of which none was feasible; an optimum
that appears when a row is dropped therefore satisfies all other rows and fails the dropped one. No
law of arithmetic is used.
-/
namespace CornerPoint

variable {α : Type} [Scalar α]

theorem Point.satisfies_halfPlanes_iff {tol : α} {rows : List (Row α)} {q : Point α} :
    q.satisfies tol (halfPlanes rows) ↔
      ∀ (j : ℕ) r, rows[j]? = some r → ∀ h ∈ r.halfPlanes, h.admits tol q := by
  simp only [Point.satisfies, halfPlanes, List.all_eq_true, List.mem_flatMap]
  constructor
  · intro hall j r hr h hh
    exact hall h ⟨r, List.mem_of_getElem? hr, hh⟩
  · rintro hall h ⟨r, hr, hh⟩
    obtain ⟨j, hj⟩ := List.mem_iff_getElem?.mp hr
    exact hall j r hj h hh

namespace Problem

variable {d : Draft α} {p : Problem α} {o : Options α} {k : ℕ} {best : Vertex α}
  {points : List (Point α)}

/-- The best vertex that a solve finds, if it finds one. -/
def best? (o : Options α) (p : Problem α) : Option (Vertex α) :=
  (p.solve o).toOption.bind Solution.best?

theorem best?_eq_some : p.best? o = some best ↔
    ∃ vertices hull n, p.solve o = .ok (.optimal best vertices hull n) := by
  unfold best?
  cases p.solve o with
  | error fault => simp [Except.toOption]
  | ok s => cases s <;> simp [Except.toOption, Solution.best?]

theorem best?_eq_select? (h : Line.crossings o.eps (p.rows.map Row.line) = .ok points) :
    p.best? o = Vertex.select? p.sense (Workings.ofCandidates o p points).evaluated := by
  unfold best? solve workings
  simp only [h, Except.map, Except.toOption, Option.bind_some, Solution.ofWorkings]
  cases Vertex.select? p.sense (Workings.ofCandidates o p points).evaluated with
  | none => rfl
  | some best => rfl

theorem exists_crossings_of_solve {s : Solution α} (h : p.solve o = .ok s) :
    ∃ points, Line.crossings o.eps (p.rows.map Row.line) = .ok points := by
  unfold solve workings at h
  cases hpoints : Line.crossings o.eps (p.rows.map Row.line) with
  | error fault => simp [hpoints, Except.map] at h
  | ok points => exact ⟨points, rfl⟩

/-- A solve that runs through without finding a best vertex reports that there is none. -/
theorem status_of_solve {s : Solution α} (h : p.solve o = .ok s) :
    s.status = .infeasible ↔ p.best? o = none := by
  obtain ⟨points, hpoints⟩ := exists_crossings_of_solve h
  rw [best?_eq_select? hpoints]
  unfold solve workings at h
  simp only [hpoints, Except.map, Except.ok.injEq, Solution.ofWorkings] at h
  subst h
  cases Vertex.select? p.sense (Workings.ofCandidates o p points).evaluated with
  | none => simp [Solution.status]
  | some best => simp [Solution.status]

theorem best?_diagnosisOptions (p : Problem α) :
    p.best? diagnosisOptions = p.best? Options.default := by
  have hsame : p.workings diagnosisOptions = p.workings Options.default := rfl
  unfold best? solve
  rw [hsame]
  cases p.workings Options.default with
  | error fault => rfl
  | ok w =>
    simp only [Except.map, Except.toOption, Option.bind_some, Solution.ofWorkings]
    cases Vertex.select? p.sense w.evaluated <;> rfl

theorem mem_feasible_iff {q : Point α} : q ∈ (Workings.ofCandidates o p points).feasible ↔
    q ∈ points ∧ q.satisfies o.feasibilityTol (CornerPoint.halfPlanes p.rows) := by
  change q ∈ feasiblePoints o.feasibilityTol (CornerPoint.halfPlanes p.rows) points ↔ _
  rw [feasiblePoints_eq_filter, List.mem_filter]

theorem not_satisfies_of_best?_eq_none
    (hpoints : Line.crossings o.eps (p.rows.map Row.line) = .ok points) (h : p.best? o = none)
    {q : Point α} (hq : q ∈ points) :
    ¬q.satisfies o.feasibilityTol (CornerPoint.halfPlanes p.rows) := by
  rw [best?_eq_select? hpoints, Vertex.select?_eq_none] at h
  have hnil : (Workings.ofCandidates o p points).feasible = [] := List.map_eq_nil_iff.mp h
  intro hsat
  have hmem := mem_feasible_iff.mpr ⟨hq, hsat⟩
  rw [hnil] at hmem
  exact List.not_mem_nil hmem

theorem rows_without (hk : k < p.constraints.length) : (p.without k).rows = p.rows.eraseIdx k := by
  unfold rows without
  rw [List.append_assoc, List.append_assoc, List.eraseIdx_append_of_lt_length hk]

theorem getElem?_rows (hk : k < p.constraints.length) : p.rows[k]? = p.constraints[k]? := by
  unfold rows
  rw [List.append_assoc, List.getElem?_append_left hk]

/-- The point lies within the tolerance of every half-plane of the other rows, and fails the test of
some half-plane of row `k`. -/
structure FailsOnly (tol : α) (p : Problem α) (k : ℕ) (q : Point α) : Prop where
  others : ∀ j s, j ≠ k → p.rows[j]? = some s → ∀ h ∈ s.halfPlanes, h.admits tol q
  failed : ∃ r, p.constraints[k]? = some r ∧ ∃ h ∈ r.halfPlanes, h.admits tol q = false

theorem failsOnly_of_best? (hk : k < p.constraints.length)
    (hpoints : Line.crossings o.eps (p.rows.map Row.line) = .ok points) (hnone : p.best? o = none)
    (hbest : (p.without k).best? o = some best) :
    p.FailsOnly o.feasibilityTol k best.toPoint := by
  obtain ⟨_, _, _, hsolve⟩ := best?_eq_some.mp hbest
  obtain ⟨fewer, hfewer⟩ := exists_crossings_of_solve hsolve
  rw [best?_eq_select? hfewer] at hbest
  obtain ⟨hmem, hsat⟩ :=
    mem_feasible_iff.mp (exists_mem_of_mem_evaluate (Vertex.mem_of_select? hbest)).1
  rw [rows_without hk] at hfewer hsat
  have hsub : fewer.Sublist points :=
    Line.crossings_sublist ((List.eraseIdx_sublist ..).map Row.line) hfewer hpoints
  have hothers : ∀ j s, j ≠ k → p.rows[j]? = some s → ∀ h ∈ s.halfPlanes,
      h.admits o.feasibilityTol best.toPoint := by
    intro j s hjk hs
    obtain ⟨i, hi⟩ := List.mem_iff_getElem?.mp
      (List.mem_eraseIdx_iff_getElem?.mpr ⟨j, hjk, hs⟩)
    exact Point.satisfies_halfPlanes_iff.mp hsat i s hi
  refine ⟨hothers, p.constraints[k], List.getElem?_eq_getElem hk, ?_⟩
  -- If row `k` held too, a crossing of all rows would be feasible after all.
  by_contra hpass
  push Not at hpass
  refine not_satisfies_of_best?_eq_none hpoints hnone (hsub.mem hmem) ?_
  refine Point.satisfies_halfPlanes_iff.mpr fun j s hs => ?_
  by_cases hjk : j = k
  · subst hjk
    rw [getElem?_rows hk, List.getElem?_eq_getElem hk, Option.some.injEq] at hs
    subst hs
    simpa using hpass
  · exact hothers j s hjk hs

theorem conflict?_toOption (p : Problem α) (r : Row α) (k : ℕ) :
    (p.conflict? r k).toOption.join =
      ((p.without k).best? Options.default).map fun _ => r.label ("c" ++ toString (k + 1)) := by
  rw [← best?_diagnosisOptions]
  unfold conflict? restoredWithout
  cases hs : (p.without k).solve diagnosisOptions with
  | error fault => simp [best?, hs, Except.map, Except.toOption]
  | ok s =>
    have hstatus := status_of_solve hs
    cases hbest : (p.without k).best? diagnosisOptions with
    | none => simp [Except.map, Except.toOption, hstatus.mpr hbest]
    | some best =>
      have hother : s.status ≠ .infeasible := by simp [hstatus, hbest]
      simp [Except.map, Except.toOption, hother]

/-- The rows without which there is an optimum, with their positions. -/
def restorers (p : Problem α) : List (Row α × ℕ) :=
  p.constraints.zipIdx.filter fun entry => ((p.without entry.2).best? Options.default).isSome

theorem mem_restorers {r : Row α} : (r, k) ∈ p.restorers ↔
    p.constraints[k]? = some r ∧ ∃ best, (p.without k).best? Options.default = some best := by
  rw [restorers, List.mem_filter, List.mk_mem_zipIdx_iff_getElem?, Option.isSome_iff_exists]

theorem restorers_sublist (p : Problem α) : p.restorers.Sublist p.constraints.zipIdx :=
  List.filter_sublist

theorem conflicts_eq_ok {labels : List String} (h : p.conflicts = .ok labels) :
    labels = p.restorers.map fun entry => entry.1.label ("c" ++ toString (entry.2 + 1)) := by
  unfold conflicts at h
  cases hall : p.constraints.zipIdx.mapM fun (r, k) => p.conflict? r k with
  | error fault => simp [hall, Except.map] at h
  | ok found =>
    obtain rfl : found.filterMap id = labels := by simpa [hall, Except.map] using h
    rw [filterMap_of_mapM hall, restorers, ← List.filterMap_eq_filter, List.map_filterMap]
    refine List.filterMap_congr fun entry _ => ?_
    rw [conflict?_toOption]
    cases hbest : (p.without entry.2).best? Options.default with
    | none => simp [Option.guard, hbest]
    | some best => simp [Option.guard, hbest]

/-- What lies behind a diagnosis of conflicts. -/
theorem diagnoseDraft_eq_infeasible {labels : List String}
    (h : d.diagnoseDraft = .ok (.infeasible labels)) :
    ∃ p points, d.check = .ok p ∧
      Line.crossings Options.defaultEps (p.rows.map Row.line) = .ok points ∧
      p.best? Options.default = none ∧ p.conflicts = .ok labels := by
  unfold diagnoseDraft at h
  split at h
  · simp at h
  rename_i p hp
  unfold diagnose at h
  obtain ⟨s, hs, h⟩ := exists_of_bind_eq_ok h
  obtain ⟨points, hpoints⟩ := exists_crossings_of_solve hs
  split at h
  · rename_i hstatus
    obtain ⟨labels', hlabels, h⟩ := exists_of_bind_eq_ok h
    obtain rfl : labels' = labels := Diagnosis.infeasible.inj (Except.ok.inj h)
    rw [status_of_solve hs, best?_diagnosisOptions] at hstatus
    exact ⟨p, points, hp, hpoints, hstatus, hlabels⟩
  · simp [pure, Except.pure] at h

theorem solveDraft_of_check (hd : d.check = .ok p) (o : Options α) :
    d.solveDraft o = p.solve o := by
  unfold solveDraft
  rw [hd]

/-- A diagnosis names, in their order, the rows without which there is an optimum, and each such
optimum satisfies all other rows and fails the row that was dropped. -/
theorem named_rows_have_witnesses {labels : List String}
    (h : d.diagnoseDraft = .ok (.infeasible labels)) :
    ∃ (p : Problem α) (named : List (Row α × ℕ)), d.check = .ok p ∧
      named.Sublist p.constraints.zipIdx ∧
      labels = named.map (fun entry => entry.1.label ("c" ++ toString (entry.2 + 1))) ∧
      ∀ k r, p.constraints[k]? = some r →
        ((r, k) ∈ named ↔ ∃ best vertices hull n,
          (d.without k).solveDraft Options.default = .ok (.optimal best vertices hull n)) ∧
        ∀ best vertices hull n,
          (d.without k).solveDraft Options.default = .ok (.optimal best vertices hull n) →
            p.FailsOnly Options.defaultFeasibilityTol k best.toPoint := by
  obtain ⟨p, points, hd, hpoints, hnone, hconflicts⟩ := diagnoseDraft_eq_infeasible h
  refine ⟨p, p.restorers, hd, p.restorers_sublist, conflicts_eq_ok hconflicts, ?_⟩
  intro k r hr
  have hk : k < p.constraints.length := (List.getElem?_eq_some_iff.mp hr).1
  rw [solveDraft_of_check (check_without hd k)]
  constructor
  · rw [mem_restorers, and_iff_right hr]
    exact exists_congr fun best => best?_eq_some
  · intro best vertices hull n hsolve
    exact failsOnly_of_best? (o := Options.default) hk hpoints hnone
      (best?_eq_some.mpr ⟨vertices, hull, n, hsolve⟩)

/-- A sample in double precision in which the first two rows exclude each other and the third one
has no part in it. -/
def pinched : Problem Float :=
  { objective := ⟨1.0, 1.0⟩
    constraints :=
      [{ a := 0.1, b := 0.2, sign := .ge, c := 0.5, name := some "lower" },
       { a := 1.0, b := 1.0, sign := .le, c := 1.0 },
       { a := 0.0, b := 1.0, sign := .le, c := 8.0, name := some "" }]
    nonnegX := true
    nonnegY := true }

theorem pinched_diagnosis :
    (pinched.map some).diagnoseDraft = .ok (.infeasible ["lower", "c2"]) := by
  decide +kernel

theorem pinched_without_first :
    ((pinched.map some).without 0).solveDraft Options.default =
      .ok (.optimal ⟨⟨1.0, 0.0⟩, 1.0⟩
        (some [⟨⟨-0.0, 1.0⟩, 1.0⟩, ⟨⟨1.0, 0.0⟩, 1.0⟩, ⟨⟨0.0, 0.0⟩, 0.0⟩])
        [⟨0.0, 0.0⟩, ⟨1.0, 0.0⟩, ⟨-0.0, 1.0⟩] 5) := by
  decide +kernel

theorem pinched_witnesses :
    pinched.FailsOnly Options.defaultFeasibilityTol 0 ⟨1.0, 0.0⟩ ∧
      ∀ best vertices hull n, ((pinched.map some).without 2).solveDraft Options.default ≠
        .ok (.optimal best vertices hull n) := by
  obtain ⟨p, named, hp, -, hlabels, hnamed⟩ := named_rows_have_witnesses pinched_diagnosis
  have hcheck : (pinched.map some).check = .ok pinched := by decide +kernel
  obtain rfl : pinched = p := Except.ok.inj (hcheck.symm.trans hp)
  refine ⟨(hnamed 0 _ rfl).2 _ _ _ _ pinched_without_first, ?_⟩
  intro best vertices hull n hsolve
  have hthird := (hnamed 2 _ rfl).1.mpr ⟨best, vertices, hull, n, hsolve⟩
  have hlabel : "c3" ∈ ["lower", "c2"] := by
    rw [hlabels]
    exact List.mem_map.mpr ⟨_, hthird, by decide +kernel⟩
  simp at hlabel

end Problem

end CornerPoint
