import CornerPoint.Proofs.Conflicts
import CornerPoint.Proofs.Elimination
import CornerPoint.Proofs.Hull.Containment
import CornerPoint.Report

/-!
What the window of a report shows. If vertices are listed, each feasible crossing is near one of
them, and the margin is wide enough for the difference. Without a list the window is that of the
hull, which spans all crossings from left to right if there are two of them, and from bottom to top
if no turn between them is within the tolerance.
-/
namespace CornerPoint

namespace Window

/-- The point lies in the window or on its frame. -/
structure Contains (w : Window ℚ) (q : Point ℚ) : Prop where
  left : w.minX ≤ q.x
  right : q.x ≤ w.maxX
  bottom : w.minY ≤ q.y
  top : q.y ≤ w.maxY

instance (w : Window ℚ) (q : Point ℚ) : Decidable (w.Contains q) :=
  decidable_of_iff (w.minX ≤ q.x ∧ q.x ≤ w.maxX ∧ w.minY ≤ q.y ∧ q.y ≤ w.maxY)
    ⟨fun ⟨hl, hr, hb, ht⟩ => ⟨hl, hr, hb, ht⟩, fun ⟨hl, hr, hb, ht⟩ => ⟨hl, hr, hb, ht⟩⟩

section Axis

variable {start v w pad lo hi : ℚ} {values : List ℚ}

theorem least_le (h : v ∈ start :: values) : least start values ≤ v :=
  have hleast : Inequality.least? (start :: values) = some (least start values) := rfl
  (Inequality.least?_eq_some hleast).2 v h

theorem le_greatest (h : v ∈ start :: values) : v ≤ greatest start values :=
  have hgreatest : Inequality.greatest? (start :: values) = some (greatest start values) := rfl
  (Inequality.greatest?_eq_some hgreatest).2 v h

theorem least_mem (start : ℚ) (values : List ℚ) : least start values ∈ start :: values :=
  have hleast : Inequality.least? (start :: values) = some (least start values) := rfl
  (Inequality.least?_eq_some hleast).1

theorem greatest_mem (start : ℚ) (values : List ℚ) : greatest start values ∈ start :: values :=
  have hgreatest : Inequality.greatest? (start :: values) = some (greatest start values) := rfl
  (Inequality.greatest?_eq_some hgreatest).1

theorem margin_of_pos (hpad : 0 < pad) (h : 1 ≤ hi - lo) :
    margin pad lo hi = pad * (hi - lo) := by
  have hne : (hi - lo) * pad ≠ 0 := (mul_pos (by linarith) hpad).ne'
  unfold margin
  simpa [hne] using mul_comm (hi - lo) pad

theorem one_fifth_le_margin (h : 1 ≤ hi - lo) : 1 / 5 ≤ margin defaultPad lo hi := by
  have hpad : (defaultPad : ℚ) = 1 / 5 := by decide +kernel
  rw [margin_of_pos (by rw [hpad]; norm_num) h, hpad]
  linarith

theorem one_le_span (values : List ℚ) : 1 ≤ greatest 1 values - least 0 values := by
  have hlo : least 0 values ≤ 0 := least_le (List.mem_cons_self ..)
  have hhi : 1 ≤ greatest 1 values := le_greatest (List.mem_cons_self ..)
  linarith

theorem framed_below (hw : w ∈ values) (h : w - 1 / 5 ≤ v) :
    least 0 values - margin defaultPad (least 0 values) (greatest 1 values) ≤ v := by
  have hlo : least 0 values ≤ w := least_le (List.mem_cons_of_mem 0 hw)
  have hmargin := one_fifth_le_margin (one_le_span values)
  linarith

theorem framed_above (hw : w ∈ values) (h : v ≤ w + 1 / 5) :
    v ≤ greatest 1 values + margin defaultPad (least 0 values) (greatest 1 values) := by
  have hhi : w ≤ greatest 1 values := le_greatest (List.mem_cons_of_mem 1 hw)
  have hmargin := one_fifth_le_margin (one_le_span values)
  linarith

end Axis

section Frame

variable {points : List (Point ℚ)} {a b : Point ℚ} (rows : List (Row ℚ)) (q : Point ℚ)

theorem frame_of_mem (h : a ∈ points) :
    frame defaultPad points rows = ofMarks defaultPad (Marks.ofPoints points) := by
  unfold frame
  rw [if_neg (by simp [List.ne_nil_of_mem h])]

theorem filter_isFinite (values : List ℚ) : values.filter Scalar.isFinite = values :=
  List.filter_eq_self.mpr fun v _ => Scalar.isFinite_rat v

theorem framed_x (ha : a ∈ points) (hb : b ∈ points) (hle : a.x - 1 / 5 ≤ q.x)
    (hge : q.x ≤ b.x + 1 / 5) :
    (frame defaultPad points rows).minX ≤ q.x ∧ q.x ≤ (frame defaultPad points rows).maxX := by
  rw [frame_of_mem rows ha]
  simp only [ofMarks, Marks.ofPoints, filter_isFinite]
  exact ⟨framed_below (List.mem_map_of_mem ha) hle, framed_above (List.mem_map_of_mem hb) hge⟩

theorem framed_y (ha : a ∈ points) (hb : b ∈ points) (hle : a.y - 1 / 5 ≤ q.y)
    (hge : q.y ≤ b.y + 1 / 5) :
    (frame defaultPad points rows).minY ≤ q.y ∧ q.y ≤ (frame defaultPad points rows).maxY := by
  rw [frame_of_mem rows ha]
  simp only [ofMarks, Marks.ofPoints, filter_isFinite]
  exact ⟨framed_below (List.mem_map_of_mem ha) hle, framed_above (List.mem_map_of_mem hb) hge⟩

end Frame

end Window

namespace Hull

variable {eps : ℚ} {points : List (Point ℚ)} {s : Point ℚ}

theorem mem_dropLast_of_head? {l : List (Point ℚ)} {m : Point ℚ} (hm : l.head? = some m)
    (hlength : 2 ≤ l.length) : m ∈ l.dropLast := by
  match l with
  | [] => simp at hm
  | [a] => simp at hlength
  | a :: b :: rest =>
    obtain rfl : a = m := by simpa using hm
    rw [List.dropLast_cons_cons]
    exact List.mem_cons_self ..

/-- Whatever the tolerance, the hull of two or more points reaches as far to the left and to the
right as any of them. -/
theorem hull_spans_x (eps : ℚ) (hlength : 2 ≤ points.length) (hs : s ∈ points) :
    ∃ a ∈ hull eps points, ∃ b ∈ hull eps points, a.x ≤ s.x ∧ s.x ≤ b.x := by
  have hperm := Sorting.sort_perm Point.before points
  have hsorted := (Sorting.sort_stable Point.before_weakOrder points).sorted
  have hs' : s ∈ Sorting.sort Point.before points := hperm.mem_iff.mpr hs
  have hne := List.ne_nil_of_mem hs'
  have hlength' : 2 ≤ (Sorting.sort Point.before points).length := by rwa [hperm.length_eq]
  obtain ⟨m, hm⟩ : ∃ m, (Sorting.sort Point.before points).head? = some m :=
    ⟨_, List.head?_eq_some_head hne⟩
  obtain ⟨n, hn⟩ : ∃ n, (Sorting.sort Point.before points).getLast? = some n :=
    ⟨_, List.getLast?_eq_some_getLast hne⟩
  have hx {p q : Point ℚ} (h : Point.before q p = false) : p.x ≤ q.x := by
    rcases (Point.not_before_iff q p).mp h with h | ⟨h, -⟩
    · exact h.le
    · exact h.le
  have hmem {l : List (Point ℚ)} {q : Point ℚ} (hl : 2 ≤ l.length) (hq : l.head? = some q) :
      q ∈ (chain eps l).dropLast :=
    mem_dropLast_of_head? (chain_ends.1.trans hq) (two_le_length_chain hl)
  unfold hull
  rw [if_neg (by omega)]
  refine ⟨m, List.mem_append_left _ (hmem hlength' hm), n, List.mem_append_right _
    (hmem (by rwa [List.length_reverse]) (List.head?_reverse.trans hn)), ?_, ?_⟩
  · exact hx (hsorted.head_le Point.before_weakOrder hm s hs')
  · exact hx (hsorted.le_getLast Point.before_weakOrder hn s hs')

/-- A linear function is nowhere on a convex hull below all of its values at the points. -/
theorem exists_le_of_mem_convexHull (f : ℚ × ℚ →ₗ[ℚ] ℚ) {v : ℚ × ℚ}
    (hv : v ∈ convexHull ℚ (sites points)) : ∃ a ∈ points, f a.coords ≤ f v := by
  by_contra! hall
  have hsub : sites points ⊆ {u | f v < f u} := by
    rintro _ ⟨a, ha, rfl⟩
    exact hall a ha
  have hself : f v < f v := convexHull_min hsub (convex_halfSpace_gt f.isLinear (f v)) hv
  exact hself.false

/-- If no turn is within the tolerance, the hull reaches as far down and up as well. -/
theorem hull_spans_y (heps : 0 ≤ eps) (hresolved : Resolved eps points)
    (hlength : 2 ≤ points.length) (hs : s ∈ points) :
    ∃ a ∈ hull eps points, ∃ b ∈ hull eps points, a.y ≤ s.y ∧ s.y ≤ b.y := by
  by_cases hvaried : Varied points
  · obtain ⟨m, n, lower, upper, hring⟩ := exists_ring le_rfl hvaried
    have hmem := hring.coords_mem_convexHull hs
    rw [hull_eq_of_resolved heps hresolved]
    obtain ⟨a, ha, hle⟩ := exists_le_of_mem_convexHull (LinearMap.snd ℚ ℚ ℚ) hmem
    obtain ⟨b, hb, hge⟩ := exists_le_of_mem_convexHull (-LinearMap.snd ℚ ℚ ℚ) hmem
    exact ⟨a, ha, b, hb, hle, neg_le_neg_iff.mp hge⟩
  · obtain ⟨a, ha, -⟩ := hull_spans_x eps hlength hs
    have has : a = s := by
      by_contra hne
      exact hvaried ⟨a, mem_of_mem_hull ha, s, hs, hne⟩
    subst has
    exact ⟨a, ha, a, ha, le_rfl, le_rfl⟩

end Hull

namespace Problem

variable {d : Draft ℚ} {p : Problem ℚ} {o : Options ℚ} {best : Vertex ℚ}

theorem report_rat (hd : d.check = .ok p) (heps : 0 < o.eps) :
    Report.ofDraft o d = .ok ⟨p.answer o, (p.answer o).message p.sense,
      some (Exhibit.ofSolution p (p.answer o))⟩ := by
  unfold Report.ofDraft
  rw [hd]
  simp only [solve_rat heps]
  rfl

theorem answer_of_best? (h : (p.answer o).best? = some best) :
    Vertex.select? p.sense (Vertex.evaluate p.objective (p.feasibleCrossings o)) = some best ∧
    (p.answer o).vertices? = (if o.listVertices then
      some (Vertex.sortByValueDescending (Vertex.merge o.dedupTol (Vertex.sortByValue
        (Vertex.evaluate p.objective (p.feasibleCrossings o))))) else none) ∧
    (p.answer o).hull? = some (Hull.hull o.eps (p.feasibleCrossings o)) := by
  unfold answer Solution.ofCorners at h ⊢
  cases hs : Vertex.select? p.sense (Vertex.evaluate p.objective (p.feasibleCrossings o)) with
  | none => simp [hs, Solution.best?] at h
  | some v =>
    obtain rfl : v = best := by simpa [hs, Solution.best?] using h
    exact ⟨rfl, rfl, rfl⟩

theorem best_mem (h : (p.answer o).best? = some best) :
    best ∈ Vertex.evaluate p.objective (p.feasibleCrossings o) ∧
      best.toPoint ∈ p.feasibleCrossings o :=
  have hmem := Vertex.mem_of_select? (answer_of_best? h).1
  ⟨hmem, (exists_mem_of_mem_evaluate hmem).1⟩

/-- Some listed vertex is the best one or near it. -/
theorem exists_listed_near (htol : 0 ≤ o.dedupTol) (hlist : o.listVertices = true)
    (h : (p.answer o).best? = some best) :
    ∃ listed v, (p.answer o).vertices? = some listed ∧ v ∈ listed ∧
      |best.x - v.x| ≤ o.dedupTol ∧ |best.y - v.y| ≤ o.dedupTol := by
  obtain ⟨-, hvertices, -⟩ := answer_of_best? h
  rw [hlist, if_pos rfl] at hvertices
  have hmem := Vertex.sortByValue_perm.mem_iff.mpr (best_mem h).1
  have hmerged := Vertex.merge_merged o.dedupTol
    (Vertex.sortByValue (Vertex.evaluate p.objective (p.feasibleCrossings o)))
  rcases hmerged.covered best hmem with hkept | ⟨v, hv, hnear⟩
  · refine ⟨_, best, hvertices, Vertex.sortByValueDescending_perm.mem_iff.mpr hkept, ?_⟩
    simpa using htol
  · refine ⟨_, v, hvertices, Vertex.sortByValueDescending_perm.mem_iff.mpr hv, ?_⟩
    simpa [Vertex.near, Scalar.abs_rat] using hnear

theorem window_of_listed {listed : List (Vertex ℚ)} {v : Vertex ℚ} {s : Solution ℚ}
    (hs : s.vertices? = some listed) (hv : v ∈ listed) :
    (Exhibit.ofSolution p s).window =
      Window.frame Window.defaultPad (listed.map (·.toPoint)) p.constraints := by
  unfold Exhibit.ofSolution
  simp [hs, List.ne_nil_of_mem hv]

theorem window_shows_listed (htol : 0 ≤ o.dedupTol) (hwide : o.dedupTol ≤ 1 / 5)
    (hlist : o.listVertices = true) (h : (p.answer o).best? = some best) :
    (Exhibit.ofSolution p (p.answer o)).window.Contains best.toPoint := by
  obtain ⟨listed, v, hlisted, hv, hx, hy⟩ := exists_listed_near htol hlist h
  have hpoint : v.toPoint ∈ listed.map (·.toPoint) := List.mem_map_of_mem hv
  rw [window_of_listed hlisted hv]
  obtain ⟨hxl, hxr⟩ := abs_le.mp (hx.trans hwide)
  obtain ⟨hyl, hyr⟩ := abs_le.mp (hy.trans hwide)
  obtain ⟨hleft, hright⟩ := Window.framed_x p.constraints best.toPoint hpoint hpoint
    (by linarith) (by linarith)
  obtain ⟨hbottom, htop⟩ := Window.framed_y p.constraints best.toPoint hpoint hpoint
    (by linarith) (by linarith)
  exact ⟨hleft, hright, hbottom, htop⟩

theorem window_of_unlisted (h : (p.answer o).best? = some best) (hlist : o.listVertices = false) :
    (Exhibit.ofSolution p (p.answer o)).window = Window.frame Window.defaultPad
      (Hull.hull o.eps (p.feasibleCrossings o)) p.constraints := by
  obtain ⟨-, hvertices, hhull⟩ := answer_of_best? h
  rw [hlist, if_neg Bool.false_ne_true] at hvertices
  unfold Exhibit.ofSolution
  simp [hvertices, hhull]

theorem window_spans_x (h : (p.answer o).best? = some best) (hlist : o.listVertices = false)
    (hlength : 2 ≤ (p.feasibleCrossings o).length) :
    (Exhibit.ofSolution p (p.answer o)).window.minX ≤ best.x ∧
      best.x ≤ (Exhibit.ofSolution p (p.answer o)).window.maxX := by
  obtain ⟨a, ha, b, hb, hax, hbx⟩ := Hull.hull_spans_x o.eps hlength (best_mem h).2
  rw [window_of_unlisted h hlist]
  exact Window.framed_x p.constraints best.toPoint ha hb (by linarith) (by linarith)

theorem window_spans_y (h : (p.answer o).best? = some best) (heps : 0 ≤ o.eps)
    (hlist : o.listVertices = false) (hlength : 2 ≤ (p.feasibleCrossings o).length)
    (hresolved : Hull.Resolved o.eps (p.feasibleCrossings o)) :
    (Exhibit.ofSolution p (p.answer o)).window.minY ≤ best.y ∧
      best.y ≤ (Exhibit.ofSolution p (p.answer o)).window.maxY := by
  obtain ⟨a, ha, b, hb, hay, hby⟩ := Hull.hull_spans_y heps hresolved hlength (best_mem h).2
  rw [window_of_unlisted h hlist]
  exact Window.framed_y p.constraints best.toPoint ha hb (by linarith) (by linarith)

/-- The window of a report shows the best vertex if vertices are listed. Otherwise it does so from
left to right as soon as two crossings are feasible, and on both axes if, besides, no turn between
the feasible crossings is within the tolerance of the hull. -/
theorem window_shows_best (hd : d.check = .ok p) (listed : Bool) :
    ∃ report, Report.ofDraft { Options.default with listVertices := listed } d = .ok report ∧
      ∀ best, report.solution.best? = some best →
        ∃ exhibit, report.exhibit = some exhibit ∧
          (listed = true → exhibit.window.Contains best.toPoint) ∧
          (2 ≤ (p.feasibleCrossings Options.default).length →
            exhibit.window.minX ≤ best.x ∧ best.x ≤ exhibit.window.maxX ∧
            (Hull.Resolved Options.defaultEps (p.feasibleCrossings Options.default) →
              exhibit.window.Contains best.toPoint)) := by
  have heps : 0 < (Options.defaultEps : ℚ) := by decide +kernel
  have htol : 0 ≤ (Options.defaultDedupTol : ℚ) := by decide +kernel
  have hwide : (Options.defaultDedupTol : ℚ) ≤ 1 / 5 := by decide +kernel
  refine ⟨_, report_rat hd heps, fun best hbest => ⟨_, rfl, ?_⟩⟩
  cases listed with
  | true =>
    have hshown := window_shows_listed htol hwide rfl hbest
    exact ⟨fun _ => hshown, fun _ => ⟨hshown.left, hshown.right, fun _ => hshown⟩⟩
  | false =>
    refine ⟨fun hlisted => (Bool.false_ne_true hlisted).elim, fun hlength => ?_⟩
    obtain ⟨hleft, hright⟩ := window_spans_x hbest rfl hlength
    refine ⟨hleft, hright, fun hresolved => ?_⟩
    obtain ⟨hbottom, htop⟩ := window_spans_y hbest heps.le rfl hlength hresolved
    exact ⟨hleft, hright, hbottom, htop⟩

/-- A sample with a single feasible point, far from where its rows meet the axes. -/
def pinned : Problem ℚ :=
  { objective := ⟨1, 1⟩
    constraints := [{ a := 1, b := -1, sign := .eq, c := 0 },
      { a := 2, b := -1, sign := .eq, c := 100 }] }

theorem pinned_and_wedge_shown :
    (∃ report exhibit, Report.ofDraft Options.default (pinned.map some) = .ok report ∧
      report.exhibit = some exhibit ∧ exhibit.window.Contains ⟨100, 100⟩) ∧
    ∃ report exhibit, Report.ofDraft { Options.default with listVertices := false }
      (wedge.map some) = .ok report ∧ report.exhibit = some exhibit ∧
      exhibit.window.Contains ⟨2, 0⟩ := by
  have hpinned : (Report.ofDraft Options.default (pinned.map some)).map (·.solution.best?) =
      .ok (some ⟨⟨100, 100⟩, 200⟩) := by
    decide +kernel
  have hwedge : (Report.ofDraft { Options.default with listVertices := false }
      (wedge.map some)).map (·.solution.best?) = .ok (some ⟨⟨2, 0⟩, 2⟩) := by
    decide +kernel
  have hresolved :
      Hull.Resolved Options.defaultEps (wedge.feasibleCrossings Options.default) := by
    unfold Hull.Resolved
    decide +kernel
  obtain ⟨first, hfirst, hshown⟩ := window_shows_best pinned.check_map_some true
  obtain ⟨second, hsecond, hshown'⟩ := window_shows_best wedge.check_map_some false
  rw [hsecond] at hwedge
  have hfirst' : Report.ofDraft Options.default (pinned.map some) = .ok first := hfirst
  rw [hfirst'] at hpinned
  obtain ⟨exhibit, hexhibit, hlisted, -⟩ := hshown _ (Except.ok.inj hpinned)
  obtain ⟨exhibit', hexhibit', -, hunlisted⟩ := hshown' _ (Except.ok.inj hwedge)
  exact ⟨⟨first, exhibit, hfirst', hexhibit, hlisted rfl⟩,
    second, exhibit', hsecond, hexhibit', (hunlisted (by decide +kernel)).2.2 hresolved⟩

/-- A sample whose feasible set is high and nearly without width. -/
def needle : Problem ℚ :=
  { objective := ⟨0, 1⟩
    constraints := [{ a := 50000, b := 1 / 1000000, sign := .le, c := 1 / 20000 }]
    nonnegX := true
    nonnegY := true }

/-- Without a list of vertices the best one may lie outside: if it is alone, the window shows where
the rows meet the axes, and if the hull drops it, the window shows the rest of the hull. -/
theorem best_outside_window :
    ((Report.ofDraft { Options.default with listVertices := false } (pinned.map some)).map
        fun r => (r.solution.best?, r.exhibit.map Exhibit.window)) =
      .ok (some ⟨⟨100, 100⟩, 200⟩, some ⟨-10, 60, -601 / 5, 106 / 5⟩) ∧
    ¬(⟨-10, 60, -601 / 5, 106 / 5⟩ : Window ℚ).Contains ⟨100, 100⟩ ∧
    ((Report.ofDraft { Options.default with listVertices := false } (needle.map some)).map
        fun r => (r.solution.best?, r.exhibit.map Exhibit.window)) =
      .ok (some ⟨⟨0, 50⟩, 50⟩, some ⟨-1 / 5, 6 / 5, -1 / 5, 6 / 5⟩) ∧
    ¬(⟨-1 / 5, 6 / 5, -1 / 5, 6 / 5⟩ : Window ℚ).Contains ⟨0, 50⟩ := by
  decide +kernel

end Problem

end CornerPoint
