import CornerPoint.Proofs.Hull.Ring
import CornerPoint.Proofs.Optimum
import CornerPoint.Proofs.Provenance

/-!
When the hull of a solution repeats a point. A chain needs a second point to see that it has the
first one twice, so of one point given again and again each chain keeps two copies, and the hull has
it twice. In every other case the points of the hull are distinct, however many pairs of rows meet
in each of them.
-/
namespace CornerPoint

namespace Hull

variable {eps : ℚ} {q : Point ℚ} {points : List (Point ℚ)}

theorem chain_replicate (heps : 0 ≤ eps) (q : Point ℚ) (n : ℕ) :
    chain eps (List.replicate (n + 2) q) = [q, q] := by
  induction n with
  | zero => rfl
  | succ n ih =>
    have hshorter := chain_repeated heps (p := q) (u := []) (v := List.replicate (n + 1) q)
      (Or.inr (List.cons_ne_nil q (List.replicate n q)))
    exact hshorter.trans ih

theorem hull_replicate (heps : 0 ≤ eps) (q : Point ℚ) (n : ℕ) :
    hull eps (List.replicate (n + 2) q) = [q, q] := by
  have hsort : Sorting.sort Point.before (List.replicate (n + 2) q) = List.replicate (n + 2) q :=
    List.perm_replicate.mp (Sorting.sort_perm ..)
  unfold hull
  simp only [hsort, List.reverse_replicate, chain_replicate heps, List.length_replicate]
  rw [if_neg (by omega)]
  rfl

theorem nodup_hull (heps : 0 ≤ eps) (h : Varied points) : (hull eps points).Nodup := by
  obtain ⟨m, n, lower, upper, hring⟩ := exists_ring heps h
  rw [hring.hull_eq]
  exact hring.nodup heps

theorem eq_replicate_of_not_varied (hq : q ∈ points) (h : ¬Varied points) :
    points = List.replicate points.length q := by
  refine List.eq_replicate_iff.mpr ⟨rfl, fun s hs => ?_⟩
  by_contra hne
  exact h ⟨s, hs, q, hq, hne⟩

/-- The two cases of a hull: its points are distinct, or it has the only point there is twice. -/
theorem hull_cases (heps : 0 ≤ eps) (hq : q ∈ points) :
    ((hull eps points).Nodup ∧ (points.length = 1 ∨ Varied points)) ∨
    hull eps points = [q, q] ∧ 2 ≤ points.length ∧ ∀ s ∈ points, s = q := by
  by_cases hvaried : Varied points
  · exact Or.inl ⟨nodup_hull heps hvaried, Or.inr hvaried⟩
  have hall := eq_replicate_of_not_varied hq hvaried
  match hlength : points.length with
  | 0 => simp [List.length_eq_zero_iff.mp hlength] at hq
  | 1 =>
    refine Or.inl ⟨?_, Or.inl rfl⟩
    rw [hull, if_pos (by omega)]
    exact List.nodup_nil
  | n + 2 =>
    rw [hlength] at hall
    refine Or.inr ⟨?_, Nat.le_add_left 2 n, fun s hs => ?_⟩
    · rw [hall, hull_replicate heps]
    · rw [hall] at hs
      exact List.eq_of_mem_replicate hs

end Hull

namespace Problem

variable {d : Draft ℚ} {p : Problem ℚ} {o : Options ℚ}

/-- The hull of a solution repeats a point exactly if two or more pairs of rows cross feasibly and
all of them cross in the optimum, and then the hull is the optimum twice. -/
theorem hull_repeats_iff {best : Vertex ℚ} {vertices : Option (List (Vertex ℚ))}
    {hull : List (Point ℚ)} {n : ℕ} (hd : d.check = .ok p) (heps : 0 < o.eps)
    (hs : d.solveDraft o = .ok (.optimal best vertices hull n)) :
    (¬hull.Nodup ↔ 2 ≤ (p.feasibleCrossings o).length ∧
      ∀ q ∈ p.feasibleCrossings o, q = best.toPoint) ∧
    (¬hull.Nodup → hull = [best.toPoint, best.toPoint]) := by
  obtain ⟨p', points, hd', hpoints, hbest, -, rfl, -⟩ := solveDraft_eq_optimal hs
  obtain rfl : p = p' := Except.ok.inj (hd.symm.trans hd')
  obtain rfl : Line.crossingPoints o.eps (p.rows.map Row.line) = points := by
    rw [Line.crossings_rat heps] at hpoints
    exact Except.ok.inj hpoints
  have hmem : best.toPoint ∈ p.feasibleCrossings o :=
    (exists_mem_of_mem_evaluate (Vertex.mem_of_select? hbest)).1
  change (¬(Hull.hull o.eps (p.feasibleCrossings o)).Nodup ↔ _) ∧
    (¬(Hull.hull o.eps (p.feasibleCrossings o)).Nodup → Hull.hull o.eps (p.feasibleCrossings o) = _)
  rcases Hull.hull_cases heps.le hmem with ⟨hnodup, hother⟩ | ⟨hhull, hlength, hall⟩
  · refine ⟨iff_of_false (not_not_intro hnodup) ?_, fun h => absurd hnodup h⟩
    rintro ⟨hlength, hall⟩
    rcases hother with hone | hvaried
    · omega
    · obtain ⟨q, hq, hne⟩ := hvaried.exists_ne best.toPoint
      exact hne (hall q hq)
  · have hrepeats : ¬(Hull.hull o.eps (p.feasibleCrossings o)).Nodup := by
      rw [hhull]
      simp
    exact ⟨iff_of_true hrepeats ⟨hlength, hall⟩, fun _ => hhull⟩

/-- A sample whose best corner is the crossing of three pairs of rows. -/
def crowned : Problem ℚ :=
  { objective := ⟨1, 1⟩
    constraints :=
      [{ a := 1, b := 0, c := 1 }, { a := 0, b := 1, c := 1 }, { a := 1, b := 1, c := 2 }]
    nonnegX := true
    nonnegY := true }

theorem crowned_solution : (crowned.map some).solveDraft Options.default =
    .ok (.optimal ⟨⟨1, 1⟩, 2⟩
      (some [⟨⟨1, 1⟩, 2⟩, ⟨⟨1, 0⟩, 1⟩, ⟨⟨0, 1⟩, 1⟩, ⟨⟨0, 0⟩, 0⟩])
      [⟨0, 0⟩, ⟨1, 0⟩, ⟨1, 1⟩, ⟨0, 1⟩] 8) := by
  decide +kernel

theorem crowned_hull_distinct : ∃ best vertices hull n,
    (crowned.map some).solveDraft Options.default = .ok (.optimal best vertices hull n) ∧
      (crowned.feasibleCrossings Options.default).count best.toPoint = 3 ∧ hull.Nodup := by
  refine ⟨_, _, _, _, crowned_solution, by decide +kernel, ?_⟩
  obtain ⟨hiff, -⟩ := hull_repeats_iff (p := crowned) rfl (by decide +kernel) crowned_solution
  by_contra hrepeats
  have horigin := (hiff.mp hrepeats).2 ⟨0, 0⟩ (by decide +kernel)
  simp at horigin

/-- A sample whose only feasible point is the crossing of three pairs of rows. -/
def pinpoint : Problem ℚ :=
  { objective := ⟨1, 1⟩
    constraints :=
      [{ a := 1, b := 0, sign := .eq, c := 1 }, { a := 0, b := 1, sign := .eq, c := 1 },
       { a := 1, b := 1, c := 2 }] }

/-- The hull of a single feasible point may repeat it. -/
theorem pinpoint_hull_repeated : (pinpoint.map some).check = .ok pinpoint ∧
    ∃ best vertices hull n,
      (pinpoint.map some).solveDraft Options.default = .ok (.optimal best vertices hull n) ∧
        ¬hull.Nodup := by
  have hsolution : (pinpoint.map some).solveDraft Options.default =
      .ok (.optimal ⟨⟨1, 1⟩, 2⟩ (some [⟨⟨1, 1⟩, 2⟩]) [⟨1, 1⟩, ⟨1, 1⟩] 3) := by
    decide +kernel
  exact ⟨rfl, _, _, _, _, hsolution, by decide⟩

end Problem

end CornerPoint
