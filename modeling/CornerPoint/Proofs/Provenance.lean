import CornerPoint.Proofs.Hull
import CornerPoint.Proofs.Selection
import CornerPoint.Proofs.Traversal
import CornerPoint.Scalar.Binary64
import CornerPoint.Solution

/-!
Where the points of a solution come from. Each of them is the crossing of two boundary lines and has
passed every half-plane, and each value is that of the objective. No law of arithmetic is used, so
this holds of rounded and undefined numbers and of tolerances of any kind.
-/
namespace CornerPoint

variable {α : Type} [Scalar α]

theorem mem_pairs_iff {β : Type} {xs : List β} {a b : β} :
    (a, b) ∈ pairs xs ↔ ∃ i j : ℕ, i < j ∧ xs[i]? = some a ∧ xs[j]? = some b := by
  induction xs with
  | nil => simp [pairs]
  | cons c xs ih =>
    rw [pairs, List.mem_append, ih, List.mem_map]
    constructor
    · rintro (⟨d, hd, he⟩ | ⟨i, j, hij, hi, hj⟩)
      · obtain ⟨rfl, rfl⟩ := Prod.mk.inj he
        obtain ⟨j, hj⟩ := List.mem_iff_getElem?.mp hd
        exact ⟨0, j + 1, Nat.succ_pos j, rfl, hj⟩
      · exact ⟨i + 1, j + 1, Nat.succ_lt_succ hij, hi, hj⟩
    · rintro ⟨i, j, hij, hi, hj⟩
      cases j with
      | zero => exact (Nat.not_lt_zero i hij).elim
      | succ j =>
        cases i with
        | zero => exact Or.inl ⟨b, List.mem_of_getElem? hj, by rw [Option.some.inj hi]⟩
        | succ i => exact Or.inr ⟨i, j, Nat.lt_of_succ_lt_succ hij, hi, hj⟩

namespace Problem

variable {d : Draft α} {p : Problem α} {o : Options α} {q : Point α}

/-- The point is the crossing of two rows, an earlier and a later one, and lies in the half-planes
of all rows. -/
structure IsCorner (o : Options α) (p : Problem α) (q : Point α) : Prop where
  crossed : ∃ (i j : ℕ) (r s : Row α), i < j ∧ p.rows[i]? = some r ∧ p.rows[j]? = some s ∧
    Line.crossing o.eps r.line s.line = .ok (some q)
  satisfied : q.satisfies o.feasibilityTol (CornerPoint.halfPlanes p.rows)

theorem crossed_of_mem_crossings {points : List (Point α)}
    (h : Line.crossings o.eps (p.rows.map Row.line) = .ok points) (hq : q ∈ points) :
    ∃ (i j : ℕ) (r s : Row α), i < j ∧ p.rows[i]? = some r ∧ p.rows[j]? = some s ∧
      Line.crossing o.eps r.line s.line = .ok (some q) := by
  unfold Line.crossings at h
  cases hall : (pairs (p.rows.map Row.line)).mapM
      fun pair => Line.crossing o.eps pair.1 pair.2 with
  | error e => simp [hall, Except.map] at h
  | ok found =>
    obtain rfl : found.filterMap id = points := by simpa [hall, Except.map] using h
    obtain ⟨q', hq', rfl⟩ := List.mem_filterMap.mp hq
    obtain ⟨⟨l, m⟩, hmem, hcross⟩ := exists_of_mem_mapM hall hq'
    obtain ⟨i, j, hij, hi, hj⟩ := mem_pairs_iff.mp hmem
    rw [List.getElem?_map, Option.map_eq_some_iff] at hi hj
    obtain ⟨r, hr, rfl⟩ := hi
    obtain ⟨s, hs, rfl⟩ := hj
    exact ⟨i, j, r, s, hij, hr, hs, hcross⟩

/-- What lies behind an optimum. -/
theorem solveDraft_eq_optimal {best : Vertex α} {vertices : Option (List (Vertex α))}
    {hull : List (Point α)} {n : ℕ} (h : d.solveDraft o = .ok (.optimal best vertices hull n)) :
    ∃ p points, d.check = .ok p ∧ Line.crossings o.eps (p.rows.map Row.line) = .ok points ∧
      Vertex.select? p.sense (Workings.ofCandidates o p points).evaluated = some best ∧
      vertices = (if o.listVertices then
        some (Vertex.sortByValueDescending (Workings.ofCandidates o p points).distinct)
      else none) ∧
      hull = (Workings.ofCandidates o p points).hull ∧ n = points.length := by
  unfold solveDraft at h
  split at h
  · simp at h
  rename_i p hp
  unfold solve workings at h
  cases hpoints : Line.crossings o.eps (p.rows.map Row.line) with
  | error e => simp [hpoints, Except.map] at h
  | ok points =>
    simp only [hpoints, Except.map, Except.ok.injEq, Solution.ofWorkings] at h
    split at h
    · simp at h
    · rename_i best' hbest
      obtain ⟨rfl, rfl, rfl, rfl⟩ := Solution.optimal.inj h
      exact ⟨p, points, hp, hpoints, hbest, rfl, rfl, rfl⟩

/-- Every point of a solution is a corner, and every value in it is that of the objective. -/
theorem points_are_corners {best : Vertex α} {vertices : Option (List (Vertex α))}
    {hull : List (Point α)} {n : ℕ} (h : d.solveDraft o = .ok (.optimal best vertices hull n)) :
    ∃ p, d.check = .ok p ∧
      (∀ v ∈ best :: vertices.getD [],
        p.IsCorner o v.toPoint ∧ v.z = p.objective.value v.toPoint) ∧
      ∀ q ∈ hull, p.IsCorner o q := by
  obtain ⟨p, points, hp, hpoints, hbest, rfl, rfl, -⟩ := solveDraft_eq_optimal h
  have hcorner : ∀ q ∈ (Workings.ofCandidates o p points).feasible, p.IsCorner o q := by
    intro q hq
    change q ∈ feasiblePoints o.feasibilityTol (CornerPoint.halfPlanes p.rows) points at hq
    rw [feasiblePoints_eq_filter] at hq
    obtain ⟨hq, hsat⟩ := List.mem_filter.mp hq
    exact ⟨crossed_of_mem_crossings hpoints hq, hsat⟩
  have hvertex : ∀ v ∈ (Workings.ofCandidates o p points).evaluated,
      p.IsCorner o v.toPoint ∧ v.z = p.objective.value v.toPoint := by
    intro v hv
    obtain ⟨hq, hz⟩ := exists_mem_of_mem_evaluate hv
    exact ⟨hcorner _ hq, hz⟩
  refine ⟨p, hp, ?_, fun q hq => hcorner q (Hull.mem_of_mem_hull hq)⟩
  intro v hv
  rcases List.mem_cons.mp hv with rfl | hv
  · exact hvertex v (Vertex.mem_of_select? hbest)
  · split at hv
    · have hdistinct := Vertex.sortByValueDescending_perm.mem_iff.mp hv
      have hsorted := (Vertex.merge_merged o.dedupTol _).mem v hdistinct
      exact hvertex v (Vertex.sortByValue_perm.mem_iff.mp hsorted)
    · simp at hv

/-- A sample in double precision whose best corner misses its first row by a rounding error. -/
def roundedSample : Problem Float :=
  { objective := ⟨1.0, 1.0⟩
    constraints := [{ a := 0.1, b := 0.2, c := 0.3 }, { a := 1.0, b := 0.0, c := 0.3 }]
    nonnegX := true
    nonnegY := true }

theorem roundedSample_solution :
    (roundedSample.map some).solveDraft Options.default =
      .ok (.optimal ⟨⟨0.3, 1.35⟩, 1.6500000000000001⟩
        (some [⟨⟨0.3, 1.35⟩, 1.6500000000000001⟩, ⟨⟨-0.0, 1.4999999999999998⟩, 1.4999999999999998⟩,
          ⟨⟨0.3, 0.0⟩, 0.3⟩, ⟨⟨0.0, 0.0⟩, 0.0⟩])
        [⟨0.0, 0.0⟩, ⟨0.3, 0.0⟩, ⟨0.3, 1.35⟩, ⟨-0.0, 1.4999999999999998⟩] 5) := by
  decide +kernel

theorem roundedSample_corners :
    roundedSample.IsCorner Options.default ⟨0.3, 1.35⟩ ∧
      (0.3 : Float) < 0.1 * 0.3 + 0.2 * 1.35 ∧
      roundedSample.IsCorner Options.default ⟨-0.0, 1.4999999999999998⟩ := by
  obtain ⟨p, hp, hvertices, hhull⟩ := points_are_corners roundedSample_solution
  have hcheck : (roundedSample.map some).check = .ok roundedSample := by decide +kernel
  obtain rfl : roundedSample = p := Except.ok.inj (hcheck.symm.trans hp)
  refine ⟨(hvertices _ (List.mem_cons_self ..)).1, by decide +kernel, hhull _ ?_⟩
  simp

end Problem

end CornerPoint
