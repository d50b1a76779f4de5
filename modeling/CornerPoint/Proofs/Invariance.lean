import CornerPoint.Proofs.Crossings
import CornerPoint.Proofs.ExactSolution

/-!
Ways to write down one problem. The constraints may be entered in any order, any of them may be
negated, split into its two sides or entered twice: the feasible points stay the same, and the
crossings are reordered or repeated but never others.
-/
namespace CornerPoint

/-- The sign that belongs to a row once all of its coefficients are negated. -/
def Sign.negated : Sign → Sign
  | .le => .ge
  | .eq => .eq
  | .ge => .le

/-- The same row with its coefficients negated by `neg`. -/
def Row.negated {κ : Type} (neg : κ → κ) (r : Row κ) : Row κ :=
  { r.map neg with sign := r.sign.negated }

def Problem.withConstraints {κ : Type} (p : Problem κ) (constraints : List (Row κ)) : Problem κ :=
  { p with constraints }

namespace Row

theorem holdsWithin_negated (tol : ℚ) (row : Row ℚ) (q : Point ℚ) :
    (row.negated Neg.neg).HoldsWithin tol q ↔ row.HoldsWithin tol q := by
  have hlhs : (row.negated Neg.neg).lhs q = -row.lhs q := by
    change -row.a * q.x + -row.b * q.y = -(row.a * q.x + row.b * q.y)
    ring
  have hc : (row.negated Neg.neg).c = -row.c := rfl
  have hsign : (row.negated Neg.neg).sign = row.sign.negated := rfl
  have hle : -row.lhs q ≤ -row.c + tol ↔ row.c - tol ≤ row.lhs q := by
    constructor <;> intro h <;> linarith
  have hge : -row.c - tol ≤ -row.lhs q ↔ row.lhs q ≤ row.c + tol := by
    constructor <;> intro h <;> linarith
  unfold HoldsWithin
  rw [hsign, hlhs, hc]
  cases row.sign with
  | le => exact hge
  | ge => exact hle
  | eq => exact (and_congr hle hge).trans and_comm

/-- Two rows on the boundary of one, which together hold where it holds. -/
structure Halves (row upper lower : Row ℚ) : Prop where
  upper_line : upper.line = row.line
  lower_line : lower.line = row.line
  holds : ∀ tol q, upper.HoldsWithin tol q ∧ lower.HoldsWithin tol q ↔ row.HoldsWithin tol q

theorem Halves.copies (row : Row ℚ) : Halves row row row :=
  ⟨rfl, rfl, fun _ _ => and_self_iff⟩

theorem Halves.sides {row : Row ℚ} (h : row.sign = .eq) :
    Halves row { row with sign := .le } { row with sign := .ge } := by
  refine ⟨rfl, rfl, fun tol q => ?_⟩
  unfold HoldsWithin
  rw [h]
  rfl

end Row

namespace Problem

/-- The rows for the variables that may not be negative. -/
def bounds (p : Problem ℚ) : List (Row ℚ) :=
  (if p.nonnegX then [nonnegRowX] else []) ++ (if p.nonnegY then [nonnegRowY] else [])

theorem rows_withConstraints (p : Problem ℚ) (constraints : List (Row ℚ)) :
    (p.withConstraints constraints).rows = constraints ++ p.bounds :=
  List.append_assoc ..

theorem rows_eq_append (p : Problem ℚ) : p.rows = p.constraints ++ p.bounds :=
  p.rows_withConstraints p.constraints

variable {d : Draft ℚ} {p : Problem ℚ} {o : Options ℚ}

theorem solveDraft_withConstraints (heps : 0 < o.eps) (p : Problem ℚ) (rows : List (Row ℚ)) :
    ((p.map some).withConstraints (rows.map (Row.map some))).solveDraft o =
      .ok ((p.withConstraints rows).answer o) :=
  solveDraft_map_some heps (p.withConstraints rows)

/-- Constraints that hold at the same points let the same crossings through. -/
theorem feasibleCrossings_of_region {rows others : List (Row ℚ)}
    (h : ∀ q, (∀ r ∈ others, r.HoldsWithin o.feasibilityTol q) ↔
      ∀ r ∈ rows, r.HoldsWithin o.feasibilityTol q) :
    (p.withConstraints others).feasibleCrossings o =
      (Line.crossingPoints o.eps ((p.withConstraints others).rows.map Row.line)).filter
        (Point.satisfies o.feasibilityTol
          (CornerPoint.halfPlanes (p.withConstraints rows).rows)) := by
  rw [feasibleCrossings_eq_filter]
  refine List.filter_congr fun q _ => ?_
  rw [Bool.eq_iff_iff, Point.satisfies_iff, Point.satisfies_iff, rows_withConstraints,
    rows_withConstraints, List.forall_mem_append, List.forall_mem_append, h q]

section Order

variable {rows : List (Row ℚ)}

theorem crossingPoints_permuted (h : rows.Perm p.constraints) :
    (Line.crossingPoints o.eps ((p.withConstraints rows).rows.map Row.line)).Perm
      (Line.crossingPoints o.eps (p.rows.map Row.line)) := by
  rw [rows_withConstraints, rows_eq_append]
  exact Line.crossingPoints_perm ((h.append_right p.bounds).map Row.line)

theorem feasibleCrossings_permuted (h : rows.Perm p.constraints) :
    ((p.withConstraints rows).feasibleCrossings o).Perm (p.feasibleCrossings o) := by
  have hsame (q : Point ℚ) : (∀ r ∈ rows, r.HoldsWithin o.feasibilityTol q) ↔
      ∀ r ∈ p.constraints, r.HoldsWithin o.feasibilityTol q := by
    simp only [h.mem_iff]
  rw [feasibleCrossings_of_region hsame, feasibleCrossings_eq_filter]
  exact (crossingPoints_permuted h).filter _

/-- However the constraints are ordered, the answer has the same status, the same value, the same
hull and the same number of crossings. Only which of several best corners is chosen, and the order
of equally good vertices, may differ. -/
theorem permuted_constraints_solution {entered : List (Row (Option ℚ))} (hd : d.check = .ok p)
    (hperm : entered.Perm d.constraints) (heps : 0 < o.eps) :
    ∃ s t, d.solveDraft o = .ok s ∧ (d.withConstraints entered).solveDraft o = .ok t ∧
      t.status = s.status ∧ t.candidates = s.candidates ∧
      t.best?.map Vertex.z = s.best?.map Vertex.z ∧ t.hull? = s.hull? := by
  obtain rfl := eq_map_of_check hd
  -- What is entered is complete, so it is a reordering of the checked rows.
  obtain ⟨rows, rfl⟩ : entered ∈ Set.range (List.map (Row.map some)) := by
    rw [Set.range_list_map]
    intro r hr
    obtain ⟨row, -, rfl⟩ := List.mem_map.mp (hperm.mem_iff.mp hr)
    exact Set.mem_range_self row
  have hrows : rows.Perm p.constraints := (List.map_perm_map_iff Row.map_some_injective).mp hperm
  refine ⟨_, _, solveDraft_map_some heps p, solveDraft_withConstraints heps p rows, ?_⟩
  rw [answer, (crossingPoints_permuted hrows).length_eq]
  exact Solution.ofCorners_perm (feasibleCrossings_permuted hrows) _

def diagonal : Row ℚ := { a := 1, b := 1, sign := .eq, c := 1 }

/-- A sample in which every feasible point is as good as any other. -/
def segment : Problem ℚ :=
  { objective := ⟨1, 1⟩
    constraints := [diagonal, nonnegRowX, nonnegRowY] }

theorem segment_solution : (segment.map some).solveDraft exactOptions =
    .ok (.optimal ⟨⟨1, 0⟩, 1⟩ (some [⟨⟨0, 1⟩, 1⟩, ⟨⟨1, 0⟩, 1⟩]) [⟨0, 1⟩, ⟨1, 0⟩] 3) := by
  decide +kernel

/-- In reverse, the other end of the segment is chosen, with the same value. -/
theorem segment_reversed : ∃ t,
    ((segment.map some).withConstraints (segment.map some).constraints.reverse).solveDraft
      exactOptions = .ok t ∧
    t.best? = some ⟨⟨0, 1⟩, 1⟩ ∧ t.candidates = 3 ∧ t.hull? = some [⟨0, 1⟩, ⟨1, 0⟩] := by
  obtain ⟨s, t, hs, ht, -, hcandidates, -, hhull⟩ := permuted_constraints_solution
    (d := segment.map some) (p := segment) (o := exactOptions) rfl (List.reverse_perm _)
    (by decide +kernel)
  rw [segment_solution] at hs
  obtain rfl := Except.ok.inj hs
  have hbest : (((segment.map some).withConstraints
      (segment.map some).constraints.reverse).solveDraft exactOptions).map Solution.best? =
      .ok (some ⟨⟨0, 1⟩, 1⟩) := by
    decide +kernel
  rw [ht] at hbest
  exact ⟨t, ht, Except.ok.inj hbest, hcandidates, hhull⟩

end Order

section Spelling

variable {before after : List (Row ℚ)} {row upper lower : Row ℚ}

theorem crossingPoints_negated_row :
    Line.crossingPoints o.eps
        ((p.withConstraints (before ++ row.negated Neg.neg :: after)).rows.map Row.line) =
      Line.crossingPoints o.eps
        ((p.withConstraints (before ++ row :: after)).rows.map Row.line) := by
  simp only [rows_withConstraints, List.append_assoc, List.cons_append, List.map_append,
    List.map_cons]
  exact Line.crossingPoints_negated row.line _ _

theorem feasibleCrossings_negated_row :
    (p.withConstraints (before ++ row.negated Neg.neg :: after)).feasibleCrossings o =
      (p.withConstraints (before ++ row :: after)).feasibleCrossings o := by
  have hsame (q : Point ℚ) :
      (∀ r ∈ before ++ row.negated Neg.neg :: after, r.HoldsWithin o.feasibilityTol q) ↔
        ∀ r ∈ before ++ row :: after, r.HoldsWithin o.feasibilityTol q := by
    simp only [List.forall_mem_append, List.forall_mem_cons, Row.holdsWithin_negated]
  rw [feasibleCrossings_of_region hsame, crossingPoints_negated_row, feasibleCrossings_eq_filter]

theorem sameMatches_halved (h : row.Halves upper lower) (heps : 0 < o.eps) :
    SameMatches ((p.withConstraints (before ++ upper :: lower :: after)).feasibleCrossings o)
      ((p.withConstraints (before ++ row :: after)).feasibleCrossings o) := by
  have hsame (q : Point ℚ) :
      (∀ r ∈ before ++ upper :: lower :: after, r.HoldsWithin o.feasibilityTol q) ↔
        ∀ r ∈ before ++ row :: after, r.HoldsWithin o.feasibilityTol q := by
    simp only [List.forall_mem_append, List.forall_mem_cons, ← h.holds, and_assoc]
  rw [feasibleCrossings_of_region hsame, feasibleCrossings_eq_filter]
  refine SameMatches.filter _ ?_
  simp only [rows_withConstraints, List.append_assoc, List.cons_append, List.map_append,
    List.map_cons, h.upper_line, h.lower_line]
  exact Line.crossingPoints_repeated heps row.line _ _

theorem answer_negated_row :
    (p.withConstraints (before ++ row.negated Neg.neg :: after)).answer o =
      (p.withConstraints (before ++ row :: after)).answer o := by
  rw [answer, answer, feasibleCrossings_negated_row, crossingPoints_negated_row]
  rfl

theorem sameAnswer_halved (h : row.Halves upper lower) (heps : 0 < o.eps)
    (htol : 0 ≤ o.dedupTol) :
    ((p.withConstraints (before ++ upper :: lower :: after)).answer o).SameAnswer
      ((p.withConstraints (before ++ row :: after)).answer o) :=
  Solution.ofCorners_sameAnswer htol (sameMatches_halved h heps) _ _

/-- A row may be negated without any difference. An equation may be split into its two sides, and a
row may be repeated, and the status, the best vertex and the listed vertices stay the same. -/
theorem respelled_row_solution {entered rest : List (Row (Option ℚ))} {r : Row (Option ℚ)}
    (hd : d.check = .ok p) (hr : d.constraints = entered ++ r :: rest) (heps : 0 < o.eps)
    (htol : 0 ≤ o.dedupTol) :
    ∃ s, d.solveDraft o = .ok s ∧
      (d.withConstraints (entered ++ r.negated (Option.map Neg.neg) :: rest)).solveDraft o =
        .ok s ∧
      (r.sign = .eq → ∃ t, (d.withConstraints (entered ++ { r with sign := .le } ::
        { r with sign := .ge } :: rest)).solveDraft o = .ok t ∧ t.SameAnswer s) ∧
      ∃ t, (d.withConstraints (entered ++ r :: r :: rest)).solveDraft o = .ok t ∧
        t.SameAnswer s := by
  obtain rfl := eq_map_of_check hd
  obtain ⟨before, others, hp, rfl, hothers⟩ := List.map_eq_append_iff.mp hr
  obtain ⟨row, after, rfl, rfl, rfl⟩ := List.map_eq_cons_iff.mp hothers
  have hself : p.withConstraints (before ++ row :: after) = p := by
    rw [← hp]
    rfl
  -- Each respelling puts complete rows between the same neighbours.
  have hsolve (replaced : List (Row ℚ)) :
      ((p.map some).withConstraints (before.map (Row.map some) ++
        (replaced.map (Row.map some) ++ after.map (Row.map some)))).solveDraft o =
        .ok ((p.withConstraints (before ++ (replaced ++ after))).answer o) := by
    rw [← List.map_append, ← List.map_append]
    exact solveDraft_withConstraints heps p _
  refine ⟨(p.withConstraints (before ++ row :: after)).answer o, ?_, ?_, ?_, ?_⟩
  · rw [hself]
    exact solveDraft_map_some heps p
  · rw [← answer_negated_row]
    exact hsolve [row.negated Neg.neg]
  · intro heq
    exact ⟨_, hsolve [{ row with sign := .le }, { row with sign := .ge }],
      sameAnswer_halved (Row.Halves.sides heq) heps htol⟩
  · exact ⟨_, hsolve [row, row], sameAnswer_halved (Row.Halves.copies row) heps htol⟩

theorem segment_respelled :
    (∃ t, ((segment.map some).withConstraints
        ((diagonal.map some).negated (Option.map Neg.neg) ::
          (segment.map some).constraints.tail)).solveDraft exactOptions = .ok t ∧
      t.hull? = some [⟨0, 1⟩, ⟨1, 0⟩]) ∧
    (∃ t, ((segment.map some).withConstraints
        ({ diagonal.map some with sign := .le } :: { diagonal.map some with sign := .ge } ::
          (segment.map some).constraints.tail)).solveDraft exactOptions = .ok t ∧
      t.best? = some ⟨⟨1, 0⟩, 1⟩) ∧
    ∃ t, ((segment.map some).withConstraints
        (diagonal.map some :: (segment.map some).constraints)).solveDraft exactOptions = .ok t ∧
      t.vertices? = some [⟨⟨0, 1⟩, 1⟩, ⟨⟨1, 0⟩, 1⟩] := by
  have hfirst : (segment.map some).constraints =
      [] ++ diagonal.map some :: (segment.map some).constraints.tail := rfl
  obtain ⟨s, hs, hnegated, hsides, t, ht, hcopies⟩ := respelled_row_solution
    (d := segment.map some) (p := segment) (o := exactOptions) rfl hfirst (by decide +kernel) le_rfl
  rw [segment_solution] at hs
  obtain rfl := Except.ok.inj hs
  obtain ⟨u, hu, hsides⟩ := hsides rfl
  exact ⟨⟨_, hnegated, rfl⟩, ⟨u, hu, hsides.best⟩, ⟨t, ht, hcopies.vertices⟩⟩

end Spelling

end Problem

end CornerPoint
