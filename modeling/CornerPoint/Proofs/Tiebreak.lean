import CornerPoint.Proofs.Binary64.Order
import CornerPoint.Proofs.Pairs
import CornerPoint.Proofs.Sorting.Extremes

/-!
Which of several best corners is the answer. A corner counts once for each pair of rows that meet in
it, and pairs are in the lexicographic order of their positions. Of the pairs with the best value
the last one gives the maximum and the first one the minimum. All that is asked of the arithmetic is
that the values can be compared with each other, as doubles can if none of them is undefined.
-/
namespace CornerPoint

/-- The comparisons of these values are those of a linear order, in which different values may be
tied as the two zeros are. -/
structure TotallyOrdered {α : Type} [Scalar α] (values : α → Prop) : Prop where
  total : ∀ {u v}, values u → values v → u ≤ v ∨ v ≤ u
  trans : ∀ {u v w}, values u → values v → values w → u ≤ v → v ≤ w → u ≤ w
  lt_iff : ∀ {u v}, values u → values v → (u < v ↔ ¬v ≤ u)

theorem totallyOrdered_float {values : Float → Prop} (h : ∀ x, values x → x.isNaN = false) :
    TotallyOrdered values where
  total {u v} hu hv := by
    have hle := Binary64.le_iff_rank (h u hu) (h v hv)
    have hge := Binary64.le_iff_rank (h v hv) (h u hu)
    exact (le_total _ _).imp hle.mpr hge.mpr
  trans {u v w} hu hv hw huv hvw := by
    have huv' := (Binary64.le_iff_rank (h u hu) (h v hv)).mp huv
    have hvw' := (Binary64.le_iff_rank (h v hv) (h w hw)).mp hvw
    exact (Binary64.le_iff_rank (h u hu) (h w hw)).mpr (huv'.trans hvw')
  lt_iff {u v} hu hv := by
    have hlt := Binary64.lt_iff_rank (h u hu) (h v hv)
    have hge := Binary64.le_iff_rank (h v hv) (h u hu)
    exact hlt.trans (not_le.symm.trans (not_congr hge.symm))

variable {α : Type} [Scalar α]

section Order

variable {values : α → Prop} {u v : α}

theorem TotallyOrdered.le_of_not_lt (h : TotallyOrdered values) (hu : values u) (hv : values v)
    (hlt : ¬u < v) : v ≤ u := by
  by_contra hle
  exact hlt ((h.lt_iff hu hv).mpr hle)

theorem TotallyOrdered.le_of_lt (h : TotallyOrdered values) (hu : values u) (hv : values v)
    (hlt : u < v) : u ≤ v :=
  (h.total hu hv).resolve_right ((h.lt_iff hu hv).mp hlt)

/-- A lower value, or one that is not higher and settles something more. -/
theorem TotallyOrdered.le_and_of_lt_or (h : TotallyOrdered values) (hu : values u) (hv : values v)
    {P : Prop} (hcases : u < v ∨ ¬v < u ∧ P) : u ≤ v ∧ (v ≤ u → P) := by
  rcases hcases with hlt | ⟨hge, hP⟩
  · exact ⟨h.le_of_lt hu hv hlt, fun hle => absurd hle ((h.lt_iff hu hv).mp hlt)⟩
  · exact ⟨h.le_of_not_lt hv hu hge, fun _ => hP⟩

theorem TotallyOrdered.not_lt_self (h : TotallyOrdered values) (hu : values u) : ¬u < u := by
  rw [h.lt_iff hu hu, not_not]
  exact (h.total hu hu).elim id id

theorem Vertex.lower_weakOrderOn (h : TotallyOrdered values) {vs : List (Vertex α)}
    (hvs : ∀ v ∈ vs, values v.z) : Sorting.WeakOrderOn lower vs where
  asymm {v w} hvw := by
    have hlt : v.val.z < w.val.z := of_decide_eq_true hvw
    refine decide_eq_false fun hwv => ?_
    exact (h.lt_iff (hvs w w.2) (hvs v v.2)).mp hwv
      (h.le_of_lt (hvs v v.2) (hvs w w.2) hlt)
  le_trans {u v w} huv hvw := by
    have huv' := h.le_of_not_lt (hvs v v.2) (hvs u u.2) (of_decide_eq_false huv)
    have hvw' := h.le_of_not_lt (hvs w w.2) (hvs v v.2) (of_decide_eq_false hvw)
    refine decide_eq_false fun hwu => ?_
    exact (h.lt_iff (hvs w w.2) (hvs u u.2)).mp hwu
      (h.trans (hvs u u.2) (hvs v v.2) (hvs w w.2) huv' hvw')

end Order

namespace Problem

variable {d : Draft α} {p : Problem α} {o : Options α} {i j : ℕ} {q : Point α}

/-- The rows at positions `i` and `j`, in this order, cross in `q`, and `q` lies in the half-planes
of all rows. -/
structure CrossAt (o : Options α) (p : Problem α) (i j : ℕ) (q : Point α) : Prop where
  ordered : i < j
  crossed : ∃ r s, p.rows[i]? = some r ∧ p.rows[j]? = some s ∧
    Line.crossing o.eps r.line s.line = .ok (some q)
  satisfied : q.satisfies o.feasibilityTol (CornerPoint.halfPlanes p.rows)

/-- The value of the objective at a feasible crossing. -/
def IsValue (o : Options α) (p : Problem α) (z : α) : Prop :=
  ∃ i j q, p.CrossAt o i j q ∧ z = p.objective.value q

/-- The vertex that two rows give, if they cross and the crossing is feasible. -/
def vertex? (o : Options α) (p : Problem α) (r s : Row α) : Option (Vertex α) :=
  ((Line.crossing? o.eps r.line s.line).filter
    (Point.satisfies o.feasibilityTol (CornerPoint.halfPlanes p.rows))).map fun q =>
      ⟨q, p.objective.value q⟩

theorem vertex?_eq_some {r s : Row α} {v : Vertex α} :
    p.vertex? o r s = some v ↔
      Line.crossing o.eps r.line s.line = .ok (some v.toPoint) ∧
        v.toPoint.satisfies o.feasibilityTol (CornerPoint.halfPlanes p.rows) ∧
        v.z = p.objective.value v.toPoint := by
  obtain ⟨q, z⟩ := v
  simp only [vertex?, Option.map_eq_some_iff, Option.filter_eq_some_iff,
    Line.crossing?_eq_some, Vertex.mk.injEq]
  constructor
  · rintro ⟨q, ⟨hcross, hsat⟩, rfl, rfl⟩
    exact ⟨hcross, hsat, rfl⟩
  · rintro ⟨hcross, hsat, rfl⟩
    exact ⟨q, ⟨hcross, hsat⟩, rfl, rfl⟩

/-- The vertices of all feasible pairs of rows, in the order of the pairs. -/
def pairVertices (o : Options α) (p : Problem α) : List (Vertex α) :=
  (pairs p.rows.zipIdx).filterMap fun pair => p.vertex? o pair.1.1 pair.2.1

theorem evaluated_eq_pairVertices {points : List (Point α)}
    (h : Line.crossings o.eps (p.rows.map Row.line) = .ok points) :
    (Workings.ofCandidates o p points).evaluated = p.pairVertices o := by
  have hrows : p.rows.map Row.line = p.rows.zipIdx.map fun entry => entry.1.line := by
    conv_lhs => rw [← List.zipIdx_map_fst 0 p.rows, List.map_map]
    rfl
  have hpairs : pairs (p.rows.map Row.line) =
      (pairs p.rows.zipIdx).map fun pair => (pair.1.1.line, pair.2.1.line) := by
    rw [hrows, pairs_map]
    rfl
  change ((feasiblePoints o.feasibilityTol (CornerPoint.halfPlanes p.rows) points).map fun q =>
    (⟨q, p.objective.value q⟩ : Vertex α)) = _
  rw [feasiblePoints_eq_filter, Line.crossings_eq_filterMap h, hpairs, List.filterMap_map,
    List.filter_filterMap, List.map_filterMap]
  rfl

theorem mem_pairs_of_crossAt (h : p.CrossAt o i j q) :
    ∃ r s, ((r, i), (s, j)) ∈ pairs p.rows.zipIdx ∧
      p.vertex? o r s = some ⟨q, p.objective.value q⟩ := by
  obtain ⟨hij, ⟨r, s, hr, hs, hcross⟩, hsat⟩ := h
  exact ⟨r, s, mem_pairs_zipIdx.mpr ⟨hij, hr, hs⟩, vertex?_eq_some.mpr ⟨hcross, hsat, rfl⟩⟩

theorem crossAt_of_mem_pairs {r s : Row α} {v : Vertex α}
    (hmem : ((r, i), (s, j)) ∈ pairs p.rows.zipIdx) (hv : p.vertex? o r s = some v) :
    p.CrossAt o i j v.toPoint ∧ v.z = p.objective.value v.toPoint := by
  obtain ⟨hij, hr, hs⟩ := mem_pairs_zipIdx.mp hmem
  obtain ⟨hcross, hsat, hz⟩ := vertex?_eq_some.mp hv
  exact ⟨⟨hij, ⟨r, s, hr, hs, hcross⟩, hsat⟩, hz⟩

theorem isValue_iff {z : α} : p.IsValue o z ↔ ∃ v ∈ p.pairVertices o, v.z = z := by
  constructor
  · rintro ⟨i, j, q, hq, rfl⟩
    obtain ⟨r, s, hmem, hv⟩ := mem_pairs_of_crossAt hq
    exact ⟨_, List.mem_filterMap.mpr ⟨_, hmem, hv⟩, rfl⟩
  · rintro ⟨v, hv, rfl⟩
    obtain ⟨⟨⟨r, i⟩, s, j⟩, hmem, hv⟩ := List.mem_filterMap.mp hv
    obtain ⟨hcross, hz⟩ := crossAt_of_mem_pairs hmem hv
    exact ⟨i, j, v.toPoint, hcross, hz⟩

/-- The first of the least vertices belongs to the first pair of all that are tied with it,
whichever way the pairs are gone through. -/
theorem exists_pair_of_firstLeast {lt : Vertex α → Vertex α → Bool} {best : Vertex α}
    {sources : List ((Row α × ℕ) × Row α × ℕ)} {R : ℕ ×ₗ ℕ → ℕ ×ₗ ℕ → Prop}
    (hsources : ∀ pair, pair ∈ sources ↔ pair ∈ pairs p.rows.zipIdx)
    (hR : sources.Pairwise fun a b => R (toLex (a.1.2, a.2.2)) (toLex (b.1.2, b.2.2)))
    (h : Sorting.FirstLeast lt (sources.filterMap fun pair => p.vertex? o pair.1.1 pair.2.1) best)
    (hself : lt best best = false) (hrefl : ∀ a, R a a) :
    ∃ i j, p.CrossAt o i j best.toPoint ∧ best.z = p.objective.value best.toPoint ∧
      ∀ i' j' q, p.CrossAt o i' j' q → lt best ⟨q, p.objective.value q⟩ ∨
        lt ⟨q, p.objective.value q⟩ best = false ∧ R (toLex (i, j)) (toLex (i', j')) := by
  obtain ⟨⟨⟨r, i⟩, s, j⟩, hmem, hv, hall⟩ := h.exists_source hR
  obtain ⟨hcross, hvalue⟩ := crossAt_of_mem_pairs ((hsources _).mp hmem) hv
  refine ⟨i, j, hcross, hvalue, ?_⟩
  intro i' j' q hq
  obtain ⟨r', s', hmem', hv'⟩ := mem_pairs_of_crossAt hq
  rcases hall _ ((hsources _).mpr hmem') _ hv' with hsame | hother
  · simp only [Prod.mk.injEq] at hsame
    obtain ⟨⟨rfl, rfl⟩, rfl, rfl⟩ := hsame
    obtain rfl : best = ⟨q, p.objective.value q⟩ := Option.some.inj (hv.symm.trans hv')
    exact Or.inr ⟨hself, hrefl _⟩
  · exact hother

/-- The optimum is the vertex of a feasible pair of rows. No pair has a better value, and of the
pairs with the same value it is the last one for a maximum and the first one for a minimum. -/
theorem best_breaks_ties {best : Vertex α} {vertices : Option (List (Vertex α))}
    {hull : List (Point α)} {n : ℕ} (hd : d.check = .ok p)
    (hs : d.solveDraft o = .ok (.optimal best vertices hull n))
    (hz : TotallyOrdered (p.IsValue o)) :
    ∃ i j, p.CrossAt o i j best.toPoint ∧ best.z = p.objective.value best.toPoint ∧
      ∀ i' j' q, p.CrossAt o i' j' q →
        match p.sense with
        | .max => p.objective.value q ≤ best.z ∧
            (best.z ≤ p.objective.value q → toLex (i', j') ≤ toLex (i, j))
        | .min => best.z ≤ p.objective.value q ∧
            (p.objective.value q ≤ best.z → toLex (i, j) ≤ toLex (i', j')) := by
  obtain ⟨p', points, hd', hpoints, hbest, -⟩ := solveDraft_eq_optimal hs
  obtain rfl : p = p' := Except.ok.inj (hd.symm.trans hd')
  rw [evaluated_eq_pairVertices hpoints] at hbest
  have hbz : p.IsValue o best.z := isValue_iff.mpr ⟨best, Vertex.mem_of_select? hbest, rfl⟩
  have hself : Vertex.lower best best = false := decide_eq_false (hz.not_lt_self hbz)
  have horder : Sorting.WeakOrderOn Vertex.lower (p.pairVertices o) :=
    Vertex.lower_weakOrderOn hz fun v hv => isValue_iff.mpr ⟨v, hv, rfl⟩
  have hlex := (pairs_pairwise (zipIdx_pairwise p.rows)).imp le_of_lt
  cases hsense : p.sense with
  | max =>
    rw [hsense] at hbest
    -- The last of the greatest vertices is the first of them in reverse.
    have hlast := Sorting.firstLeast_of_getLast? horder hbest
    rw [pairVertices, ← List.filterMap_reverse] at hlast
    obtain ⟨i, j, hcross, hvalue, hall⟩ := exists_pair_of_firstLeast (R := fun a b => b ≤ a)
      (fun _ => List.mem_reverse) (List.pairwise_reverse.mpr hlex) hlast hself le_refl
    refine ⟨i, j, hcross, hvalue, fun i' j' q hq => ?_⟩
    refine hz.le_and_of_lt_or ⟨i', j', q, hq, rfl⟩ hbz ?_
    simpa [Sorting.flipped, Vertex.lower] using hall i' j' q hq
  | min =>
    rw [hsense] at hbest
    have hfirst := Sorting.firstLeast_of_head? horder hbest
    obtain ⟨i, j, hcross, hvalue, hall⟩ := exists_pair_of_firstLeast (R := fun a b => a ≤ b)
      (fun _ => Iff.rfl) hlex hfirst hself le_refl
    refine ⟨i, j, hcross, hvalue, fun i' j' q hq => ?_⟩
    refine hz.le_and_of_lt_or hbz ⟨i', j', q, hq, rfl⟩ ?_
    simpa [Vertex.lower] using hall i' j' q hq

/-- A sample whose objective has one value along a whole edge. -/
def ridge (sense : Sense) (slope : Float) : Problem Float :=
  { sense
    objective := ⟨slope, slope⟩
    constraints := [{ a := 1.0, b := 1.0, c := 10.0 }]
    nonnegX := true
    nonnegY := true }

theorem ridge_max_solution : ((ridge .max 1.0).map some).solveDraft Options.default =
    .ok (.optimal ⟨⟨10.0, 0.0⟩, 10.0⟩
      (some [⟨⟨-0.0, 10.0⟩, 10.0⟩, ⟨⟨10.0, 0.0⟩, 10.0⟩, ⟨⟨0.0, 0.0⟩, 0.0⟩])
      [⟨0.0, 0.0⟩, ⟨10.0, 0.0⟩, ⟨-0.0, 10.0⟩] 3) := by
  decide +kernel

theorem ridge_min_solution : ((ridge .min (-1.0)).map some).solveDraft Options.default =
    .ok (.optimal ⟨⟨-0.0, 10.0⟩, -10.0⟩
      (some [⟨⟨0.0, 0.0⟩, -0.0⟩, ⟨⟨-0.0, 10.0⟩, -10.0⟩, ⟨⟨10.0, 0.0⟩, -10.0⟩])
      [⟨0.0, 0.0⟩, ⟨10.0, 0.0⟩, ⟨-0.0, 10.0⟩] 3) := by
  decide +kernel

theorem ridge_totallyOrdered {sense : Sense} {slope : Float}
    (h : ∀ v ∈ (ridge sense slope).pairVertices Options.default, v.z.isNaN = false) :
    TotallyOrdered ((ridge sense slope).IsValue Options.default) := by
  refine totallyOrdered_float fun z hz => ?_
  obtain ⟨v, hv, rfl⟩ := isValue_iff.mp hz
  exact h v hv

theorem ridge_best :
    (∃ i j, (ridge .max 1.0).CrossAt Options.default i j ⟨10.0, 0.0⟩ ∧
      ∀ i' j' q, (ridge .max 1.0).CrossAt Options.default i' j' q →
        (10.0 : Float) ≤ (ridge .max 1.0).objective.value q → toLex (i', j') ≤ toLex (i, j)) ∧
    (∃ i j, (ridge .min (-1.0)).CrossAt Options.default i j ⟨-0.0, 10.0⟩ ∧
      ∀ i' j' q, (ridge .min (-1.0)).CrossAt Options.default i' j' q →
        (ridge .min (-1.0)).objective.value q ≤ -10.0 → toLex (i, j) ≤ toLex (i', j')) := by
  constructor
  · obtain ⟨i, j, hcross, -, hall⟩ := best_breaks_ties (p := ridge .max 1.0) (by decide +kernel)
      ridge_max_solution (ridge_totallyOrdered (by decide +kernel))
    exact ⟨i, j, hcross, fun i' j' q hq => (hall i' j' q hq).2⟩
  · obtain ⟨i, j, hcross, -, hall⟩ := best_breaks_ties (p := ridge .min (-1.0)) (by decide +kernel)
      ridge_min_solution (ridge_totallyOrdered (by decide +kernel))
    exact ⟨i, j, hcross, fun i' j' q hq => (hall i' j' q hq).2⟩

end Problem

end CornerPoint
