import CornerPoint.Proofs.Matches
import CornerPoint.Proofs.Tiebreak

/-!
The list of vertices of a solution. Vertices are sorted upwards, merged, and sorted downwards.
Nearness is not transitive, so a vertex that is dropped may be near others that are dropped too;
but each of them is near a kept one before it, which is no higher. The two sorts are stable, and
merging keeps the first copy of each vertex, so vertices of equal value stand in the order of the
first pairs of rows that give them.
-/
namespace CornerPoint

/-- What holds of earlier and later members holds of those that are tied after a stable sort. -/
theorem Sorting.StableSort.pairwise_tied {β : Type} {xs ys : List β} {lt : β → β → Bool}
    {R : β → β → Prop} (ho : WeakOrder lt) (hs : StableSort lt xs ys) (h : xs.Pairwise R) :
    ys.Pairwise fun v w => tied lt v w = true → R v w := by
  refine List.pairwise_iff_forall_sublist.mpr fun {v w} hsub htied => ?_
  have hself : tied lt v v = true := by simp [tied, ho.irrefl v]
  have hboth := hsub.filter (tied lt v)
  rw [List.filter_cons_of_pos hself, List.filter_cons_of_pos htied, List.filter_nil,
    hs.ties v] at hboth
  exact List.pairwise_iff_forall_sublist.mp (h.filter _) hboth

section Order

variable {β σ : Type} [DecidableEq β] {xs ys : List β} {v w : β}

/-- Who looks for either of two different members of the list meets the first one first. -/
structure MetBefore (xs : List β) (v w : β) : Prop where
  ne : v ≠ w
  found : xs.find? (fun x => x = v ∨ x = w) = some v

theorem metBefore_head (hne : v ≠ w) (xs : List β) : MetBefore (v :: xs) v w :=
  ⟨hne, List.find?_cons_of_pos (by simp)⟩

theorem MetBefore.cons {x : β} (h : MetBefore xs v w) (hv : x ≠ v) (hw : x ≠ w) :
    MetBefore (x :: xs) v w :=
  ⟨h.ne, by rw [List.find?_cons_of_neg (by simp [hv, hw]), h.found]⟩

theorem MetBefore.of_filter {keep : β → Bool} (h : MetBefore (xs.filter keep) v w)
    (hv : keep v = true) (hw : keep w = true) : MetBefore xs v w := by
  have hfound := h.found
  have htest : (fun x => decide (keep x = true ∧ decide (x = v ∨ x = w) = true)) =
      fun x => decide (x = v ∨ x = w) := by
    funext x
    by_cases hx : x = v ∨ x = w
    · rcases hx with rfl | rfl
      · simp [hv]
      · simp [hw]
    · simp [hx]
  rw [List.find?_filter, htest] at hfound
  exact ⟨h.ne, hfound⟩

/-- A stable sort does not change which of two tied members is met first. -/
theorem MetBefore.of_stableSort {lt : β → β → Bool} (ho : Sorting.WeakOrder lt)
    (hs : Sorting.StableSort lt xs ys) (h : MetBefore ys v w)
    (htied : Sorting.tied lt v w = true) : MetBefore xs v w := by
  have hself : Sorting.tied lt v v = true := by simp [Sorting.tied, ho.irrefl v]
  have hties : MetBefore (xs.filter (Sorting.tied lt v)) v w :=
    ⟨h.ne, (hs.first_match ho h.found).1⟩
  exact hties.of_filter hself htied

/-- Where the members come from a list of sources in order, some source of the member that is met
first comes before all sources of the other. -/
theorem MetBefore.exists_source {sources : List σ} {R : σ → σ → Prop} {g : σ → Option β}
    (hR : sources.Pairwise R) (h : MetBefore (sources.filterMap g) v w) :
    ∃ s ∈ sources, g s = some v ∧ ∀ t ∈ sources, g t = some w → R s t := by
  have hfound := h.found
  rw [List.find?_filterMap, Option.bind_eq_some_iff] at hfound
  obtain ⟨s, hs, hgs⟩ := hfound
  obtain ⟨-, before, after, rfl, hbefore⟩ := List.find?_eq_some_iff_append.mp hs
  refine ⟨s, by simp, hgs, fun t ht hgt => ?_⟩
  rcases List.mem_append.mp ht with ht | ht
  · have hnot := hbefore t ht
    simp [hgt] at hnot
  · rcases List.mem_cons.mp ht with rfl | ht
    · exact absurd (Option.some.inj (hgs.symm.trans hgt)) h.ne
    · exact (List.pairwise_cons.mp (List.pairwise_append.mp hR).2.1).1 t ht

end Order

namespace Vertex

section Merging

variable {α : Type} [Scalar α] (tol : α)

/-- What holds of nothing, and of a vertex before what is far from it, holds of all merging. -/
theorem merge_induction {P : List (Vertex α) → List (Vertex α) → Prop} (nil : P [] [])
    (cons : ∀ v vs, P (vs.filter fun w => !near tol w v) (merge tol (vs.filter fun w =>
      !near tol w v)) → P (v :: vs) (v :: merge tol (vs.filter fun w => !near tol w v)))
    (vs : List (Vertex α)) : P vs (merge tol vs) := by
  induction hn : vs.length using Nat.strong_induction_on generalizing vs with
  | h n ih =>
    subst hn
    cases vs with
    | nil => exact nil
    | cons v vs =>
      have hshorter : (vs.filter fun w => !near tol w v).length < (v :: vs).length :=
        Nat.lt_succ_of_le (List.length_filter_le ..)
      rw [merge_cons]
      exact cons v vs (ih _ hshorter _ rfl)

end Merging

variable {tol : ℚ} {vs : List (Vertex ℚ)}

theorem near_iff {v w : Vertex ℚ} : near tol v w ↔ |v.x - w.x| ≤ tol ∧ |v.y - w.y| ≤ tol := by
  simp [near, Scalar.abs_rat]

theorem near_comm (v w : Vertex ℚ) : near tol v w = near tol w v := by
  rw [Bool.eq_iff_iff, near_iff, near_iff, abs_sub_comm v.x, abs_sub_comm v.y]

/-- Of a sorted list, merging keeps something near each vertex that is no higher. -/
theorem exists_kept_near (htol : 0 ≤ tol) (hs : vs.Pairwise fun v w => v.z ≤ w.z) :
    ∀ v ∈ vs, ∃ w ∈ merge tol vs, near tol v w ∧ w.z ≤ v.z := by
  induction vs using merge_induction tol with
  | nil => simp
  | cons u vs ih =>
    obtain ⟨hu, hvs⟩ := List.pairwise_cons.mp hs
    intro v hv
    rcases List.mem_cons.mp hv with rfl | hv
    · exact ⟨v, List.mem_cons_self, near_self htol v, le_rfl⟩
    cases hnear : near tol v u with
    | true => exact ⟨u, List.mem_cons_self, hnear, hu v hv⟩
    | false =>
      obtain ⟨w, hw, hvw, hle⟩ := ih (hvs.filter _) v (List.mem_filter.mpr ⟨hv, by simp [hnear]⟩)
      exact ⟨w, List.mem_cons_of_mem u hw, hvw, hle⟩

/-- Merging keeps the first copies, in their order. -/
theorem merge_metBefore (htol : 0 ≤ tol) (vs : List (Vertex ℚ)) :
    (merge tol vs).Pairwise (MetBefore vs) := by
  induction vs using merge_induction tol with
  | nil => exact List.Pairwise.nil
  | cons u vs ih =>
    -- What is kept of the rest is far from the first vertex, and so it is not that vertex.
    have hfar : ∀ v ∈ merge tol (vs.filter fun w => !near tol w u),
        (!near tol v u) = true ∧ u ≠ v := by
      intro v hv
      have hkept := (List.mem_filter.mp ((merge_merged tol _).mem v hv)).2
      refine ⟨hkept, ?_⟩
      rintro rfl
      simp [near_self htol] at hkept
    refine List.pairwise_cons.mpr ⟨fun w hw => metBefore_head (hfar w hw).2 vs, ?_⟩
    refine ih.imp_of_mem fun {v w} hv hw hvw => ?_
    exact (hvw.of_filter (hfar v hv).1 (hfar w hw).1).cons (hfar v hv).2 (hfar w hw).2

/-- What is listed of the vertices. -/
def listing (tol : ℚ) (vs : List (Vertex ℚ)) : List (Vertex ℚ) :=
  sortByValueDescending (merge tol (sortByValue vs))

theorem mem_listing {v : Vertex ℚ} : v ∈ listing tol vs ↔ v ∈ merge tol (sortByValue vs) :=
  sortByValueDescending_perm.mem_iff

theorem mem_of_mem_listing {v : Vertex ℚ} (h : v ∈ listing tol vs) : v ∈ vs :=
  sortByValue_perm.mem_iff.mp ((merge_merged tol _).mem v (mem_listing.mp h))

theorem sortByValueDescending_descends (vs : List (Vertex ℚ)) :
    (sortByValueDescending vs).Pairwise fun v w => w.z ≤ v.z :=
  (Sorting.sortDescending_stable lower_weakOrder vs).sorted.imp
    fun {v w} hvw => (not_lower_iff v w).mp hvw

theorem listing_descends (tol : ℚ) (vs : List (Vertex ℚ)) :
    (listing tol vs).Pairwise fun v w => w.z ≤ v.z :=
  sortByValueDescending_descends (merge tol (sortByValue vs))

theorem listing_apart (tol : ℚ) (vs : List (Vertex ℚ)) :
    (listing tol vs).Pairwise fun v w => near tol v w = false := by
  have happart : (merge tol (sortByValue vs)).Pairwise fun v w => near tol v w = false :=
    (merge_merged tol (sortByValue vs)).apart.imp fun {v w} hvw => by rwa [near_comm]
  refine happart.perm sortByValueDescending_perm.symm fun {v w} hvw => ?_
  rwa [near_comm]

theorem exists_listing_near (htol : 0 ≤ tol) {v : Vertex ℚ} (hv : v ∈ vs) :
    ∃ w ∈ listing tol vs, near tol v w ∧ w.z ≤ v.z := by
  have hsorted : (sortByValue vs).Pairwise fun v w => v.z ≤ w.z :=
    (Sorting.sort_stable lower_weakOrder vs).sorted.imp fun {v w} hvw => (not_lower_iff w v).mp hvw
  obtain ⟨w, hw, hvw⟩ := exists_kept_near htol hsorted v (sortByValue_perm.mem_iff.mpr hv)
  exact ⟨w, mem_listing.mpr hw, hvw⟩

/-- Vertices of equal value are listed in the order in which they are met in the original list. -/
theorem listing_metBefore (htol : 0 ≤ tol) (vs : List (Vertex ℚ)) :
    (listing tol vs).Pairwise fun v w => v.z = w.z → MetBefore vs v w := by
  have hlisted := (Sorting.sortDescending_stable lower_weakOrder
    (merge tol (sortByValue vs))).pairwise_tied lower_weakOrder.flip (merge_metBefore htol _)
  refine hlisted.imp fun {v w} hvw hz => ?_
  have htied : Sorting.tied lower v w = true := by
    simp [Sorting.tied, not_lower_iff, hz]
  have hsorted := hvw (by rw [Sorting.tied_flipped, htied])
  exact hsorted.of_stableSort lower_weakOrder (Sorting.sort_stable lower_weakOrder vs) htied

/-- The lowest vertex is the first to be merged. -/
theorem mem_listing_of_select? {best : Vertex ℚ} (h : select? .min vs = some best) :
    best ∈ listing tol vs := by
  obtain ⟨rest, hrest⟩ := List.head?_eq_some_iff.mp h
  rw [mem_listing, hrest, merge_cons]
  exact List.mem_cons_self

end Vertex

namespace Problem

variable {d : Draft ℚ} {p : Problem ℚ} {o : Options ℚ} {v w : Vertex ℚ}

/-- Some pair of rows that crosses in `v` comes before all pairs that cross in `w`. -/
def CrossedBefore (o : Options ℚ) (p : Problem ℚ) (v w : Vertex ℚ) : Prop :=
  ∃ i j, p.CrossAt o i j v.toPoint ∧
    ∀ i' j', p.CrossAt o i' j' w.toPoint → toLex (i, j) < toLex (i', j')

theorem crossedBefore_of_metBefore (h : MetBefore (p.pairVertices o) v w)
    (hw : w.z = p.objective.value w.toPoint) : p.CrossedBefore o v w := by
  obtain ⟨⟨⟨r, i⟩, s, j⟩, hmem, hv, hlater⟩ :=
    h.exists_source (pairs_pairwise (zipIdx_pairwise p.rows))
  refine ⟨i, j, (crossAt_of_mem_pairs hmem hv).1, fun i' j' hcross => ?_⟩
  obtain ⟨r', s', hmem', hw'⟩ := mem_pairs_of_crossAt hcross
  rw [← hw] at hw'
  exact hlater _ hmem' hw'

/-- Listed vertices descend in value, those of equal value in the order of the pairs of rows. No two
of them are near each other, every feasible crossing is near a listed one that is no higher, and a
minimum is listed itself. -/
theorem listed_descends_apart_covering {best : Vertex ℚ} {vertices : Option (List (Vertex ℚ))}
    {hull : List (Point ℚ)} {n : ℕ} (hd : d.check = .ok p)
    (hs : d.solveDraft o = .ok (.optimal best vertices hull n)) (hlist : o.listVertices = true)
    (htol : 0 ≤ o.dedupTol) :
    ∃ listed, vertices = some listed ∧
      (listed.Pairwise fun v w => w.z ≤ v.z ∧ (v.z = w.z → p.CrossedBefore o v w)) ∧
      (listed.Pairwise fun v w => ¬(|v.x - w.x| ≤ o.dedupTol ∧ |v.y - w.y| ≤ o.dedupTol)) ∧
      (∀ i j q, p.CrossAt o i j q → ∃ v ∈ listed,
        |q.x - v.x| ≤ o.dedupTol ∧ |q.y - v.y| ≤ o.dedupTol ∧ v.z ≤ p.objective.value q) ∧
      (p.sense = .min → best ∈ listed) := by
  obtain ⟨p', points, hd', hpoints, hbest, rfl, -⟩ := solveDraft_eq_optimal hs
  obtain rfl : p = p' := Except.ok.inj (hd.symm.trans hd')
  have hevaluated := evaluated_eq_pairVertices hpoints
  rw [hevaluated] at hbest
  have hlisted : Vertex.sortByValueDescending (Workings.ofCandidates o p points).distinct =
      Vertex.listing o.dedupTol (p.pairVertices o) := by
    rw [← hevaluated]
    rfl
  refine ⟨_, by rw [if_pos hlist, hlisted], ?_, ?_, ?_, ?_⟩
  · refine (Vertex.listing_descends ..).and (Vertex.listing_metBefore htol _) |>.imp_of_mem ?_
    intro v w _ hw hvw
    refine ⟨hvw.1, fun hz => crossedBefore_of_metBefore (hvw.2 hz) ?_⟩
    obtain ⟨⟨⟨r, i⟩, s, j⟩, -, hcross⟩ := List.mem_filterMap.mp (Vertex.mem_of_mem_listing hw)
    exact (vertex?_eq_some.mp hcross).2.2
  · refine (Vertex.listing_apart ..).imp fun {v w} hvw hnear => ?_
    rw [← Vertex.near_iff, hvw] at hnear
    cases hnear
  · intro i j q hq
    obtain ⟨r, s, hmem, hv⟩ := mem_pairs_of_crossAt hq
    have hq' : (⟨q, p.objective.value q⟩ : Vertex ℚ) ∈ p.pairVertices o :=
      List.mem_filterMap.mpr ⟨_, hmem, hv⟩
    obtain ⟨v, hv, hnear, hle⟩ := Vertex.exists_listing_near htol hq'
    obtain ⟨hx, hy⟩ := Vertex.near_iff.mp hnear
    exact ⟨v, hv, hx, hy, hle⟩
  · intro hmin
    rw [hmin] at hbest
    exact Vertex.mem_listing_of_select? hbest

/-- A sample with two corners of equal value and a third one below. -/
def ramp : Problem ℚ :=
  { sense := .min
    objective := ⟨1, 2⟩
    constraints := [{ a := 1, b := 2, c := 2 }]
    nonnegX := true
    nonnegY := true }

def mergingOptions (tol : ℚ) : Options ℚ := { Options.default with dedupTol := tol }

theorem ramp_solution : (ramp.map some).solveDraft (mergingOptions (1 / 2)) =
    .ok (.optimal ⟨⟨0, 0⟩, 0⟩ (some [⟨⟨0, 1⟩, 2⟩, ⟨⟨2, 0⟩, 2⟩, ⟨⟨0, 0⟩, 0⟩])
      [⟨0, 0⟩, ⟨2, 0⟩, ⟨0, 1⟩] 3) := by
  decide +kernel

theorem ramp_merged_solution : (ramp.map some).solveDraft (mergingOptions 1) =
    .ok (.optimal ⟨⟨0, 0⟩, 0⟩ (some [⟨⟨2, 0⟩, 2⟩, ⟨⟨0, 0⟩, 0⟩])
      [⟨0, 0⟩, ⟨2, 0⟩, ⟨0, 1⟩] 3) := by
  decide +kernel

/-- Of the two upper corners the one of the earlier pair is listed first, unless the tolerance lets
the lowest corner stand for it. -/
theorem ramp_listed :
    ramp.CrossedBefore (mergingOptions (1 / 2)) ⟨⟨0, 1⟩, 2⟩ ⟨⟨2, 0⟩, 2⟩ ∧
    ramp.CrossAt (mergingOptions 1) 0 1 ⟨0, 1⟩ ∧
    (∃ v ∈ [(⟨⟨2, 0⟩, 2⟩ : Vertex ℚ), ⟨⟨0, 0⟩, 0⟩],
      |0 - v.x| ≤ 1 ∧ |1 - v.y| ≤ 1 ∧ v.z ≤ 2) ∧
    (⟨⟨0, 0⟩, 0⟩ : Vertex ℚ) ∈ [(⟨⟨2, 0⟩, 2⟩ : Vertex ℚ), ⟨⟨0, 0⟩, 0⟩] := by
  have hcross : ramp.CrossAt (mergingOptions 1) 0 1 ⟨0, 1⟩ :=
    ⟨Nat.zero_lt_one, ⟨_, _, rfl, rfl, by decide +kernel⟩, by decide +kernel⟩
  obtain ⟨listed, hlisted, hsorted, -⟩ :=
    listed_descends_apart_covering (p := ramp) rfl ramp_solution rfl (by decide +kernel)
  obtain rfl := Option.some.inj hlisted
  obtain ⟨merged, hmerged, -, -, hcovered, hlowest⟩ :=
    listed_descends_apart_covering (p := ramp) rfl ramp_merged_solution rfl (by decide +kernel)
  obtain rfl := Option.some.inj hmerged
  have hfirst := (List.pairwise_cons.mp hsorted).1 _ List.mem_cons_self
  refine ⟨hfirst.2 rfl, hcross, ?_, hlowest rfl⟩
  obtain ⟨v, hv, hx, hy, hz⟩ := hcovered 0 1 _ hcross
  have hvalue : ramp.objective.value ⟨0, 1⟩ = 2 := by decide +kernel
  rw [hvalue] at hz
  exact ⟨v, hv, hx, hy, hz⟩

end Problem

end CornerPoint
