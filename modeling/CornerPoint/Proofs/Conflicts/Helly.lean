import CornerPoint.Proofs.Conflicts
import CornerPoint.Proofs.Conflicts.Witness
import Mathlib.Analysis.Convex.Radon

/-!
Why a diagnosis names few rows. Each row holds on a convex part of the plane, and if the parts of
all rows have no point in common, then those of some three rows have none. Dropping any other row
leaves these three where they are, so only they can be named.
-/
namespace CornerPoint

/-- The part of the plane in which a row holds within the tolerance. -/
def Row.region (tol : ℚ) (r : Row ℚ) : Set (ℚ × ℚ) := {v | r.HoldsWithin tol ⟨v.1, v.2⟩}

theorem Row.region_convex (tol : ℚ) (r : Row ℚ) : Convex ℚ (r.region tol) := by
  have hlinear : IsLinearMap ℚ fun v : ℚ × ℚ => r.lhs ⟨v.1, v.2⟩ := by
    constructor
    · intro v w
      simp only [lhs, Prod.fst_add, Prod.snd_add]
      ring
    · intro c v
      simp only [lhs, Prod.smul_fst, Prod.smul_snd, smul_eq_mul]
      ring
  have hupper : Convex ℚ {v : ℚ × ℚ | r.lhs ⟨v.1, v.2⟩ ≤ r.c + tol} :=
    convex_halfSpace_le hlinear _
  have hlower : Convex ℚ {v : ℚ × ℚ | r.c - tol ≤ r.lhs ⟨v.1, v.2⟩} :=
    convex_halfSpace_ge hlinear _
  unfold region HoldsWithin
  cases r.sign with
  | le => exact hupper
  | ge => exact hlower
  | eq => exact hupper.inter hlower

/-- Rows that exclude every point contain three that do. -/
theorem exists_three_excluding {tol : ℚ} {rows : List (Row ℚ)}
    (h : ∀ q, ∃ r ∈ rows, ¬r.HoldsWithin tol q) :
    ∃ I : Finset ℕ, I.card ≤ 3 ∧ ∀ q, ∃ i ∈ I, ∃ r, rows[i]? = some r ∧ ¬r.HoldsWithin tol q := by
  by_contra hthree
  push Not at hthree
  have hconvex : ∀ i ∈ Finset.range rows.length,
      Convex ℚ (rows[i]?.elim Set.univ (Row.region tol)) := by
    intro i _
    cases rows[i]? with
    | none => exact convex_univ
    | some r => exact r.region_convex tol
  have hmeet : ∀ I ⊆ Finset.range rows.length, I.card ≤ Module.finrank ℚ (ℚ × ℚ) + 1 →
      (⋂ i ∈ I, rows[i]?.elim Set.univ (Row.region tol)).Nonempty := by
    intro I _ hcard
    rw [Module.finrank_prod, Module.finrank_self] at hcard
    obtain ⟨q, hq⟩ := hthree I hcard
    refine ⟨(q.x, q.y), Set.mem_iInter₂.mpr fun i hi => ?_⟩
    cases hr : rows[i]? with
    | none => exact Set.mem_univ _
    | some r => exact hq i hi r hr
  obtain ⟨v, hv⟩ := Convex.helly_theorem' hconvex hmeet
  obtain ⟨r, hr, hfails⟩ := h ⟨v.1, v.2⟩
  obtain ⟨i, hi⟩ := List.mem_iff_getElem?.mp hr
  have hmem := Set.mem_iInter₂.mp hv i
    (Finset.mem_range.mpr (List.getElem?_eq_some_iff.mp hi).1)
  rw [hi] at hmem
  exact hfails hmem

namespace Problem

variable {d : Draft ℚ} {p : Problem ℚ} {tol : ℚ} {k : ℕ} {q : Point ℚ} {I : Finset ℕ}

/-- If some row of `I` excludes a point that fails only row `k`, then row `k` is in `I`. -/
theorem FailsOnly.mem (h : p.FailsOnly tol k q)
    (hI : ∃ i ∈ I, ∃ r, p.rows[i]? = some r ∧ ¬r.HoldsWithin tol q) : k ∈ I := by
  obtain ⟨i, hi, r, hr, hfails⟩ := hI
  by_cases hik : i = k
  · rwa [← hik]
  · exact absurd ((r.admits_iff tol q).mp (h.others i r hik hr)) hfails

theorem nodup_restorers (p : Problem ℚ) : (p.restorers.map Prod.snd).Nodup := by
  have hpairs := (zipIdx_pairwise p.constraints).sublist p.restorers_sublist
  exact List.pairwise_map.mpr (hpairs.imp Nat.ne_of_lt)

/-- A problem of which no point satisfies all rows is diagnosed, and the diagnosis names at most
three rows. -/
theorem at_most_three_named (hd : d.check = .ok p)
    (hempty : ∀ q : Point ℚ,
      ¬q.satisfies Options.defaultFeasibilityTol (CornerPoint.halfPlanes p.rows)) :
    ∃ labels, d.diagnoseDraft = .ok (.infeasible labels) ∧ labels.length ≤ 3 := by
  have hexcluded : ∀ q, ∃ r ∈ p.rows, ¬r.HoldsWithin Options.defaultFeasibilityTol q := by
    intro q
    have hq := hempty q
    rw [Point.satisfies_iff] at hq
    push Not at hq
    exact hq
  have hnil : p.feasibleCrossings diagnosisOptions = [] := by
    refine List.eq_nil_iff_forall_not_mem.mpr fun q hq => ?_
    obtain ⟨r, hr, hfails⟩ := hexcluded q
    exact hfails ((mem_feasibleCrossings.mp hq).2 r hr)
  have hdiag : d.diagnoseDraft = .ok (.infeasible p.restoring) := by
    unfold diagnoseDraft
    simp only [hd, diagnose_rat, hnil, if_true]
  refine ⟨p.restoring, hdiag, ?_⟩
  obtain ⟨p', points, hd', hpoints, hnone, hconflicts⟩ := diagnoseDraft_eq_infeasible hdiag
  obtain rfl : p = p' := Except.ok.inj (hd.symm.trans hd')
  obtain ⟨I, hthree, hI⟩ := exists_three_excluding hexcluded
  have hsub : (p.restorers.map Prod.snd).toFinset ⊆ I := by
    intro k hk
    obtain ⟨⟨r, k⟩, hmem, rfl⟩ := List.mem_map.mp (List.mem_toFinset.mp hk)
    obtain ⟨hr, best, hbest⟩ := mem_restorers.mp hmem
    have hfails := failsOnly_of_best? (o := Options.default)
      (List.getElem?_eq_some_iff.mp hr).1 hpoints hnone hbest
    exact hfails.mem (hI best.toPoint)
  calc p.restoring.length = (p.restorers.map Prod.snd).length := by
        rw [conflicts_eq_ok hconflicts, List.length_map, List.length_map]
    _ = (p.restorers.map Prod.snd).toFinset.card :=
        (List.toFinset_card_of_nodup p.nodup_restorers).symm
    _ ≤ I.card := Finset.card_le_card hsub
    _ ≤ 3 := hthree

/-- A sample in which three rows exclude each other, though no two of them do, and two more rows
have no part in it. -/
def tripod : Problem ℚ :=
  { objective := ⟨1, 1⟩
    constraints :=
      [{ a := 1, b := 0, sign := .ge, c := 0 }, { a := 0, b := 1, sign := .ge, c := 0 },
       { a := 1, b := 1, sign := .le, c := -1 }, { a := 1, b := 0, sign := .le, c := 8 },
       { a := 0, b := 1, sign := .le, c := 8 }] }

theorem tripod_three_named :
    (tripod.map some).diagnoseDraft = .ok (.infeasible ["c1", "c2", "c3"]) ∧
      ∃ labels, (tripod.map some).diagnoseDraft = .ok (.infeasible labels) ∧
        labels.length ≤ 3 := by
  refine ⟨by decide +kernel, at_most_three_named (p := tripod) rfl ?_⟩
  intro q hq
  rw [Point.satisfies_iff] at hq
  have hx : (0 : ℚ) - Options.defaultFeasibilityTol ≤ 1 * q.x + 0 * q.y :=
    hq _ (List.mem_cons_self ..)
  have hy : (0 : ℚ) - Options.defaultFeasibilityTol ≤ 0 * q.x + 1 * q.y :=
    hq _ (List.mem_cons_of_mem _ (List.mem_cons_self ..))
  have hsum : 1 * q.x + 1 * q.y ≤ (-1 : ℚ) + Options.defaultFeasibilityTol :=
    hq _ (List.mem_cons_of_mem _ (List.mem_cons_of_mem _ (List.mem_cons_self ..)))
  have htol : (Options.defaultFeasibilityTol : ℚ) < 1 / 3 := by decide +kernel
  linarith

end Problem

end CornerPoint
