import CornerPoint.Proofs.Region
import CornerPoint.Proofs.Sorting.Permutation
import CornerPoint.Proofs.Sorting.Stable
import CornerPoint.Vertex

/-!
Which vertices are selected and kept. Whatever the arithmetic, no vertex is made up on the way. Over
exact numbers the selected vertex has the best value of all, and merging leaves vertices that are
apart from each other and near every one that was left out.
-/
namespace CornerPoint

/-- The first value is at least as good as the second. -/
def Sense.Prefers : Sense → ℚ → ℚ → Prop
  | .max, v, w => w ≤ v
  | .min, v, w => v ≤ w

theorem Sense.Prefers.trans {sense : Sense} {u v w : ℚ} (h : sense.Prefers u v)
    (k : sense.Prefers v w) : sense.Prefers u w := by
  cases sense with
  | max => exact le_trans k h
  | min => exact le_trans h k

theorem Sense.Prefers.antisymm {sense : Sense} {v w : ℚ} (h : sense.Prefers v w)
    (k : sense.Prefers w v) : v = w := by
  cases sense with
  | max => exact le_antisymm k h
  | min => exact le_antisymm h k

theorem exists_mem_of_mem_evaluate {α : Type} [Scalar α] {f : Objective α}
    {points : List (Point α)} {v : Vertex α} (h : v ∈ Vertex.evaluate f points) :
    v.toPoint ∈ points ∧ v.z = f.value v.toPoint := by
  obtain ⟨q, hq, rfl⟩ := List.mem_map.mp h
  exact ⟨hq, rfl⟩

namespace Vertex

section AnyScalar

variable {α : Type} [Scalar α] {vs : List (Vertex α)} {best : Vertex α} {sense : Sense}

theorem sortByValue_perm : (sortByValue vs).Perm vs := Sorting.sort_perm lower vs

theorem sortByValueDescending_perm : (sortByValueDescending vs).Perm vs :=
  Sorting.sortDescending_perm lower vs

theorem select?_eq_none : select? sense vs = none ↔ vs = [] := by
  have hnil : sortByValue vs = [] ↔ vs = [] := by
    rw [← List.length_eq_zero_iff, sortByValue_perm.length_eq, List.length_eq_zero_iff]
  cases sense <;> simp [select?, hnil]

theorem mem_of_select? (h : select? sense vs = some best) : best ∈ vs := by
  rw [← sortByValue_perm.mem_iff]
  cases sense with
  | max => exact List.mem_of_getLast? h
  | min => exact List.mem_of_mem_head? h

/-- `kept` is what merging leaves of `vs`. -/
structure Merged (tol : α) (vs kept : List (Vertex α)) : Prop where
  mem : ∀ v ∈ kept, v ∈ vs
  apart : kept.Pairwise fun v w => near tol w v = false
  covered : ∀ v ∈ vs, v ∈ kept ∨ ∃ w ∈ kept, near tol v w

theorem Merged.add {tol : α} {kept : List (Vertex α)} (h : Merged tol vs kept) (v : Vertex α) :
    Merged tol (vs ++ [v]) (if kept.any (near tol v) then kept else kept ++ [v]) := by
  split
  · rename_i hnear
    refine ⟨fun w hw => List.mem_append_left _ (h.mem w hw), h.apart, ?_⟩
    intro w hw
    rcases List.mem_append.mp hw with hw | hw
    · exact h.covered w hw
    · obtain rfl : w = v := by simpa using hw
      obtain ⟨u, hu, hn⟩ := List.any_eq_true.mp hnear
      exact Or.inr ⟨u, hu, hn⟩
  · rename_i hfar
    have hfar' : ∀ w ∈ kept, near tol v w = false := by simpa using hfar
    refine ⟨?_, ?_, ?_⟩
    · intro w hw
      rcases List.mem_append.mp hw with hw | hw
      · exact List.mem_append_left _ (h.mem w hw)
      · exact List.mem_append_right _ hw
    · refine List.pairwise_append.mpr ⟨h.apart, List.pairwise_singleton _ _, ?_⟩
      intro w hw u hu
      obtain rfl : u = v := by simpa using hu
      exact hfar' w hw
    · intro w hw
      rcases List.mem_append.mp hw with hw | hw
      · rcases h.covered w hw with hk | ⟨u, hu, hn⟩
        · exact Or.inl (List.mem_append_left _ hk)
        · exact Or.inr ⟨u, List.mem_append_left _ hu, hn⟩
      · exact Or.inl (List.mem_append_right _ hw)

theorem merge_merged (tol : α) (vs : List (Vertex α)) : Merged tol vs (merge tol vs) := by
  have hfold : ∀ rest seen kept, Merged tol seen kept →
      Merged tol (seen ++ rest) (rest.foldl
        (fun kept p => if kept.any (near tol p) then kept else kept ++ [p]) kept) := by
    intro rest
    induction rest with
    | nil => intro seen kept h; simpa using h
    | cons v rest ih =>
      intro seen kept h
      simpa using ih _ _ (h.add v)
  exact hfold vs [] [] ⟨by simp, List.Pairwise.nil, by simp⟩

/-- The first vertex stays, and what is near it is never looked at again. -/
theorem merge_cons (tol : α) (v : Vertex α) (vs : List (Vertex α)) :
    merge tol (v :: vs) = v :: merge tol (vs.filter fun w => !near tol w v) := by
  have hfold : ∀ (rest kept : List (Vertex α)),
      rest.foldl (fun kept p => if kept.any (near tol p) then kept else kept ++ [p]) (v :: kept) =
        v :: (rest.filter fun w => !near tol w v).foldl
          (fun kept p => if kept.any (near tol p) then kept else kept ++ [p]) kept := by
    intro rest
    induction rest with
    | nil => intro kept; rfl
    | cons w rest ih =>
      intro kept
      cases hnear : near tol w v with
      | true =>
        rw [List.filter_cons_of_neg (by simp [hnear]), List.foldl_cons, List.any_cons, hnear,
          Bool.true_or, if_pos rfl, ih]
      | false =>
        rw [List.filter_cons_of_pos (by simp [hnear]), List.foldl_cons, List.foldl_cons,
          List.any_cons, hnear, Bool.false_or, ← ih]
        split <;> rfl
  exact hfold vs []

end AnyScalar

theorem lower_iff (v w : Vertex ℚ) : lower v w ↔ v.z < w.z := decide_eq_true_iff

theorem not_lower_iff (v w : Vertex ℚ) : lower v w = false ↔ w.z ≤ v.z := by
  rw [← Bool.not_eq_true, lower_iff, not_lt]

theorem lower_weakOrder : Sorting.WeakOrder (lower : Vertex ℚ → Vertex ℚ → Bool) where
  asymm h := (not_lower_iff _ _).mpr ((lower_iff _ _).mp h).le
  le_trans hab hbc :=
    (not_lower_iff _ _).mpr (((not_lower_iff _ _).mp hab).trans ((not_lower_iff _ _).mp hbc))

theorem select?_prefers {vs : List (Vertex ℚ)} {best : Vertex ℚ} {sense : Sense}
    (h : select? sense vs = some best) : ∀ v ∈ vs, sense.Prefers best.z v.z := by
  intro v hv
  have hs := (Sorting.sort_stable lower_weakOrder vs).sorted
  have hmem : v ∈ sortByValue vs := sortByValue_perm.mem_iff.mpr hv
  cases sense with
  | max => exact (not_lower_iff _ _).mp (hs.le_getLast lower_weakOrder h v hmem)
  | min => exact (not_lower_iff _ _).mp (hs.head_le lower_weakOrder h v hmem)

theorem select?_value_eq_of_perm {sense : Sense} {vs ws : List (Vertex ℚ)} (h : vs.Perm ws) :
    (select? sense vs).map Vertex.z = (select? sense ws).map Vertex.z := by
  cases hv : select? sense vs with
  | none =>
    obtain rfl := select?_eq_none.mp hv
    rw [← hv, h.nil_eq]
  | some v =>
    cases hw : select? sense ws with
    | none =>
      obtain rfl := select?_eq_none.mp hw
      obtain rfl := h.eq_nil
      simp [hw] at hv
    | some w =>
      have hvw := select?_prefers hv w (h.mem_iff.mpr (mem_of_select? hw))
      have hwv := select?_prefers hw v (h.mem_iff.mp (mem_of_select? hv))
      rw [Option.map_some, Option.map_some, hvw.antisymm hwv]

theorem near_self {tol : ℚ} (htol : 0 ≤ tol) (v : Vertex ℚ) : near tol v v = true := by
  simp [near, Scalar.abs_rat, htol]

theorem near_zero_iff (v w : Vertex ℚ) : near 0 v w ↔ v.toPoint = w.toPoint := by
  have hz (a b : ℚ) : Scalar.abs (a - b) ≤ 0 ↔ a = b := by
    rw [Scalar.abs_rat, abs_nonpos_iff, sub_eq_zero]
  obtain ⟨⟨x, y⟩, z⟩ := v
  obtain ⟨⟨x', y'⟩, z'⟩ := w
  simp only [near, Bool.and_eq_true, decide_eq_true_eq, hz, Point.mk.injEq]

/-- With tolerance zero, merging keeps one vertex at each point. -/
theorem merge_zero_points (vs : List (Vertex ℚ)) :
    ((merge 0 vs).map Vertex.toPoint).Nodup ∧
      ∀ q, q ∈ (merge 0 vs).map Vertex.toPoint ↔ q ∈ vs.map Vertex.toPoint := by
  obtain ⟨hmem, hapart, hcov⟩ := merge_merged 0 vs
  constructor
  · refine List.pairwise_map.mpr (hapart.imp ?_)
    intro v w hvw he
    rw [(near_zero_iff w v).mpr he.symm] at hvw
    simp at hvw
  · intro q
    simp only [List.mem_map]
    constructor
    · rintro ⟨v, hv, rfl⟩
      exact ⟨v, hmem v hv, rfl⟩
    · rintro ⟨v, hv, rfl⟩
      rcases hcov v hv with hk | ⟨w, hw, hn⟩
      · exact ⟨v, hk, rfl⟩
      · exact ⟨w, hw, ((near_zero_iff v w).mp hn).symm⟩

end Vertex

end CornerPoint
