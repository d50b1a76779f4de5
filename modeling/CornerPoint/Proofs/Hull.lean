import CornerPoint.Hull
import CornerPoint.Proofs.Sorting.Permutation
import CornerPoint.Proofs.Sorting.Stable
import CornerPoint.Scalar.Exact
import Mathlib.Algebra.Order.Ring.Rat

/-!
What the hull is made of. Whatever turns the points make, a chain only drops points, so the hull
has none of its own. Over exact numbers points are in a linear order, and then the hull does not
depend on the order in which the points are given.
-/
namespace CornerPoint

namespace Hull

variable {α : Type} [Scalar α]

theorem retreat_suffix (eps : α) (p : Point α) (back : List (Point α)) :
    retreat eps p back <:+ back := by
  fun_induction retreat eps p back with
  | case1 a o rest hturn ih => exact ih.trans (List.suffix_cons a (o :: rest))
  | case2 a o rest hturn => exact List.suffix_refl _
  | case3 short hshort => exact List.suffix_refl _

theorem chain_sublist (eps : α) (points : List (Point α)) :
    (chain eps points).Sublist points := by
  -- Both the chain and the points seen so far are held with the latest first.
  have hfold : ∀ rest back seen : List (Point α), back.Sublist seen →
      (rest.foldl (fun back p => p :: retreat eps p back) back).Sublist (rest.reverse ++ seen) := by
    intro rest
    induction rest with
    | nil => intro back seen h; exact h
    | cons p rest ih =>
      intro back seen h
      have hstep : (p :: retreat eps p back).Sublist (p :: seen) :=
        List.Sublist.cons_cons p ((retreat_suffix eps p back).sublist.trans h)
      simpa using ih _ _ hstep
  simpa [chain] using (hfold points [] [] (List.Sublist.refl [])).reverse

theorem mem_of_mem_hull {eps : α} {points : List (Point α)} {q : Point α}
    (h : q ∈ hull eps points) : q ∈ points := by
  unfold hull at h
  split at h
  · simp at h
  rw [← (Sorting.sort_perm Point.before points).mem_iff]
  rcases List.mem_append.mp h with h | h
  · exact (chain_sublist eps _).mem ((List.dropLast_sublist _).mem h)
  · exact List.mem_reverse.mp ((chain_sublist eps _).mem ((List.dropLast_sublist _).mem h))

end Hull

namespace Point

theorem before_iff (p q : Point ℚ) : before p q ↔ p.x < q.x ∨ p.x = q.x ∧ p.y < q.y := by
  unfold before
  by_cases hx : p.x = q.x
  · simp [hx]
  · simp [hx]

theorem not_before_iff (p q : Point ℚ) :
    before p q = false ↔ q.x < p.x ∨ q.x = p.x ∧ q.y ≤ p.y := by
  rw [← Bool.not_eq_true, before_iff]
  push Not
  constructor
  · rintro ⟨hx, hy⟩
    rcases hx.lt_or_eq with h | h
    · exact Or.inl h
    · exact Or.inr ⟨h, hy h.symm⟩
  · rintro (h | ⟨h, hy⟩)
    · exact ⟨h.le, fun he => (h.ne he.symm).elim⟩
    · exact ⟨h.le, fun _ => hy⟩

theorem before_weakOrder : Sorting.WeakOrder (before : Point ℚ → Point ℚ → Bool) where
  asymm h := by
    rw [before_iff] at h
    rw [not_before_iff]
    exact h.imp_right fun ⟨hx, hy⟩ => ⟨hx, hy.le⟩
  le_trans hab hbc := by
    rw [not_before_iff] at hab hbc ⊢
    rcases hab with hab | ⟨hab, hab'⟩
    · rcases hbc with hbc | ⟨hbc, -⟩
      · exact Or.inl (hab.trans hbc)
      · exact Or.inl (hbc ▸ hab)
    · rcases hbc with hbc | ⟨hbc, hbc'⟩
      · exact Or.inl (hab ▸ hbc)
      · exact Or.inr ⟨hab.trans hbc, hab'.trans hbc'⟩

/-- Only equal points are tied. -/
theorem eq_of_not_before {p q : Point ℚ} (hpq : before p q = false) (hqp : before q p = false) :
    p = q := by
  obtain ⟨px, py⟩ := p
  obtain ⟨qx, qy⟩ := q
  simp only [not_before_iff] at hpq hqp
  rcases hpq with hpq | ⟨hx, hy⟩
  · rcases hqp with hqp | ⟨hqp, -⟩
    · exact (lt_asymm hpq hqp).elim
    · exact (hpq.ne hqp.symm).elim
  · rcases hqp with hqp | ⟨-, hy'⟩
    · exact (hqp.ne hx.symm).elim
    · rw [hx, le_antisymm hy' hy]

theorem sort_eq_of_perm {points others : List (Point ℚ)} (h : points.Perm others) :
    Sorting.sort before points = Sorting.sort before others := by
  refine List.Perm.eq_of_pairwise ?_ (Sorting.sort_stable before_weakOrder points).sorted
    (Sorting.sort_stable before_weakOrder others).sorted ?_
  · intro a b _ _ hab hba
    exact eq_of_not_before hba hab
  · exact (Sorting.sort_perm before points).trans (h.trans (Sorting.sort_perm before others).symm)

end Point

theorem Hull.hull_eq_of_perm (eps : ℚ) {points others : List (Point ℚ)} (h : points.Perm others) :
    hull eps points = hull eps others := by
  unfold hull
  rw [h.length_eq, Point.sort_eq_of_perm h]

end CornerPoint
