import CornerPoint.Proofs.Hull.Chain
import Mathlib.Data.List.Dedup

/-!
Repeated points. A point that stands twice in a row is dropped again as soon as another one follows,
so the hull of two or more distinct points depends on nothing but which points there are. It is
made of two chains over these points, taken once each and from left to right.
-/
namespace CornerPoint

namespace Point

theorem sort_eq {points sorted : List (Point ℚ)} (hsorted : Sorting.Sorted before sorted)
    (hperm : sorted.Perm points) : Sorting.sort before points = sorted := by
  refine List.Perm.eq_of_pairwise ?_ (Sorting.sort_stable before_weakOrder points).sorted hsorted
    ((Sorting.sort_perm before points).trans hperm.symm)
  intro a b _ _ hab hba
  exact eq_of_not_before hba hab

end Point

namespace Hull

variable {eps : ℚ} {p : Point ℚ} {points others : List (Point ℚ)}

theorem retreat_repeated (heps : 0 ≤ eps) {back : List (Point ℚ)} (hback : back ≠ []) :
    retreat eps p (p :: retreat eps p back) = retreat eps p back := by
  cases hr : retreat eps p back with
  | nil => exact (hback (retreat_eq_nil.mp hr)).elim
  | cons o rest =>
    have hstay : Point.cross o p p ≤ eps := by rwa [Point.cross_self_right]
    rw [retreat, if_pos hstay, ← hr, retreat_retreat]

theorem retreat_pair (heps : 0 ≤ eps) (p q : Point ℚ) : retreat eps q [p, p] = [p] := by
  have hstay : Point.cross p p q ≤ eps := by rwa [Point.cross_self_left]
  rw [retreat, if_pos hstay]
  rfl

/-- A chain does not see a repetition, unless there is no other point. -/
theorem chain_repeated (heps : 0 ≤ eps) {u v : List (Point ℚ)} (h : u ≠ [] ∨ v ≠ []) :
    chain eps (u ++ p :: p :: v) = chain eps (u ++ p :: v) := by
  unfold chain
  simp only [List.foldl_append, List.foldl_cons]
  rcases eq_or_ne u [] with rfl | hu
  · obtain ⟨q, v, rfl⟩ := List.exists_cons_of_ne_nil (h.resolve_left (not_not_intro rfl))
    have hfirst : retreat eps p [] = [] := rfl
    have hsecond : retreat eps p [p] = [p] := rfl
    have hthird : retreat eps q [p] = [p] := rfl
    simp only [List.foldl_nil, List.foldl_cons, hfirst, hsecond, hthird, retreat_pair heps]
  · have hback : u.foldl (fun back p => p :: retreat eps p back) [] ≠ [] := by
      intro hnil
      have hhead : (chain eps u).head? = u.head? := chain_ends.1
      rw [chain, hnil] at hhead
      exact hu (List.head?_eq_none_iff.mp hhead.symm)
    rw [retreat_repeated heps hback]

/-- At least two of the points are distinct. -/
def Varied (points : List (Point ℚ)) : Prop := ∃ p ∈ points, ∃ q ∈ points, p ≠ q

instance (points : List (Point ℚ)) : Decidable (Varied points) :=
  inferInstanceAs (Decidable (∃ p ∈ points, ∃ q ∈ points, p ≠ q))

theorem Varied.mono (h : Varied points) (hsub : ∀ s ∈ points, s ∈ others) : Varied others := by
  obtain ⟨p, hp, q, hq, hne⟩ := h
  exact ⟨p, hsub p hp, q, hsub q hq, hne⟩

theorem Varied.exists_ne (h : Varied points) (p : Point ℚ) : ∃ q ∈ points, q ≠ p := by
  obtain ⟨a, ha, b, hb, hne⟩ := h
  by_cases hap : a = p
  · exact ⟨b, hb, fun hbp => hne (hap.trans hbp.symm)⟩
  · exact ⟨a, ha, hap⟩

theorem Varied.two_le_length (h : Varied points) : 2 ≤ points.length := by
  obtain ⟨p, hp, q, hq, hne⟩ := h
  match points with
  | [] => simp at hp
  | [a] => exact (hne ((List.mem_singleton.mp hp).trans (List.mem_singleton.mp hq).symm)).elim
  | a :: b :: rest => simp

theorem hull_repeated (heps : 0 ≤ eps) (h : Varied points) (hp : p ∈ points) :
    hull eps (p :: points) = hull eps points := by
  obtain ⟨u, v, hsplit⟩ :=
    List.append_of_mem ((Sorting.sort_perm Point.before points).mem_iff.mpr hp)
  have hother : u ≠ [] ∨ v ≠ [] := by
    by_contra hnone
    obtain ⟨rfl, rfl⟩ : u = [] ∧ v = [] := by simpa using hnone
    obtain ⟨q, hq, hne⟩ := h.exists_ne p
    rw [← (Sorting.sort_perm Point.before points).mem_iff, hsplit] at hq
    exact hne (List.mem_singleton.mp hq)
  -- In order, the new copy of `p` stands beside the one that is there.
  have hsort : Sorting.sort Point.before (p :: points) = u ++ p :: p :: v := by
    have hsorted := (Sorting.sort_stable Point.before_weakOrder points).sorted
    have hperm := Sorting.sort_perm Point.before points
    rw [hsplit] at hsorted hperm
    refine Point.sort_eq ?_ (List.perm_middle.trans (hperm.cons p))
    obtain ⟨hu, hpv, huv⟩ := List.pairwise_append.mp hsorted
    have hself : Point.before p p = false := Point.before_weakOrder.irrefl p
    refine List.pairwise_append.mpr ⟨hu, List.pairwise_cons.mpr ⟨?_, hpv⟩, ?_⟩
    · exact List.forall_mem_cons.mpr ⟨hself, (List.pairwise_cons.mp hpv).1⟩
    · intro a ha
      have hap := huv a ha
      exact List.forall_mem_cons.mpr ⟨hap p (List.mem_cons_self ..), hap⟩
  have hlength := h.two_le_length
  have hreverse : v.reverse ≠ [] ∨ u.reverse ≠ [] := by simpa using hother.symm
  unfold hull
  rw [if_neg (by simp only [List.length_cons]; omega), if_neg (by omega), hsort, hsplit]
  simp only [List.reverse_append, List.reverse_cons, List.append_assoc, List.cons_append,
    List.nil_append, chain_repeated heps hother, chain_repeated heps hreverse]

theorem hull_dedup (heps : 0 ≤ eps) (h : Varied points) :
    hull eps points.dedup = hull eps points := by
  -- The points that were found to be distinct are kept in front.
  have hfront : ∀ rest front : List (Point ℚ), Varied (front ++ rest) →
      hull eps (front ++ rest.dedup) = hull eps (front ++ rest) := by
    intro rest
    induction rest with
    | nil =>
      intro front _
      rfl
    | cons a rest ih =>
      intro front h
      by_cases ha : a ∈ rest
      · have hvaried : Varied (front ++ rest) := by
          refine h.mono fun s hs => ?_
          simp only [List.mem_append, List.mem_cons] at hs ⊢
          rcases hs with hs | rfl | hs
          · exact Or.inl hs
          · exact Or.inr ha
          · exact Or.inr hs
        have hmiddle : hull eps (front ++ a :: rest) = hull eps (a :: (front ++ rest)) :=
          hull_eq_of_perm eps List.perm_middle
        rw [List.dedup_cons_of_mem ha, ih front hvaried, hmiddle,
          hull_repeated heps hvaried (List.mem_append_right front ha)]
      · have happend (l : List (Point ℚ)) : front ++ a :: l = (front ++ [a]) ++ l := by simp
        rw [List.dedup_cons_of_notMem ha, happend rest.dedup, happend rest]
        exact ih (front ++ [a]) (happend rest ▸ h)
  exact hfront points [] h

/-- Neither the order of the points matters nor how often each of them is given. -/
theorem hull_eq_of_mem_iff (heps : 0 ≤ eps) (hvaried : Varied points)
    (h : ∀ s, s ∈ others ↔ s ∈ points) : hull eps others = hull eps points := by
  have hvaried' : Varied others := hvaried.mono fun s hs => (h s).mpr hs
  rw [← hull_dedup heps hvaried, ← hull_dedup heps hvaried']
  refine hull_eq_of_perm eps ?_
  rw [List.perm_ext_iff_of_nodup (List.nodup_dedup others) (List.nodup_dedup points)]
  intro s
  rw [List.mem_dedup, List.mem_dedup, h s]

/-- The points from left to right, each of them once. -/
def ordered (points : List (Point ℚ)) : List (Point ℚ) :=
  Sorting.sort Point.before points.dedup

theorem mem_ordered {s : Point ℚ} : s ∈ ordered points ↔ s ∈ points := by
  rw [ordered, (Sorting.sort_perm Point.before points.dedup).mem_iff, List.mem_dedup]

theorem ordered_pairwise (points : List (Point ℚ)) :
    (ordered points).Pairwise fun p q => Point.before p q := by
  have hsorted := (Sorting.sort_stable Point.before_weakOrder points.dedup).sorted
  have hnodup : (ordered points).Nodup :=
    (Sorting.sort_perm Point.before points.dedup).nodup_iff.mpr (List.nodup_dedup points)
  refine (List.Pairwise.and hsorted hnodup).imp ?_
  rintro a b ⟨hba, hne⟩
  by_contra hab
  exact hne (Point.eq_of_not_before (by simpa using hab) hba)

theorem hull_eq_chains (heps : 0 ≤ eps) (h : Varied points) :
    hull eps points =
      (chain eps (ordered points)).dropLast ++ (chain eps (ordered points).reverse).dropLast := by
  have hlength : ¬points.dedup.length < 2 :=
    not_lt.mpr (h.mono fun s hs => List.mem_dedup.mpr hs).two_le_length
  rw [← hull_dedup heps h, hull, if_neg hlength]
  rfl

end Hull

end CornerPoint
