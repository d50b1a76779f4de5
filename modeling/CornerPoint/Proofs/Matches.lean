import CornerPoint.Proofs.Sorting.Permutation
import CornerPoint.Proofs.Sorting.Stable

/-!
Lists that differ by repeats only. Two lists have the same matches if every search finds the same
member in both, from the front and from the back. Repeating a stretch right after itself keeps the
matches, and so does everything that the solver does to its points: to join, to filter, to evaluate
and to sort them.
-/
namespace CornerPoint

variable {β γ : Type} {xs ys zs ws : List β}

structure SameMatches (xs ys : List β) : Prop where
  front : ∀ test : β → Bool, xs.find? test = ys.find? test
  back : ∀ test : β → Bool, xs.reverse.find? test = ys.reverse.find? test

namespace Sorting

variable {lt : β → β → Bool}

/-- Members that are tied with each other are tied with the same things. -/
theorem WeakOrder.tied_eq (ho : WeakOrder lt) {a b : β} (hab : lt a b = false)
    (hba : lt b a = false) : tied lt a = tied lt b := by
  funext c
  have hleft : lt a c = lt b c := by
    rw [Bool.eq_iff_iff]
    exact ⟨ho.lt_of_le_of_lt hab, ho.lt_of_le_of_lt hba⟩
  have hright : lt c a = lt c b := by
    rw [Bool.eq_iff_iff]
    exact ⟨fun h => ho.lt_of_lt_of_le h hba, fun h => ho.lt_of_lt_of_le h hab⟩
  rw [tied, tied, hleft, hright]

/-- The first match in a stable sort is a least one, and of those tied with it the first in the
original list. -/
theorem StableSort.first_match (ho : WeakOrder lt) (h : StableSort lt xs zs) {test : β → Bool}
    {a : β} (ha : zs.find? test = some a) :
    (xs.filter (tied lt a)).find? test = some a ∧ ∀ x ∈ xs, test x → lt x a = false := by
  obtain ⟨hpass, before, after, rfl, hbefore⟩ := List.find?_eq_some_iff_append.mp ha
  constructor
  · have hself : tied lt a a = true := by simp [tied, ho.irrefl a]
    have hnone : (before.filter (tied lt a)).find? test = none := by
      refine List.find?_eq_none.mpr fun x hx => ?_
      simpa using hbefore x (List.mem_filter.mp hx).1
    rw [← h.ties a, List.filter_append, List.find?_append, hnone, List.filter_cons_of_pos hself,
      List.find?_cons_of_pos hpass, Option.none_or]
  · intro x hx htest
    have hmem := (h.perm ho).mem_iff.mpr hx
    rcases List.mem_append.mp hmem with hx | hx
    · have hfails := hbefore x hx
      simp [htest] at hfails
    · rcases List.mem_cons.mp hx with rfl | hx
      · exact ho.irrefl x
      · exact (List.pairwise_cons.mp (List.pairwise_append.mp h.sorted).2.1).1 x hx

/-- Search a stable sort of each of two lists in which every search finds the same. -/
theorem StableSort.not_lower_match (ho : WeakOrder lt) (hx : StableSort lt xs zs)
    (hy : StableSort lt ys ws) (h : ∀ test : β → Bool, xs.find? test = ys.find? test)
    {test : β → Bool} {a b : β} (ha : zs.find? test = some a) (hb : ws.find? test = some b) :
    lt b a = false := by
  by_contra hn
  have hlower : lt b a = true := by simpa using hn
  have hmem : b ∈ ys := (hy.perm ho).mem_iff.mp (List.mem_of_find?_eq_some hb)
  have hfound : (ys.find? fun y => test y && lt y a).isSome :=
    List.find?_isSome.mpr ⟨b, hmem, by simp [List.find?_some hb, hlower]⟩
  rw [← h] at hfound
  obtain ⟨x, hmemx, hxa⟩ := List.find?_isSome.mp hfound
  rw [Bool.and_eq_true] at hxa
  have := (hx.first_match ho ha).2 x hmemx hxa.1
  simp [hxa.2] at this

theorem StableSort.find?_eq (ho : WeakOrder lt) (hx : StableSort lt xs zs)
    (hy : StableSort lt ys ws) (h : ∀ test : β → Bool, xs.find? test = ys.find? test)
    (test : β → Bool) : zs.find? test = ws.find? test := by
  have hsome : (zs.find? test).isSome ↔ (ws.find? test).isSome := by
    have hxs : (zs.find? test).isSome ↔ (xs.find? test).isSome := by
      simp only [List.find?_isSome, (hx.perm ho).mem_iff]
    have hys : (ws.find? test).isSome ↔ (ys.find? test).isSome := by
      simp only [List.find?_isSome, (hy.perm ho).mem_iff]
    rw [hxs, hys, h]
  cases ha : zs.find? test with
  | none =>
    have hnone : ws.find? test = none := by simpa [ha] using hsome
    exact hnone.symm
  | some a =>
    obtain ⟨b, hb⟩ := Option.isSome_iff_exists.mp (hsome.mp (by simp [ha]))
    have hba := hx.not_lower_match ho hy h ha hb
    have hab := hy.not_lower_match ho hx (fun test => (h test).symm) hb ha
    -- The two are tied, so both are the first match among what is tied with either.
    have hfirst := (hx.first_match ho ha).1
    rw [List.find?_filter, h, ← List.find?_filter, ho.tied_eq hab hba,
      (hy.first_match ho hb).1] at hfirst
    rw [hb, hfirst]

end Sorting

namespace SameMatches

theorem refl (xs : List β) : SameMatches xs xs := ⟨fun _ => rfl, fun _ => rfl⟩

theorem append (h : SameMatches xs ys) (k : SameMatches zs ws) :
    SameMatches (xs ++ zs) (ys ++ ws) where
  front test := by rw [List.find?_append, List.find?_append, h.front, k.front]
  back test := by
    rw [List.reverse_append, List.reverse_append, List.find?_append, List.find?_append, h.back,
      k.back]

/-- A stretch may be repeated right after itself. -/
theorem twice (xs : List β) : SameMatches (xs ++ xs) xs where
  front test := by rw [List.find?_append, Option.or_self]
  back test := by rw [List.reverse_append, List.find?_append, Option.or_self]

theorem filterMap (f : β → Option γ) (h : SameMatches xs ys) :
    SameMatches (xs.filterMap f) (ys.filterMap f) where
  front test := by rw [List.find?_filterMap, List.find?_filterMap, h.front]
  back test := by
    rw [← List.filterMap_reverse, ← List.filterMap_reverse, List.find?_filterMap,
      List.find?_filterMap, h.back]

theorem map (f : β → γ) (h : SameMatches xs ys) : SameMatches (xs.map f) (ys.map f) := by
  rw [← List.filterMap_eq_map]
  exact h.filterMap _

theorem filter (keep : β → Bool) (h : SameMatches xs ys) :
    SameMatches (xs.filter keep) (ys.filter keep) := by
  rw [← List.filterMap_eq_filter]
  exact h.filterMap _

theorem sort {lt : β → β → Bool} (ho : Sorting.WeakOrder lt) (h : SameMatches xs ys) :
    SameMatches (Sorting.sort lt xs) (Sorting.sort lt ys) := by
  have hx := Sorting.sort_stable ho xs
  have hy := Sorting.sort_stable ho ys
  exact ⟨hx.find?_eq ho hy h.front, hx.reverse.find?_eq ho.flip hy.reverse h.back⟩

theorem head?_eq (h : SameMatches xs ys) : xs.head? = ys.head? := by
  have hhead (zs : List β) : zs.find? (fun _ => true) = zs.head? := by cases zs <;> rfl
  rw [← hhead, ← hhead, h.front]

theorem reverse (h : SameMatches xs ys) : SameMatches xs.reverse ys.reverse where
  front := h.back
  back test := by rw [List.reverse_reverse, List.reverse_reverse, h.front]

theorem getLast?_eq (h : SameMatches xs ys) : xs.getLast? = ys.getLast? := by
  rw [List.getLast?_eq_head?_reverse, List.getLast?_eq_head?_reverse, h.reverse.head?_eq]

end SameMatches

end CornerPoint
