import CornerPoint.Proofs.Provenance
import Mathlib.Data.Prod.Lex

/-!
Pairs of rows by their positions. Pairs come in the lexicographic order of positions, and a list
from which members were dropped has some of the pairs, in the same order. Whatever the arithmetic,
the crossings of a list of lines are what its pairs give one by one, so fewer lines never have a
crossing that more lines lack.
-/
namespace CornerPoint

section Pairs

variable {β γ : Type} {xs ys : List β}

theorem pairs_map (f : β → γ) (xs : List β) : pairs (xs.map f) = (pairs xs).map (Prod.map f f) := by
  induction xs with
  | nil => rfl
  | cons b xs ih =>
    rw [List.map_cons, pairs, pairs, ih, List.map_append, List.map_map, List.map_map]
    rfl

theorem pairs_sublist (h : xs.Sublist ys) : (pairs xs).Sublist (pairs ys) := by
  induction h with
  | slnil => exact List.Sublist.refl _
  | cons b _ ih =>
    rw [pairs]
    exact ih.trans (List.sublist_append_right ..)
  | cons_cons b h ih =>
    rw [pairs, pairs]
    exact (h.map _).append ih

/-- Pairs are in lexicographic order if the members are in order. -/
theorem pairs_pairwise {key : β → ℕ} (h : xs.Pairwise fun a b => key a < key b) :
    (pairs xs).Pairwise fun a b => toLex (key a.1, key a.2) < toLex (key b.1, key b.2) := by
  induction xs with
  | nil => exact List.Pairwise.nil
  | cons b xs ih =>
    obtain ⟨hb, hxs⟩ := List.pairwise_cons.mp h
    rw [pairs]
    refine List.pairwise_append.mpr ⟨?_, ih hxs, ?_⟩
    · refine List.pairwise_map.mpr (hxs.imp ?_)
      intro c d hcd
      exact Prod.Lex.toLex_lt_toLex.mpr (Or.inr ⟨rfl, hcd⟩)
    · rintro ⟨c, d⟩ hcd ⟨c', d'⟩ hcd'
      obtain ⟨e, -, he⟩ := List.mem_map.mp hcd
      obtain ⟨rfl, rfl⟩ := Prod.mk.inj he
      obtain ⟨i, -, -, hi, -⟩ := mem_pairs_iff.mp hcd'
      exact Prod.Lex.toLex_lt_toLex.mpr (Or.inl (hb c' (List.mem_of_getElem? hi)))

theorem zipIdx_pairwise (xs : List β) : xs.zipIdx.Pairwise fun a b => a.2 < b.2 := by
  refine List.pairwise_iff_getElem.mpr ?_
  intro i j hi hj hij
  simpa using hij

/-- A pair of members together with their positions. -/
theorem mem_pairs_zipIdx {a b : β} {i j : ℕ} :
    ((a, i), (b, j)) ∈ pairs xs.zipIdx ↔ i < j ∧ xs[i]? = some a ∧ xs[j]? = some b := by
  rw [mem_pairs_iff]
  simp only [List.getElem?_zipIdx, Option.map_eq_some_iff, Prod.mk.injEq, Nat.zero_add]
  constructor
  · rintro ⟨i', j', hij, ⟨a', ha, rfl, rfl⟩, b', hb, rfl, rfl⟩
    exact ⟨hij, ha, hb⟩
  · rintro ⟨hij, ha, hb⟩
    exact ⟨i, j, hij, ⟨a, ha, rfl, rfl⟩, b, hb, rfl, rfl⟩

end Pairs

namespace Line

variable {α : Type} [Scalar α] {eps : α} {lines others : List (Line α)}
  {points more : List (Point α)}

/-- Where two lines cross, if they do. -/
def crossing? (eps : α) (l m : Line α) : Option (Point α) := (crossing eps l m).toOption.join

theorem crossing?_eq_some {l m : Line α} {q : Point α} :
    crossing? eps l m = some q ↔ crossing eps l m = .ok (some q) := by
  unfold crossing?
  cases crossing eps l m with
  | error fault => simp [Except.toOption]
  | ok found => simp [Except.toOption]

theorem crossings_eq_filterMap (h : crossings eps lines = .ok points) :
    points = (pairs lines).filterMap fun pair => crossing? eps pair.1 pair.2 := by
  unfold crossings at h
  cases hall : (pairs lines).mapM fun pair => crossing eps pair.1 pair.2 with
  | error fault => simp [hall, Except.map] at h
  | ok found =>
    obtain rfl : found.filterMap id = points := by simpa [hall, Except.map] using h
    exact filterMap_of_mapM hall

theorem crossings_sublist (hsub : lines.Sublist others) (h : crossings eps lines = .ok points)
    (h' : crossings eps others = .ok more) : points.Sublist more := by
  rw [crossings_eq_filterMap h, crossings_eq_filterMap h']
  exact (pairs_sublist hsub).filterMap _

end Line

end CornerPoint
