import CornerPoint.Proofs.Sorting.Naturality
import CornerPoint.Proofs.Sorting.Stable

/-!
What stands at either end of a sorted list: the first of the least members, and the last of the
greatest. The comparison has to be a weak order on the members at hand, and it may say anything
about others.
-/
namespace CornerPoint.Sorting

variable {β γ : Type} {lt : β → β → Bool} {xs ys : List β} {a : β}

/-- Nothing before `a` is as low as `a`, and nothing after it is lower. -/
def FirstLeast (lt : β → β → Bool) (xs : List β) (a : β) : Prop :=
  ∃ before after, xs = before ++ a :: after ∧ (∀ x ∈ before, lt a x) ∧ ∀ x ∈ after, lt x a = false

theorem StableSort.firstLeast (ho : WeakOrder lt) (h : StableSort lt xs ys)
    (ha : ys.head? = some a) : FirstLeast lt xs a := by
  have hle : ∀ x ∈ xs, lt x a = false := by
    intro x hx
    exact h.sorted.head_le ho ha x ((h.perm ho).mem_iff.mpr hx)
  obtain ⟨rest, rfl⟩ := List.head?_eq_some_iff.mp ha
  have hself : tied lt a a = true := by simp [tied, ho.irrefl a]
  -- Among the members that are tied with `a` the sort has changed nothing.
  have hties := h.ties a
  rw [List.filter_cons_of_pos hself] at hties
  obtain ⟨before, after, rfl, hbefore, -, -⟩ := List.filter_eq_cons_iff.mp hties.symm
  refine ⟨before, after, rfl, ?_, ?_⟩
  · intro x hx
    have hnot := hbefore x hx
    simpa [tied, hle x (List.mem_append_left _ hx)] using hnot
  · intro x hx
    exact hle x (List.mem_append_right _ (List.mem_cons_of_mem a hx))

theorem FirstLeast.map {f : γ → β} {cs : List γ} {c : γ}
    (h : FirstLeast (fun a b => lt (f a) (f b)) cs c) : FirstLeast lt (cs.map f) (f c) := by
  obtain ⟨before, after, rfl, hbefore, hafter⟩ := h
  refine ⟨before.map f, after.map f, by rw [List.map_append, List.map_cons], ?_, ?_⟩
  · intro x hx
    obtain ⟨y, hy, rfl⟩ := List.mem_map.mp hx
    exact hbefore y hy
  · intro x hx
    obtain ⟨y, hy, rfl⟩ := List.mem_map.mp hx
    exact hafter y hy

/-- The comparison is a weak order as far as the members of the list go. -/
def WeakOrderOn (lt : β → β → Bool) (xs : List β) : Prop :=
  WeakOrder fun a b : { x // x ∈ xs } => lt a b

theorem sort_eq_map_attach (lt : β → β → Bool) (xs : List β) :
    sort lt xs = (sort (fun a b : { x // x ∈ xs } => lt a b) xs.attach).map Subtype.val := by
  rw [← sort_map, List.attach_map_subtype_val]

theorem firstLeast_of_head? (ho : WeakOrderOn lt xs) (ha : (sort lt xs).head? = some a) :
    FirstLeast lt xs a := by
  rw [sort_eq_map_attach, List.head?_map, Option.map_eq_some_iff] at ha
  obtain ⟨c, hc, rfl⟩ := ha
  have hfirst : FirstLeast lt (xs.attach.map Subtype.val) c.val :=
    ((sort_stable ho xs.attach).firstLeast ho hc).map
  rwa [List.attach_map_subtype_val] at hfirst

/-- The last of the greatest is the first of the least, read from the other end. -/
theorem firstLeast_of_getLast? (ho : WeakOrderOn lt xs) (ha : (sort lt xs).getLast? = some a) :
    FirstLeast (flipped lt) xs.reverse a := by
  rw [sort_eq_map_attach, List.getLast?_map, Option.map_eq_some_iff] at ha
  obtain ⟨c, hc, rfl⟩ := ha
  rw [List.getLast?_eq_head?_reverse] at hc
  have hfirst : FirstLeast (fun a b : { x // x ∈ xs } => flipped lt a b) xs.attach.reverse c :=
    (sort_stable ho xs.attach).reverse.firstLeast ho.flip hc
  have hlast := hfirst.map
  rwa [List.map_reverse, List.attach_map_subtype_val] at hlast

/-- Where the members come from a list of sources in order, the first of the least members has the
earliest source of all that are tied with it. -/
theorem FirstLeast.exists_source {σ : Type} {sources : List σ} {R : σ → σ → Prop}
    {g : σ → Option β} (hR : sources.Pairwise R) (h : FirstLeast lt (sources.filterMap g) a) :
    ∃ s ∈ sources, g s = some a ∧ ∀ t ∈ sources, ∀ x, g t = some x →
      t = s ∨ lt a x ∨ lt x a = false ∧ R s t := by
  obtain ⟨before, after, hsplit, hbefore, hafter⟩ := h
  obtain ⟨front, back, rfl, hfront, hback⟩ := List.filterMap_eq_append_iff.mp hsplit
  obtain ⟨skipped, s, rest, rfl, hskipped, hs, hrest⟩ := List.filterMap_eq_cons_iff.mp hback
  have hlater : ∀ t ∈ rest, R s t :=
    (List.pairwise_cons.mp (List.pairwise_append.mp (List.pairwise_append.mp hR).2.1).2.1).1
  refine ⟨s, by simp, hs, ?_⟩
  intro t ht x hx
  simp only [List.mem_append, List.mem_cons] at ht
  rcases ht with ht | ht | rfl | ht
  · have hlow : lt a x := hbefore x (hfront ▸ List.mem_filterMap.mpr ⟨t, ht, hx⟩)
    exact Or.inr (Or.inl hlow)
  · cases (hskipped t ht).symm.trans hx
  · exact Or.inl rfl
  · have hle : lt x a = false := hafter x (hrest ▸ List.mem_filterMap.mpr ⟨t, ht, hx⟩)
    exact Or.inr (Or.inr ⟨hle, hlater t ht⟩)

end CornerPoint.Sorting
