import CornerPoint.Proofs.Hull.Turn
import Mathlib.Data.List.Triplewise

/-!
One chain of the hull. Whatever the arithmetic, it runs from the first point to the last. Over exact
numbers and points in order, any three members of it make a left turn, for any tolerance, and every
point that comes after two members lies on their left.
-/
namespace CornerPoint.Hull

section AnyScalar

variable {α : Type} [Scalar α] {eps : α} {p : Point α} {back points : List (Point α)}

theorem retreat_eq_nil : retreat eps p back = [] ↔ back = [] := by
  fun_induction retreat eps p back with
  | case1 a o rest hturn ih => simp [ih]
  | case2 a o rest hturn => simp
  | case3 short hshort => rfl

theorem retreat_getLast? : (retreat eps p back).getLast? = back.getLast? := by
  fun_induction retreat eps p back with
  | case1 a o rest hturn ih => rw [ih, List.getLast?_cons_cons]
  | case2 a o rest hturn => rfl
  | case3 short hshort => rfl

theorem retreat_stops {a o : Point α} {rest : List (Point α)}
    (h : retreat eps p back = a :: o :: rest) : ¬Point.cross o a p ≤ eps := by
  fun_induction retreat eps p back with
  | case1 b q rest' hturn ih => exact ih h
  | case2 b q rest' hturn =>
    obtain ⟨rfl, rfl, rfl⟩ : b = a ∧ q = o ∧ rest' = rest := by simpa using h
    exact hturn
  | case3 short hshort => exact (hshort _ _ _ h).elim

theorem retreat_retreat : retreat eps p (retreat eps p back) = retreat eps p back := by
  fun_induction retreat eps p back with
  | case1 a o rest hturn ih => exact ih
  | case2 a o rest hturn => rw [retreat, if_neg hturn]
  | case3 short hshort =>
    rw [retreat]
    exact hshort

/-- What holds at the start and is kept by every point that is added holds of the whole chain. -/
theorem chain_induction {motive : List (Point α) → List (Point α) → Prop} (start : motive [] [])
    (add : ∀ seen p back, seen ++ [p] <+: points → motive seen back →
      motive (seen ++ [p]) (p :: retreat eps p back)) :
    motive points (chain eps points).reverse := by
  have hfold : ∀ rest seen back : List (Point α), seen ++ rest = points → motive seen back →
      motive points (rest.foldl (fun back p => p :: retreat eps p back) back) := by
    intro rest
    induction rest with
    | nil =>
      intro seen back hsplit h
      obtain rfl : seen = points := by simpa using hsplit
      exact h
    | cons p rest ih =>
      intro seen back hsplit h
      have hsplit' : (seen ++ [p]) ++ rest = points := by simpa using hsplit
      exact ih _ _ hsplit' (add seen p back ⟨rest, hsplit'⟩ h)
  rw [chain, List.reverse_reverse]
  exact hfold points [] [] rfl start

theorem chain_ends :
    (chain eps points).head? = points.head? ∧ (chain eps points).getLast? = points.getLast? := by
  have hends : (chain eps points).reverse.getLast? = points.head? ∧
      (chain eps points).reverse.head? = points.getLast? := by
    refine chain_induction (motive := fun seen back =>
      back.getLast? = seen.head? ∧ back.head? = seen.getLast?) ⟨rfl, rfl⟩ ?_
    rintro seen p back - ⟨hlast, -⟩
    constructor
    · rw [List.getLast?_cons, retreat_getLast?, hlast, List.head?_append]
      cases seen.head? <;> rfl
    · rw [List.head?_cons, List.getLast?_concat]
  rwa [List.getLast?_reverse, List.head?_reverse] at hends

theorem two_le_length_chain (h : 2 ≤ points.length) : 2 ≤ (chain eps points).length := by
  have hlength : min 2 points.length ≤ (chain eps points).reverse.length := by
    refine chain_induction (motive := fun seen back => min 2 seen.length ≤ back.length) ?_ ?_
    · rfl
    · intro seen p back _ hback
      cases hr : retreat eps p back with
      | nil =>
        rw [retreat_eq_nil.mp hr] at hback
        simp only [List.length_append, List.length_cons, List.length_nil] at hback ⊢
        omega
      | cons q rest =>
        simp only [List.length_cons]
        omega
  rw [List.length_reverse] at hlength
  omega

end AnyScalar

variable {eps : ℚ} {p : Point ℚ} {seen back points : List (Point ℚ)}

/-- If the last two members of a chain without right turns turn left to `p`, so do any two. -/
theorem pairwise_cross_of_last (hordered : back.Pairwise fun b a => Point.before a b)
    (hconvex : back.Triplewise fun b a o => 0 < Point.cross o a b)
    (hp : ∀ q ∈ back, Point.before q p)
    (hlast : ∀ a o rest, back = a :: o :: rest → 0 < Point.cross o a p) :
    back.Pairwise fun a o => 0 < Point.cross o a p := by
  induction back with
  | nil => exact List.Pairwise.nil
  | cons a rest ih =>
    obtain ⟨ha, hordered⟩ := List.pairwise_cons.mp hordered
    obtain ⟨haconvex, hconvex⟩ := List.triplewise_cons.mp hconvex
    obtain ⟨hap, hp⟩ := List.forall_mem_cons.mp hp
    cases rest with
    | nil => exact List.pairwise_singleton _ _
    | cons o rest =>
      have hturn : 0 < Point.cross o a p := hlast a o rest rfl
      obtain ⟨ho, -⟩ := List.pairwise_cons.mp hordered
      -- An earlier member sees `o`, `a` and `p` in two left turns.
      have hearlier : ∀ q ∈ rest, 0 < Point.cross q o p ∧ 0 < Point.cross q a p := by
        intro q hq
        exact Point.cross_pos_of_consecutive (ho q hq) (ha o (List.mem_cons_self ..)) hap
          ((List.pairwise_cons.mp haconvex).1 q hq) hturn
      refine List.pairwise_cons.mpr ⟨?_, ih hordered hconvex hp ?_⟩
      · exact List.forall_mem_cons.mpr ⟨hturn, fun q hq => (hearlier q hq).2⟩
      · rintro _ q _ he
        obtain ⟨rfl, rfl⟩ := List.cons.inj he
        exact (hearlier q (List.mem_cons_self ..)).1

/-- The state of a scan: the points seen so far, and the chain over them, latest first. -/
structure Scan (seen back : List (Point ℚ)) : Prop where
  kept : ∀ q ∈ back, q ∈ seen
  ordered : back.Pairwise fun b a => Point.before a b
  left : ∀ s ∈ seen, back.Pairwise fun b a => Point.before b s → 0 < Point.cross a b s

theorem Scan.convex (h : Scan seen back) :
    back.Triplewise fun b a o => 0 < Point.cross o a b := by
  have hall : ∀ l : List (Point ℚ), l.Sublist back →
      l.Triplewise fun b a o => 0 < Point.cross o a b := by
    intro l
    induction l with
    | nil =>
      intro _
      exact .nil
    | cons c l ih =>
      intro hl
      have htail : l.Sublist back := (List.sublist_cons_self c l).trans hl
      have hc : c ∈ seen := h.kept c (hl.mem (List.mem_cons_self ..))
      have hbefore : ∀ b ∈ l, Point.before b c := (List.pairwise_cons.mp (h.ordered.sublist hl)).1
      refine .cons (((h.left c hc).sublist htail).imp_of_mem ?_) (ih htail)
      intro b a hb _ hturn
      exact hturn (hbefore b hb)
  exact hall back (List.Sublist.refl back)

theorem Scan.add (heps : 0 ≤ eps) (h : Scan seen back) (hp : ∀ q ∈ seen, Point.before q p) :
    Scan (seen ++ [p]) (p :: retreat eps p back) := by
  have hsub : (retreat eps p back).Sublist back := (retreat_suffix eps p back).sublist
  have hrest : Scan seen (retreat eps p back) :=
    ⟨fun q hq => h.kept q (hsub.mem hq), h.ordered.sublist hsub,
      fun s hs => (h.left s hs).sublist hsub⟩
  have hbefore : ∀ q ∈ retreat eps p back, Point.before q p := fun q hq => hp q (hrest.kept q hq)
  refine ⟨?_, List.pairwise_cons.mpr ⟨hbefore, hrest.ordered⟩, ?_⟩
  · intro q hq
    rcases List.mem_cons.mp hq with rfl | hq
    · exact List.mem_append_right _ (List.mem_singleton_self _)
    · exact List.mem_append_left _ (hrest.kept q hq)
  · intro s hs
    -- No point seen so far comes after `p`, so only the pairs without `p` matter.
    have hlate : ¬Point.before p s := by
      intro hps
      rcases List.mem_append.mp hs with hs | hs
      · exact Point.not_before_of_before (hp s hs) hps
      · obtain rfl := List.mem_singleton.mp hs
        exact Point.not_before_self s hps
    refine List.pairwise_cons.mpr ⟨fun a _ hps => (hlate hps).elim, ?_⟩
    rcases List.mem_append.mp hs with hs | hs
    · exact hrest.left s hs
    · obtain rfl := List.mem_singleton.mp hs
      have hlast : ∀ a o rest, retreat eps s back = a :: o :: rest → 0 < Point.cross o a s :=
        fun a o rest he => heps.trans_lt (not_le.mp (retreat_stops he))
      have hturns := pairwise_cross_of_last hrest.ordered hrest.convex hbefore hlast
      refine hturns.imp ?_
      intro b a hturn _
      exact hturn

theorem scan_chain (heps : 0 ≤ eps) (hsorted : points.Pairwise fun p q => Point.before p q) :
    Scan points (chain eps points).reverse := by
  refine chain_induction (motive := Scan) ⟨by simp, List.Pairwise.nil, by simp⟩ ?_
  intro seen p back hprefix h
  refine h.add heps ?_
  have hpart := hsorted.sublist hprefix.sublist
  intro q hq
  exact (List.pairwise_append.mp hpart).2.2 q hq p (List.mem_singleton_self p)

theorem chain_convex (heps : 0 ≤ eps) (hsorted : points.Pairwise fun p q => Point.before p q) :
    (chain eps points).Triplewise fun a b c => 0 < Point.cross a b c := by
  have h := (scan_chain heps hsorted).convex
  rwa [List.triplewise_reverse] at h

/-- Every point after two members of the chain lies on their left, also if it was dropped. -/
theorem chain_left (heps : 0 ≤ eps) (hsorted : points.Pairwise fun p q => Point.before p q)
    {s : Point ℚ} (hs : s ∈ points) :
    (chain eps points).Pairwise fun a b => Point.before b s → 0 < Point.cross a b s := by
  have h := (scan_chain heps hsorted).left s hs
  rwa [List.pairwise_reverse] at h

section Opposite

theorem retreat_opposite (eps : ℚ) (p : Point ℚ) (back : List (Point ℚ)) :
    retreat eps p.opposite (back.map Point.opposite) =
      (retreat eps p back).map Point.opposite := by
  fun_induction retreat eps p back with
  | case1 a o rest hturn ih =>
    rw [List.map_cons, List.map_cons, retreat, Point.cross_opposite, if_pos hturn]
    exact ih
  | case2 a o rest hturn =>
    rw [List.map_cons, List.map_cons, retreat, Point.cross_opposite, if_neg hturn]
  | case3 short hshort =>
    rw [retreat]
    intro a o rest he
    obtain ⟨a', l, rfl, -, hl⟩ := List.map_eq_cons_iff.mp he
    obtain ⟨o', l', rfl, -, -⟩ := List.map_eq_cons_iff.mp hl
    exact hshort a' o' l' rfl

theorem chain_opposite (eps : ℚ) (points : List (Point ℚ)) :
    chain eps (points.map Point.opposite) = (chain eps points).map Point.opposite := by
  have hfold : ∀ rest back : List (Point ℚ),
      (rest.map Point.opposite).foldl (fun back p => p :: retreat eps p back)
          (back.map Point.opposite) =
        (rest.foldl (fun back p => p :: retreat eps p back) back).map Point.opposite := by
    intro rest
    induction rest with
    | nil =>
      intro back
      rfl
    | cons p rest ih =>
      intro back
      rw [List.map_cons, List.foldl_cons, List.foldl_cons, retreat_opposite]
      exact ih (p :: retreat eps p back)
  rw [chain, chain, List.map_reverse]
  exact congrArg List.reverse (hfold points [])

theorem pairwise_map_opposite (hsorted : points.Pairwise fun p q => Point.before p q) :
    (points.reverse.map Point.opposite).Pairwise fun p q => Point.before p q := by
  rw [List.pairwise_map, List.pairwise_reverse]
  exact hsorted.imp fun h => by rwa [Point.before_opposite]

/-- The chain back, from right to left, is convex as well. -/
theorem chain_reverse_convex (heps : 0 ≤ eps)
    (hsorted : points.Pairwise fun p q => Point.before p q) :
    (chain eps points.reverse).Triplewise fun a b c => 0 < Point.cross a b c := by
  have h := chain_convex heps (pairwise_map_opposite hsorted)
  rw [chain_opposite, List.triplewise_map] at h
  exact h.imp fun h => by rwa [Point.cross_opposite] at h

theorem chain_reverse_left (heps : 0 ≤ eps)
    (hsorted : points.Pairwise fun p q => Point.before p q) {s : Point ℚ} (hs : s ∈ points) :
    (chain eps points.reverse).Pairwise fun a b =>
      Point.before s b → 0 < Point.cross a b s := by
  have hs' : s.opposite ∈ points.reverse.map Point.opposite :=
    List.mem_map_of_mem (List.mem_reverse.mpr hs)
  have h := chain_left heps (pairwise_map_opposite hsorted) hs'
  rw [chain_opposite, List.pairwise_map] at h
  exact h.imp fun h => by rwa [Point.before_opposite, Point.cross_opposite] at h

end Opposite

end CornerPoint.Hull
