import CornerPoint.Proofs.Hull.Repetition

/-!
The two chains of the hull joined to a ring. One chain lies below the line from the leftmost to the
rightmost point and the other one above it, so they share no other point, and the turns at the two
joints are left turns too. This needs no more of the tolerance than that it is not negative.
-/
namespace CornerPoint.Hull

/-- What holds of every three neighbours on a ring, on which the first member follows the last. -/
def Corners (ring : List (Point ℚ)) (R : Point ℚ → Point ℚ → Point ℚ → Prop) : Prop :=
  ∀ i a b c, ring[i]? = some a → ring[(i + 1) % ring.length]? = some b →
    ring[(i + 2) % ring.length]? = some c → R a b c

/-- The hull taken apart: its leftmost point `m`, its rightmost point `n`, and what the chains have
between them. -/
structure Ring (eps : ℚ) (points : List (Point ℚ)) (m n : Point ℚ)
    (lower upper : List (Point ℚ)) : Prop where
  forth : chain eps (ordered points) = m :: (lower ++ [n])
  back : chain eps (ordered points).reverse = n :: (upper ++ [m])
  hull_eq : hull eps points = m :: lower ++ n :: upper

section Ends

variable {l : List (Point ℚ)} {m n : Point ℚ}

theorem eq_or_before_of_head? (hsorted : l.Pairwise fun p q => Point.before p q)
    (h : l.head? = some m) {s : Point ℚ} (hs : s ∈ l) : s = m ∨ Point.before m s := by
  cases l with
  | nil => simp at hs
  | cons a l =>
    obtain rfl : a = m := by simpa using h
    rcases List.mem_cons.mp hs with rfl | hs
    · exact Or.inl rfl
    · exact Or.inr ((List.pairwise_cons.mp hsorted).1 s hs)

theorem eq_or_before_of_getLast? (hsorted : l.Pairwise fun p q => Point.before p q)
    (h : l.getLast? = some n) {s : Point ℚ} (hs : s ∈ l) : s = n ∨ Point.before s n := by
  obtain ⟨l, rfl⟩ := List.getLast?_eq_some_iff.mp h
  rcases List.mem_append.mp hs with hs | hs
  · exact Or.inr ((List.pairwise_append.mp hsorted).2.2 s hs n (List.mem_singleton_self n))
  · exact Or.inl (List.mem_singleton.mp hs)

theorem exists_between (hm : l.head? = some m) (hn : l.getLast? = some n) (hne : m ≠ n) :
    ∃ middle, l = m :: (middle ++ [n]) := by
  obtain ⟨front, rfl⟩ := List.getLast?_eq_some_iff.mp hn
  cases front with
  | nil => exact (hne (by simpa using hm.symm)).elim
  | cons a middle =>
    obtain rfl : a = m := by simpa using hm
    exact ⟨middle, rfl⟩

end Ends

variable {eps : ℚ} {points : List (Point ℚ)} {m n : Point ℚ} {lower upper : List (Point ℚ)}

theorem exists_ring (heps : 0 ≤ eps) (h : Varied points) :
    ∃ m n lower upper, Ring eps points m n lower upper := by
  have hne : ordered points ≠ [] := by
    obtain ⟨p, hp, -⟩ := h
    exact List.ne_nil_of_mem (mem_ordered.mpr hp)
  obtain ⟨m, hm⟩ : ∃ m, (ordered points).head? = some m := ⟨_, List.head?_eq_some_head hne⟩
  obtain ⟨n, hn⟩ : ∃ n, (ordered points).getLast? = some n :=
    ⟨_, List.getLast?_eq_some_getLast hne⟩
  have hmn : m ≠ n := by
    rintro rfl
    obtain ⟨q, hq, hqm⟩ := h.exists_ne m
    have hq' := mem_ordered.mpr hq
    have hleft := (eq_or_before_of_head? (ordered_pairwise points) hm hq').resolve_left hqm
    have hright := (eq_or_before_of_getLast? (ordered_pairwise points) hn hq').resolve_left hqm
    exact Point.not_before_of_before hleft hright
  obtain ⟨lower, hlower⟩ : ∃ lower, chain eps (ordered points) = m :: (lower ++ [n]) :=
    exists_between (chain_ends.1.trans hm) (chain_ends.2.trans hn) hmn
  obtain ⟨upper, hupper⟩ : ∃ upper, chain eps (ordered points).reverse = n :: (upper ++ [m]) :=
    exists_between (chain_ends.1.trans (List.head?_reverse.trans hn))
      (chain_ends.2.trans (List.getLast?_reverse.trans hm)) hmn.symm
  refine ⟨m, n, lower, upper, hlower, hupper, ?_⟩
  rw [hull_eq_chains heps h, hlower, hupper, ← List.cons_append, ← List.cons_append,
    List.dropLast_concat, List.dropLast_concat]

namespace Ring

theorem ordered_forth (h : Ring eps points m n lower upper) :
    (m :: (lower ++ [n])).Pairwise fun p q => Point.before p q := by
  rw [← h.forth]
  exact (ordered_pairwise points).sublist (chain_sublist eps _)

theorem ordered_back (h : Ring eps points m n lower upper) :
    (n :: (upper ++ [m])).Pairwise fun p q => Point.before q p := by
  rw [← h.back]
  exact (List.pairwise_reverse.mpr (ordered_pairwise points)).sublist (chain_sublist eps _)

theorem first (h : Ring eps points m n lower upper) {s : Point ℚ} (hs : s ∈ points) :
    s = m ∨ Point.before m s := by
  have hhead : (chain eps (ordered points)).head? = (ordered points).head? := chain_ends.1
  rw [h.forth] at hhead
  exact eq_or_before_of_head? (ordered_pairwise points) hhead.symm (mem_ordered.mpr hs)

theorem last (h : Ring eps points m n lower upper) {s : Point ℚ} (hs : s ∈ points) :
    s = n ∨ Point.before s n := by
  have hhead : (chain eps (ordered points).reverse).head? = (ordered points).reverse.head? :=
    chain_ends.1
  rw [h.back, List.head?_reverse] at hhead
  exact eq_or_before_of_getLast? (ordered_pairwise points) hhead.symm (mem_ordered.mpr hs)

theorem mem_points (h : Ring eps points m n lower upper) :
    ∀ s ∈ m :: lower ++ n :: upper, s ∈ points := by
  rw [← h.hull_eq]
  exact fun s hs => mem_of_mem_hull hs

end Ring

/-- Two members of one chain see every member of the other on their left. -/
theorem pairwise_cross_of_beyond
    (hordered : (m :: (lower ++ [n])).Pairwise fun p q => Point.before p q)
    (hconvex : (m :: (lower ++ [n])).Triplewise fun a b c => 0 < Point.cross a b c)
    (hupper : ∀ u ∈ upper, Point.before m u ∧ Point.before u n ∧ 0 < Point.cross m n u) :
    ∀ u ∈ n :: upper, (m :: lower).Pairwise fun a b => 0 < Point.cross a b u := by
  have hfirst : (m :: lower).Pairwise fun a b => 0 ≤ Point.cross m a b := by
    have hrest := (List.pairwise_append.mp (List.triplewise_cons.mp hconvex).1).1
    refine List.pairwise_cons.mpr ⟨fun b _ => ?_, hrest.imp fun h => h.le⟩
    rw [Point.cross_self_left]
  rw [← List.cons_append] at hordered hconvex
  obtain ⟨hpairs, -, hend⟩ := List.pairwise_append.mp hordered
  have hlast : (m :: lower).Pairwise fun a b => 0 < Point.cross a b n :=
    (List.triplewise_append.mp hconvex).2.2.2 n (List.mem_singleton_self n)
  have hmn : Point.before m n := hend m (List.mem_cons_self ..) n (List.mem_singleton_self n)
  intro u hu
  rcases List.mem_cons.mp hu with rfl | hu
  · exact hlast
  · obtain ⟨hmu, hun, habove⟩ := hupper u hu
    refine ((hpairs.and hfirst).and hlast).imp ?_
    rintro a b ⟨⟨hab, hma⟩, hbn⟩
    exact Point.cross_pos_of_beyond hab hmn hmu hun hma hbn habove

namespace Ring

theorem convex_forth (h : Ring eps points m n lower upper) (heps : 0 ≤ eps) :
    (m :: (lower ++ [n])).Triplewise fun a b c => 0 < Point.cross a b c :=
  h.forth ▸ chain_convex heps (ordered_pairwise points)

theorem convex_back (h : Ring eps points m n lower upper) (heps : 0 ≤ eps) :
    (n :: (upper ++ [m])).Triplewise fun a b c => 0 < Point.cross a b c :=
  h.back ▸ chain_reverse_convex heps (ordered_pairwise points)

/-- What one chain has between the ends lies between them and on the left of the line back. -/
theorem beyond_forth (h : Ring eps points m n lower upper) (heps : 0 ≤ eps) :
    ∀ u ∈ upper, Point.before m u ∧ Point.before u n ∧ 0 < Point.cross m n u := by
  intro u hu
  obtain ⟨hn, hrest⟩ := List.pairwise_cons.mp h.ordered_back
  have hturns := (List.triplewise_cons.mp (h.convex_back heps)).1
  refine ⟨(List.pairwise_append.mp hrest).2.2 u hu m (List.mem_singleton_self m),
    hn u (List.mem_append_left _ hu), ?_⟩
  rw [← Point.cross_rotate]
  exact (List.pairwise_append.mp hturns).2.2 u hu m (List.mem_singleton_self m)

theorem beyond_back (h : Ring eps points m n lower upper) (heps : 0 ≤ eps) :
    ∀ u ∈ lower, Point.before m u ∧ Point.before u n ∧ 0 < Point.cross n m u := by
  intro u hu
  obtain ⟨hm, hrest⟩ := List.pairwise_cons.mp h.ordered_forth
  have hturns := (List.triplewise_cons.mp (h.convex_forth heps)).1
  refine ⟨hm u (List.mem_append_left _ hu),
    (List.pairwise_append.mp hrest).2.2 u hu n (List.mem_singleton_self n), ?_⟩
  rw [← Point.cross_rotate]
  exact (List.pairwise_append.mp hturns).2.2 u hu n (List.mem_singleton_self n)

theorem left_forth (h : Ring eps points m n lower upper) (heps : 0 ≤ eps) :
    ∀ u ∈ n :: upper, (m :: lower).Pairwise fun a b => 0 < Point.cross a b u :=
  pairwise_cross_of_beyond h.ordered_forth (h.convex_forth heps) (h.beyond_forth heps)

/-- The same of the chain back, after a half-turn of the plane. -/
theorem left_back (h : Ring eps points m n lower upper) (heps : 0 ≤ eps) :
    ∀ u ∈ m :: lower, (n :: upper).Pairwise fun a b => 0 < Point.cross a b u := by
  have hmap : n.opposite :: (upper.map Point.opposite ++ [m.opposite]) =
      (n :: (upper ++ [m])).map Point.opposite := by
    simp
  have hordered : (n.opposite :: (upper.map Point.opposite ++ [m.opposite])).Pairwise
      fun p q => Point.before p q := by
    rw [hmap, List.pairwise_map]
    exact h.ordered_back.imp fun h => by rwa [Point.before_opposite]
  have hconvex : (n.opposite :: (upper.map Point.opposite ++ [m.opposite])).Triplewise
      fun a b c => 0 < Point.cross a b c := by
    rw [hmap, List.triplewise_map]
    exact (h.convex_back heps).imp fun h => by rwa [Point.cross_opposite]
  have hlower : ∀ u ∈ lower.map Point.opposite, Point.before n.opposite u ∧
      Point.before u m.opposite ∧ 0 < Point.cross n.opposite m.opposite u := by
    intro _ hmem
    obtain ⟨u, hu, rfl⟩ := List.mem_map.mp hmem
    obtain ⟨hmu, hun, hturn⟩ := h.beyond_back heps u hu
    rw [Point.before_opposite, Point.before_opposite, Point.cross_opposite]
    exact ⟨hun, hmu, hturn⟩
  intro u hu
  have hmem : u.opposite ∈ m.opposite :: lower.map Point.opposite := by
    rw [← List.map_cons]
    exact List.mem_map_of_mem hu
  have hall := pairwise_cross_of_beyond hordered hconvex hlower u.opposite hmem
  rw [← List.map_cons, List.pairwise_map] at hall
  exact hall.imp fun h => by rwa [Point.cross_opposite] at h

/-- Any three members of the ring, in order, make a left turn. -/
theorem convex (h : Ring eps points m n lower upper) (heps : 0 ≤ eps) :
    (m :: lower ++ n :: upper).Triplewise fun a b c => 0 < Point.cross a b c := by
  have hforth := h.convex_forth heps
  have hback := h.convex_back heps
  rw [← List.cons_append] at hforth hback
  refine List.triplewise_append.mpr ⟨(List.triplewise_append.mp hforth).1,
    (List.triplewise_append.mp hback).1, ?_, h.left_forth heps⟩
  intro a ha
  exact (h.left_back heps a ha).imp fun hturn => by rwa [Point.cross_rotate] at hturn

theorem nodup (h : Ring eps points m n lower upper) (heps : 0 ≤ eps) :
    (m :: lower ++ n :: upper).Nodup := by
  have hforth : (m :: lower).Nodup := by
    have hpairs := h.ordered_forth
    rw [← List.cons_append] at hpairs
    refine (List.pairwise_append.mp hpairs).1.imp ?_
    rintro a _ hab rfl
    exact Point.not_before_self a hab
  have hback : (n :: upper).Nodup := by
    have hpairs := h.ordered_back
    rw [← List.cons_append] at hpairs
    refine (List.pairwise_append.mp hpairs).1.imp ?_
    rintro a _ hab rfl
    exact Point.not_before_self a hab
  refine List.nodup_append.mpr ⟨hforth, hback, ?_⟩
  rintro a ha _ hu rfl
  rcases List.mem_cons.mp ha with rfl | ha
  · -- The leftmost point comes before all of the chain back.
    have hpairs := h.ordered_back
    rw [← List.cons_append] at hpairs
    exact Point.not_before_self a
      ((List.pairwise_append.mp hpairs).2.2 a hu a (List.mem_singleton_self a))
  · have hturn := (List.pairwise_cons.mp (h.left_forth heps a hu)).1 a ha
    rw [Point.cross_self_right] at hturn
    exact hturn.false

end Ring

theorem corners_of_triplewise {ring : List (Point ℚ)} (hlength : 3 ≤ ring.length)
    (h : ring.Triplewise fun a b c => 0 < Point.cross a b c) :
    Corners ring fun a b c => 0 < Point.cross a b c := by
  intro i a b c ha hb hc
  have hturn {i j k : ℕ} {a b c : Point ℚ} (hij : i < j) (hjk : j < k) (ha : ring[i]? = some a)
      (hb : ring[j]? = some b) (hc : ring[k]? = some c) : 0 < Point.cross a b c := by
    obtain ⟨hi, rfl⟩ := List.getElem?_eq_some_iff.mp ha
    obtain ⟨hj, rfl⟩ := List.getElem?_eq_some_iff.mp hb
    obtain ⟨hk, rfl⟩ := List.getElem?_eq_some_iff.mp hc
    exact List.triplewise_iff_getElem.mp h i j k hij hjk hk
  have hi : i < ring.length := (List.getElem?_eq_some_iff.mp ha).1
  -- A corner lies inside the list, or it uses the first member, or the first two.
  rcases Nat.lt_or_ge (i + 2) ring.length with hin | hout
  · rw [Nat.mod_eq_of_lt (by omega)] at hb hc
    exact hturn (Nat.lt_succ_self i) (Nat.lt_succ_self (i + 1)) ha hb hc
  rcases Nat.lt_or_ge (i + 1) ring.length with hone | htwo
  · have hwrap : (i + 2) % ring.length = 0 := by
      rw [show i + 2 = ring.length by omega, Nat.mod_self]
    rw [Nat.mod_eq_of_lt hone] at hb
    rw [hwrap] at hc
    rw [Point.cross_rotate]
    exact hturn (by omega) (Nat.lt_succ_self i) hc ha hb
  · have hlast : i + 1 = ring.length := by omega
    have hwrap : (i + 2) % ring.length = 1 := by
      rw [show i + 2 = ring.length + 1 by omega, Nat.add_mod_left, Nat.mod_eq_of_lt (by omega)]
    rw [hlast, Nat.mod_self] at hb
    rw [hwrap] at hc
    rw [← Point.cross_rotate]
    exact hturn Nat.zero_lt_one (by omega) hb hc ha

/-- Whatever the tolerance, the hull is a strictly convex polygon on distinct points that were
given, counter-clockwise from the leftmost one and through the rightmost one. It depends on nothing
but which points were given. -/
theorem hull_convex_polygon (heps : 0 ≤ eps) (h : Varied points) :
    (hull eps points).Nodup ∧ (∀ s ∈ hull eps points, s ∈ points) ∧
    (∃ m ∈ points, (hull eps points).head? = some m ∧ ∀ s ∈ points, s = m ∨ Point.before m s) ∧
    (∃ n ∈ hull eps points, ∀ s ∈ points, s = n ∨ Point.before s n) ∧
    (3 ≤ (hull eps points).length →
      Corners (hull eps points) fun a b c => 0 < Point.cross a b c) ∧
    (hull eps points).Triplewise (fun a b c => 0 < Point.cross a b c) ∧
    ∀ others, (∀ s, s ∈ others ↔ s ∈ points) → hull eps others = hull eps points := by
  obtain ⟨m, n, lower, upper, hring⟩ := exists_ring heps h
  have hconvex := hring.convex heps
  have hnodup := hring.nodup heps
  rw [← hring.hull_eq] at hconvex hnodup
  refine ⟨hnodup, fun s hs => mem_of_mem_hull hs, ⟨m, ?_, ?_, fun s hs => hring.first hs⟩,
    ⟨n, ?_, fun s hs => hring.last hs⟩, fun hlength => corners_of_triplewise hlength hconvex,
    hconvex, fun others hsame => hull_eq_of_mem_iff heps h hsame⟩
  · exact hring.mem_points m (List.mem_cons_self ..)
  · rw [hring.hull_eq]
    rfl
  · rw [hring.hull_eq]
    exact List.mem_append_right _ (List.mem_cons_self ..)

/-- A triangle with a dent below that a tolerance of one smooths over. One corner is given twice. -/
def dented : List (Point ℚ) := [⟨4, 0⟩, ⟨0, 0⟩, ⟨1, 3⟩, ⟨4, 0⟩, ⟨2, -1 / 8⟩]

theorem dented_convex :
    hull 1 dented = [⟨0, 0⟩, ⟨4, 0⟩, ⟨1, 3⟩] ∧
      (hull 1 dented).Triplewise (fun a b c => 0 < Point.cross a b c) ∧
      Corners (hull 1 dented) (fun a b c => 0 < Point.cross a b c) ∧
      hull 1 (⟨1, 3⟩ :: dented.reverse) = hull 1 dented := by
  have hhull : hull 1 dented = [⟨0, 0⟩, ⟨4, 0⟩, ⟨1, 3⟩] := by decide +kernel
  obtain ⟨-, -, -, -, hcorners, hconvex, hsame⟩ :=
    hull_convex_polygon zero_le_one (show Varied dented by decide +kernel)
  refine ⟨hhull, hconvex, hcorners (by rw [hhull]; decide), hsame _ ?_⟩
  intro s
  rw [List.mem_cons, List.mem_reverse, or_iff_right_of_imp]
  rintro rfl
  decide +kernel

end CornerPoint.Hull
