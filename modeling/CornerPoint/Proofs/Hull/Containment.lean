import CornerPoint.Options
import CornerPoint.Proofs.Hull.Cover
import CornerPoint.Proofs.Hull.Ring

/-!
What the hull contains. Without a tolerance no point lies on the right of a side, and the members of
the hull are the points that no convex combination of the others reaches. A tolerance changes
nothing as long as no turn between the points is within it; else the hull may leave points out.
-/
namespace CornerPoint.Hull

/-- What holds of every two neighbours on a ring, on which the first member follows the last. -/
def Sides (ring : List (Point ℚ)) (R : Point ℚ → Point ℚ → Prop) : Prop :=
  ∀ i a b, ring[i]? = some a → ring[(i + 1) % ring.length]? = some b → R a b

/-- All points lie on one line. -/
def Straight (points : List (Point ℚ)) : Prop :=
  ∀ o ∈ points, ∀ a ∈ points, ∀ b ∈ points, Point.cross o a b = 0

instance (points : List (Point ℚ)) : Decidable (Straight points) :=
  inferInstanceAs (Decidable (∀ o ∈ points, ∀ a ∈ points, ∀ b ∈ points, Point.cross o a b = 0))

/-- A point that is given and is no convex combination of the other ones. -/
def IsVertex (points : List (Point ℚ)) (s : Point ℚ) : Prop :=
  s ∈ points ∧ s.coords ∉ convexHull ℚ (sites (points.filter (· ≠ s)))

/-- After the step from `a` to `b`, and further on in its direction. -/
def Beyond (a b s : Point ℚ) : Prop :=
  Point.before a b ∧ Point.before b s ∨ Point.before b a ∧ Point.before s b

/-- No turn between the points is so small that it counts as none without being none. -/
def Resolved (eps : ℚ) (points : List (Point ℚ)) : Prop :=
  ∀ o ∈ points, ∀ a ∈ points, ∀ b ∈ points,
    Point.cross o a b = 0 ∨ eps < |Point.cross o a b|

section Sides

variable {R : Point ℚ → Point ℚ → Prop} {ring : List (Point ℚ)} {m n : Point ℚ}
  {lower upper : List (Point ℚ)}

theorem sides_of_isChain {l : List (Point ℚ)} (h : (m :: l ++ [m]).IsChain R) :
    Sides (m :: l) R := by
  have hnext {i : ℕ} {a b : Point ℚ} (ha : (m :: l ++ [m])[i]? = some a)
      (hb : (m :: l ++ [m])[i + 1]? = some b) : R a b := by
    obtain ⟨hi, rfl⟩ := List.getElem?_eq_some_iff.mp hb
    obtain ⟨-, rfl⟩ := List.getElem?_eq_some_iff.mp ha
    exact List.isChain_iff_getElem.mp h i hi
  intro i a b ha hb
  have hi : i < (m :: l).length := (List.getElem?_eq_some_iff.mp ha).1
  refine hnext ((List.getElem?_append_left hi).trans ha) ?_
  rcases Nat.lt_or_ge (i + 1) (m :: l).length with hin | hout
  · rw [Nat.mod_eq_of_lt hin] at hb
    exact (List.getElem?_append_left hin).trans hb
  · have hlast : i + 1 = (m :: l).length := by omega
    rw [hlast, Nat.mod_self] at hb
    rw [hlast, List.getElem?_append_right le_rfl, Nat.sub_self]
    exact hb

theorem sides_of_chains (hforth : (m :: (lower ++ [n])).IsChain R)
    (hback : (n :: (upper ++ [m])).IsChain R) : Sides (m :: lower ++ n :: upper) R := by
  rw [← List.cons_append] at hforth
  have hclosed : (m :: (lower ++ n :: upper) ++ [m]).IsChain R := by
    rw [← List.cons_append, List.append_assoc, List.cons_append]
    exact List.isChain_split.mpr ⟨hforth, hback⟩
  exact sides_of_isChain hclosed

theorem exists_neighbours {s : Point ℚ} (hs : s ∈ ring) :
    ∃ i a b, ring[i]? = some a ∧ ring[(i + 1) % ring.length]? = some s ∧
      ring[(i + 2) % ring.length]? = some b := by
  obtain ⟨j, hj⟩ := List.mem_iff_getElem?.mp hs
  have hlt : j < ring.length := (List.getElem?_eq_some_iff.mp hj).1
  have hpos : 0 < ring.length := by omega
  have hnext : ((j + (ring.length - 1)) % ring.length + 1) % ring.length = j := by
    rw [Nat.mod_add_mod, show j + (ring.length - 1) + 1 = j + ring.length by omega,
      Nat.add_mod_right, Nat.mod_eq_of_lt hlt]
  refine ⟨(j + (ring.length - 1)) % ring.length, _, _,
    List.getElem?_eq_getElem (Nat.mod_lt _ hpos), ?_, List.getElem?_eq_getElem (Nat.mod_lt _ hpos)⟩
  rw [hnext, hj]

end Sides

variable {points : List (Point ℚ)} {m n : Point ℚ} {lower upper : List (Point ℚ)} {eps : ℚ}

theorem varied_of_not_straight (h : ¬Straight points) : Varied points := by
  by_contra hsame
  apply h
  intro o ho a ha b hb
  have hoa : o = a := by
    by_contra hne
    exact hsame ⟨o, ho, a, ha, hne⟩
  rw [hoa, Point.cross_self_left]

namespace Ring

theorem contains (h : Ring 0 points m n lower upper) :
    Sides (hull 0 points) fun a b => ∀ s ∈ points, 0 ≤ Point.cross a b s := by
  have hforth := chain_contains (ordered_pairwise points)
  have hback := chain_reverse_contains (ordered_pairwise points)
  simp only [mem_ordered] at hforth hback
  rw [h.forth] at hforth
  rw [h.back] at hback
  rw [h.hull_eq]
  exact sides_of_chains hforth hback

theorem mem_hull_of_forth (h : Ring eps points m n lower upper) :
    ∀ q ∈ m :: (lower ++ [n]), q ∈ hull eps points := by
  intro q hq
  rw [h.hull_eq]
  simp only [List.mem_cons, List.mem_append, List.not_mem_nil, or_false] at hq ⊢
  tauto

theorem mem_hull_of_back (h : Ring eps points m n lower upper) :
    ∀ q ∈ n :: (upper ++ [m]), q ∈ hull eps points := by
  intro q hq
  rw [h.hull_eq]
  simp only [List.mem_cons, List.mem_append, List.not_mem_nil, or_false] at hq ⊢
  tauto

/-- A point lies between the two chains, so it is a convex combination of their members. -/
theorem coords_mem_convexHull (h : Ring 0 points m n lower upper) {s : Point ℚ}
    (hs : s ∈ points) : s.coords ∈ convexHull ℚ (sites (hull 0 points)) := by
  obtain ⟨⟨ux, uy⟩, hu, hux, huy⟩ :=
    coords_mem_above_chain (ordered_pairwise points) s (mem_ordered.mpr hs)
  obtain ⟨⟨vx, vy⟩, hv, hvx, hvy⟩ :=
    exists_above_of_reverse (ordered_pairwise points) (mem_ordered.mpr hs)
  rw [h.forth] at hu
  rw [h.back] at hv
  have hu' := convexHull_mono (sites_mono h.mem_hull_of_forth) hu
  have hv' := convexHull_mono (sites_mono h.mem_hull_of_back) hv
  obtain rfl : ux = s.x := hux
  obtain rfl : vx = s.x := hvx
  have hbetween : s.coords ∈ segment ℚ (s.x, uy) (s.x, vy) := by
    rw [← Prod.image_mk_segment_right]
    refine ⟨s.y, ?_, rfl⟩
    rw [segment_eq_Icc (le_trans huy hvy)]
    exact ⟨huy, hvy⟩
  exact (convex_convexHull ℚ _).segment_subset hu' hv' hbetween

/-- If the chains have nothing between their ends, the hull is a segment with all points on it. -/
theorem coords_mem_segment (h : Ring 0 points m n [] []) {s : Point ℚ} (hs : s ∈ points) :
    s.coords ∈ segment ℚ m.coords n.coords := by
  have hmem := h.coords_mem_convexHull hs
  have hsites : sites (hull 0 points) = {m.coords, n.coords} := by
    rw [h.hull_eq]
    ext v
    simp [sites, eq_comm]
  rwa [hsites, convexHull_pair] at hmem

theorem straight_of_segment (h : Ring 0 points m n [] []) : Straight points := by
  have hline {s : Point ℚ} (hs : s ∈ points) :
      ∃ t : ℚ, s.coords = m.coords + t • (n.coords - m.coords) := by
    have hmem := h.coords_mem_segment hs
    rw [segment_eq_image'] at hmem
    obtain ⟨t, -, ht⟩ := hmem
    exact ⟨t, ht.symm⟩
  intro o ho a ha b hb
  obtain ⟨r, hr⟩ := hline ho
  obtain ⟨s, hs⟩ := hline ha
  obtain ⟨t, ht⟩ := hline hb
  rw [Point.cross_eq_turn, Point.way, Point.way, hr, hs, ht]
  simp only [turn, Prod.fst_sub, Prod.snd_sub, Prod.fst_add, Prod.snd_add, Prod.smul_fst,
    Prod.smul_snd, smul_eq_mul]
  ring

/-- On a line no chain has anything between its ends. -/
theorem eq_nil_of_straight (h : Ring eps points m n lower upper) (heps : 0 ≤ eps)
    (hstraight : Straight points) : lower = [] ∧ upper = [] := by
  have hmem (q : Point ℚ) (hq : q ∈ hull eps points) : q ∈ points := mem_of_mem_hull hq
  have hm := hmem m (h.mem_hull_of_forth m (by simp))
  have hn := hmem n (h.mem_hull_of_back n (by simp))
  constructor
  · by_contra hne
    obtain ⟨c, hc⟩ := List.exists_mem_of_ne_nil lower hne
    have hturn := (h.beyond_back heps c hc).2.2
    have hc' := hmem c (h.mem_hull_of_forth c (by simp [hc]))
    rw [hstraight n hn m hm c hc'] at hturn
    exact hturn.false
  · by_contra hne
    obtain ⟨c, hc⟩ := List.exists_mem_of_ne_nil upper hne
    have hturn := (h.beyond_forth heps c hc).2.2
    have hc' := hmem c (h.mem_hull_of_back c (by simp [hc]))
    rw [hstraight m hm n hn c hc'] at hturn
    exact hturn.false

theorem three_le_length (h : Ring 0 points m n lower upper) (hbent : ¬Straight points) :
    3 ≤ (hull 0 points).length := by
  by_contra hshort
  have hempty : lower = [] ∧ upper = [] := by
    rw [h.hull_eq] at hshort
    simp only [List.length_append, List.length_cons] at hshort
    constructor <;> apply List.eq_nil_of_length_eq_zero <;> omega
  obtain ⟨rfl, rfl⟩ := hempty
  exact hbent h.straight_of_segment

theorem mem_hull_iff (h : Ring 0 points m n lower upper) (hbent : ¬Straight points)
    (s : Point ℚ) : s ∈ hull 0 points ↔ IsVertex points s := by
  constructor
  · intro hs
    refine ⟨mem_of_mem_hull hs, fun hmem => ?_⟩
    have hconvex := h.convex le_rfl
    rw [← h.hull_eq] at hconvex
    obtain ⟨i, a, b, ha, hi, hb⟩ := exists_neighbours hs
    have hcorner : 0 < Point.cross a s b :=
      corners_of_triplewise (h.three_le_length hbent) hconvex i a s b ha hi hb
    have hside : ∀ q ∈ points, 0 ≤ Point.cross a s q := h.contains i a s ha hi
    have hside' : ∀ q ∈ points, 0 ≤ Point.cross s b q := by
      refine h.contains _ s b hi ?_
      rwa [Nat.mod_add_mod]
    -- The other points lie strictly on one side of a line through `s`, and so does what they span.
    have hothers : sites (points.filter (· ≠ s)) ⊆
        {v | turn (Point.way a b) s.coords < turn (Point.way a b) v} := by
      rintro _ ⟨q, hq, rfl⟩
      obtain ⟨hq, hne⟩ := List.mem_filter.mp hq
      have hturn := Point.turn_pos_of_corner hcorner (hside q hq) (hside' q hq) (by simpa using hne)
      rwa [Point.way, Point.way, (isLinearMap_turn _).map_sub, sub_pos] at hturn
    have hself : turn (Point.way a b) s.coords < turn (Point.way a b) s.coords :=
      convexHull_min hothers (convex_halfSpace_gt (isLinearMap_turn _) _) hmem
    exact hself.false
  · rintro ⟨hs, hmem⟩
    by_contra hout
    refine hmem (convexHull_mono (sites_mono ?_) (h.coords_mem_convexHull hs))
    intro q hq
    refine List.mem_filter.mpr ⟨mem_of_mem_hull hq, ?_⟩
    have hne : q ≠ s := fun he => hout (he ▸ hq)
    simpa using hne

/-- For any tolerance, whatever lies beyond a side lies on its left. -/
theorem left_of_beyond (h : Ring eps points m n lower upper) (heps : 0 ≤ eps) :
    Sides (hull eps points) fun a b => ∀ s ∈ points, Beyond a b s → 0 < Point.cross a b s := by
  rw [h.hull_eq]
  apply sides_of_chains
  · rw [List.isChain_iff_getElem]
    intro i hi s hs hbeyond
    have hstep := List.pairwise_iff_getElem.mp h.ordered_forth i (i + 1) (by omega) hi (by omega)
    have hleft := chain_left heps (ordered_pairwise points) (mem_ordered.mpr hs)
    rw [h.forth] at hleft
    rcases hbeyond with ⟨-, hbs⟩ | ⟨hba, -⟩
    · exact List.pairwise_iff_getElem.mp hleft i (i + 1) (by omega) hi (by omega) hbs
    · exact (Point.not_before_of_before hstep hba).elim
  · rw [List.isChain_iff_getElem]
    intro i hi s hs hbeyond
    have hstep := List.pairwise_iff_getElem.mp h.ordered_back i (i + 1) (by omega) hi (by omega)
    have hleft := chain_reverse_left heps (ordered_pairwise points) (mem_ordered.mpr hs)
    rw [h.back] at hleft
    rcases hbeyond with ⟨hab, -⟩ | ⟨-, hsb⟩
    · exact (Point.not_before_of_before hstep hab).elim
    · exact List.pairwise_iff_getElem.mp hleft i (i + 1) (by omega) hi (by omega) hsb

end Ring

section Resolved

theorem cross_le_iff_of_resolved (heps : 0 ≤ eps) (h : Resolved eps points) {o a b : Point ℚ}
    (ho : o ∈ points) (ha : a ∈ points) (hb : b ∈ points) :
    Point.cross o a b ≤ eps ↔ Point.cross o a b ≤ 0 := by
  refine ⟨fun hle => ?_, fun hle => hle.trans heps⟩
  rcases h o ho a ha b hb with hzero | hlarge
  · exact hzero.le
  · rcases lt_abs.mp hlarge with hlt | hlt
    · exact absurd hle (not_le.mpr hlt)
    · linarith

theorem retreat_eq_of_resolved (heps : 0 ≤ eps) (h : Resolved eps points) {p : Point ℚ}
    (hp : p ∈ points) {back : List (Point ℚ)} (hback : ∀ q ∈ back, q ∈ points) :
    retreat eps p back = retreat 0 p back := by
  fun_induction retreat 0 p back with
  | case1 a o rest hturn ih =>
    obtain ⟨ha, hrest⟩ := List.forall_mem_cons.mp hback
    have ho := hrest o (List.mem_cons_self ..)
    rw [retreat, if_pos ((cross_le_iff_of_resolved heps h ho ha hp).mpr hturn), ih hrest]
  | case2 a o rest hturn =>
    obtain ⟨ha, hrest⟩ := List.forall_mem_cons.mp hback
    have ho := hrest o (List.mem_cons_self ..)
    rw [retreat, if_neg fun hle => hturn ((cross_le_iff_of_resolved heps h ho ha hp).mp hle)]
  | case3 short hshort =>
    rw [retreat]
    exact hshort

theorem chain_eq_of_resolved (heps : 0 ≤ eps) (h : Resolved eps points) {l : List (Point ℚ)}
    (hl : ∀ q ∈ l, q ∈ points) : chain eps l = chain 0 l := by
  have hfold : ∀ rest back : List (Point ℚ), (∀ q ∈ rest, q ∈ points) →
      (∀ q ∈ back, q ∈ points) →
      rest.foldl (fun back p => p :: retreat eps p back) back =
        rest.foldl (fun back p => p :: retreat 0 p back) back := by
    intro rest
    induction rest with
    | nil =>
      intro back _ _
      rfl
    | cons p rest ih =>
      intro back hrest hback
      obtain ⟨hp, hrest⟩ := List.forall_mem_cons.mp hrest
      rw [List.foldl_cons, List.foldl_cons, retreat_eq_of_resolved heps h hp hback]
      refine ih _ hrest (List.forall_mem_cons.mpr ⟨hp, fun q hq => hback q ?_⟩)
      exact (retreat_suffix 0 p back).sublist.mem hq
  rw [chain, chain, hfold l [] hl (by simp)]

theorem hull_eq_of_resolved (heps : 0 ≤ eps) (h : Resolved eps points) :
    hull eps points = hull 0 points := by
  have hmem : ∀ q ∈ Sorting.sort Point.before points, q ∈ points :=
    fun q hq => (Sorting.sort_perm Point.before points).mem_iff.mp hq
  have hreverse : ∀ q ∈ (Sorting.sort Point.before points).reverse, q ∈ points :=
    fun q hq => hmem q (List.mem_reverse.mp hq)
  simp only [hull, chain_eq_of_resolved heps h hmem, chain_eq_of_resolved heps h hreverse]

end Resolved

/-- Without a tolerance, a hull that is no segment encloses all points, and its members are the
vertices among them. On a line it consists of the ends of the segment that holds all points. -/
theorem exact_hull_encloses (h : Varied points) :
    (¬Straight points →
      Sides (hull 0 points) (fun a b => ∀ s ∈ points, 0 ≤ Point.cross a b s) ∧
      ∀ s, s ∈ hull 0 points ↔ IsVertex points s) ∧
    (Straight points → ∃ m ∈ points, ∃ n ∈ points, hull 0 points = [m, n] ∧ Point.before m n ∧
      ∀ s ∈ points, s.coords ∈ segment ℚ m.coords n.coords) := by
  obtain ⟨m, n, lower, upper, hring⟩ := exists_ring le_rfl h
  refine ⟨fun hbent => ⟨hring.contains, hring.mem_hull_iff hbent⟩, fun hstraight => ?_⟩
  obtain ⟨rfl, rfl⟩ := hring.eq_nil_of_straight le_rfl hstraight
  have hm := hring.mem_points m (by simp)
  have hn := hring.mem_points n (by simp)
  have hmn : Point.before m n := by simpa using hring.ordered_forth
  exact ⟨m, hm, n, hn, hring.hull_eq, hmn, fun s hs => hring.coords_mem_segment hs⟩

/-- A square with a point inside, a point on a side and a corner given twice. -/
def square : List (Point ℚ) :=
  [⟨2, 0⟩, ⟨0, 0⟩, ⟨1, 1⟩, ⟨2, 2⟩, ⟨1, 0⟩, ⟨0, 2⟩, ⟨0, 0⟩]

def ramp : List (Point ℚ) := [⟨1, 1⟩, ⟨3, 3⟩, ⟨0, 0⟩, ⟨1, 1⟩]

theorem square_and_ramp_enclosed :
    (hull 0 square = [⟨0, 0⟩, ⟨2, 0⟩, ⟨2, 2⟩, ⟨0, 2⟩] ∧ IsVertex square ⟨2, 2⟩ ∧
      ¬IsVertex square ⟨1, 0⟩ ∧
      Sides (hull 0 square) fun a b => ∀ s ∈ square, 0 ≤ Point.cross a b s) ∧
    Straight ramp ∧ hull 0 ramp = [⟨0, 0⟩, ⟨3, 3⟩] ∧
      (1, 1) ∈ segment ℚ ((0, 0) : ℚ × ℚ) (3, 3) := by
  have hsquare : hull 0 square = [⟨0, 0⟩, ⟨2, 0⟩, ⟨2, 2⟩, ⟨0, 2⟩] := by decide +kernel
  have hramp : hull 0 ramp = [⟨0, 0⟩, ⟨3, 3⟩] := by decide +kernel
  have hstraight : Straight ramp := by decide +kernel
  obtain ⟨hsides, hvertex⟩ :=
    (exact_hull_encloses (show Varied square by decide +kernel)).1 (by decide +kernel)
  obtain ⟨m, -, n, -, hends, -, hsegment⟩ :=
    (exact_hull_encloses (show Varied ramp by decide +kernel)).2 hstraight
  obtain ⟨rfl, rfl⟩ : m = ⟨0, 0⟩ ∧ n = ⟨3, 3⟩ := by
    rw [hramp] at hends
    simpa [eq_comm] using hends
  refine ⟨⟨hsquare, (hvertex _).mp ?_, fun hv => ?_, hsides⟩, hstraight, hramp, ?_⟩
  · rw [hsquare]
    decide +kernel
  · have hmem := (hvertex _).mpr hv
    rw [hsquare] at hmem
    revert hmem
    decide +kernel
  · exact hsegment ⟨1, 1⟩ (by decide +kernel)

theorem defaultEps_nonneg : (0 : ℚ) ≤ Options.defaultEps := by decide +kernel

/-- With the default tolerance, a side has on its left all that lies beyond it. If no turn between
the points is within the tolerance, the hull is a polygon that encloses them all. -/
theorem default_hull_encloses (h : ¬Straight points) :
    Sides (hull Options.defaultEps points) (fun a b => ∀ s ∈ points, Beyond a b s →
      0 < Point.cross a b s) ∧
    (Resolved Options.defaultEps points →
      3 ≤ (hull Options.defaultEps points).length ∧
      Sides (hull Options.defaultEps points) fun a b => ∀ s ∈ points, 0 ≤ Point.cross a b s) := by
  have hvaried := varied_of_not_straight h
  obtain ⟨m, n, lower, upper, hring⟩ := exists_ring defaultEps_nonneg hvaried
  refine ⟨hring.left_of_beyond defaultEps_nonneg, fun hresolved => ?_⟩
  obtain ⟨m, n, lower, upper, hring⟩ := exists_ring le_rfl hvaried
  rw [hull_eq_of_resolved defaultEps_nonneg hresolved]
  exact ⟨hring.three_le_length h, hring.contains⟩

theorem square_default_enclosed :
    3 ≤ (hull Options.defaultEps square).length ∧
      Sides (hull Options.defaultEps square) (fun a b => ∀ s ∈ square, 0 ≤ Point.cross a b s) ∧
      Beyond ⟨0, 0⟩ ⟨2, 0⟩ ⟨2, 2⟩ ∧ 0 < Point.cross (⟨0, 0⟩ : Point ℚ) ⟨2, 0⟩ ⟨2, 2⟩ := by
  have hhull : hull Options.defaultEps square = [⟨0, 0⟩, ⟨2, 0⟩, ⟨2, 2⟩, ⟨0, 2⟩] := by
    decide +kernel
  have hbeyond : Beyond ⟨0, 0⟩ ⟨2, 0⟩ ⟨2, 2⟩ := Or.inl ⟨by decide +kernel, by decide +kernel⟩
  have hresolved : Resolved Options.defaultEps square := by
    unfold Resolved
    decide +kernel
  have hbent : ¬Straight square := by decide +kernel
  obtain ⟨hleft, henclosed⟩ := default_hull_encloses hbent
  obtain ⟨hlength, hsides⟩ := henclosed hresolved
  refine ⟨hlength, hsides, hbeyond, hleft 0 _ _ ?_ ?_ ⟨2, 2⟩ (by decide +kernel) hbeyond⟩
  · rw [hhull]
    rfl
  · rw [hhull]
    rfl

/-- A triangle whose only turn is within the tolerance. -/
def sliver : List (Point ℚ) := [⟨0, 0⟩, ⟨1 / 10000, 0⟩, ⟨0, 1 / 10000⟩]

/-- A long side that starts beside a point which was dropped before the side was there. -/
def ledge : List (Point ℚ) := [⟨0, 0⟩, ⟨31 / 32, -1 / 2 ^ 24⟩, ⟨1, 0⟩, ⟨2 ^ 20, 1⟩]

/-- The hull of points that are not on one line may be a segment, and it may leave a point outside
by far more than the tolerance. -/
theorem default_hull_leaves_points_out :
    (¬Straight sliver ∧ hull Options.defaultEps sliver = [⟨0, 0⟩, ⟨1 / 10000, 0⟩]) ∧
    (¬Straight ledge ∧ hull Options.defaultEps ledge = [⟨0, 0⟩, ⟨1, 0⟩, ⟨2 ^ 20, 1⟩] ∧
      ¬Sides (hull Options.defaultEps ledge)
        fun a b => ∀ s ∈ ledge, -Options.defaultEps ≤ Point.cross a b s) := by
  have hhull : hull Options.defaultEps ledge = [⟨0, 0⟩, ⟨1, 0⟩, ⟨2 ^ 20, 1⟩] := by
    decide +kernel
  refine ⟨⟨by decide +kernel, by decide +kernel⟩, by decide +kernel, hhull, fun hsides => ?_⟩
  rw [hhull] at hsides
  have hside := hsides 1 ⟨1, 0⟩ ⟨2 ^ 20, 1⟩ rfl rfl ⟨31 / 32, -1 / 2 ^ 24⟩ (by decide +kernel)
  revert hside
  decide +kernel

end CornerPoint.Hull
