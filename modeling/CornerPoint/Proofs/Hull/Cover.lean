import CornerPoint.Proofs.Hull.Chain
import Mathlib.Analysis.Convex.Hull

/-!
What a chain without tolerance covers. A point is dropped from a chain only if it lies on or above
the line between its neighbours, so every point stays on or above some convex combination of what
the chain keeps. Hence no point lies on the right of a side of the chain.
-/
namespace CornerPoint

/-- The coordinates of points. -/
def sites (points : List (Point ℚ)) : Set (ℚ × ℚ) := {v | ∃ p ∈ points, p.coords = v}

/-- What lies on the convex hull of a set or straight above it. -/
def above (S : Set (ℚ × ℚ)) : Set (ℚ × ℚ) := {v | ∃ u ∈ convexHull ℚ S, u.1 = v.1 ∧ u.2 ≤ v.2}

section Above

variable {S T : Set (ℚ × ℚ)} {u v w : ℚ × ℚ}

theorem mem_sites {points : List (Point ℚ)} {p : Point ℚ} (h : p ∈ points) :
    p.coords ∈ sites points := ⟨p, h, rfl⟩

theorem sites_mono {points others : List (Point ℚ)} (h : ∀ p ∈ points, p ∈ others) :
    sites points ⊆ sites others := by
  rintro _ ⟨p, hp, rfl⟩
  exact mem_sites (h p hp)

theorem convex_above (S : Set (ℚ × ℚ)) : Convex ℚ (above S) := by
  rintro v ⟨u, hu, hx, hy⟩ v' ⟨u', hu', hx', hy'⟩ s t hs ht hst
  refine ⟨s • u + t • u', convex_convexHull ℚ S hu hu' hs ht hst, ?_, ?_⟩
  · simp only [Prod.fst_add, Prod.smul_fst, hx, hx']
  · simp only [Prod.snd_add, Prod.smul_snd, smul_eq_mul]
    exact add_le_add (mul_le_mul_of_nonneg_left hy hs) (mul_le_mul_of_nonneg_left hy' ht)

theorem subset_above (S : Set (ℚ × ℚ)) : S ⊆ above S :=
  fun v hv => ⟨v, subset_convexHull ℚ S hv, rfl, le_rfl⟩

theorem above_subset (h : S ⊆ above T) : above S ⊆ above T := by
  rintro v ⟨u, hu, hx, hy⟩
  obtain ⟨w, hw, hx', hy'⟩ := convexHull_min h (convex_above T) hu
  exact ⟨w, hw, hx'.trans hx, hy'.trans hy⟩

theorem isLinearMap_turn (w : ℚ × ℚ) : IsLinearMap ℚ (turn w) where
  map_add := turn_add_right w
  map_smul c v := by
    simp only [turn, Prod.smul_fst, Prod.smul_snd, smul_eq_mul]
    ring

theorem Point.cross_eq_sub (a b s : Point ℚ) :
    cross a b s = turn (way a b) s.coords - turn (way a b) a.coords := by
  rw [cross_eq_turn, way, way, (isLinearMap_turn _).map_sub]

/-- The way straight up does not lead out of what is on the left of a line to the right. -/
theorem turn_le_of_mem_above {c : ℚ} (hw : 0 ≤ w.1) (hS : ∀ u ∈ S, c ≤ turn w u)
    (hv : v ∈ above S) : c ≤ turn w v := by
  obtain ⟨u, hu, hx, hy⟩ := hv
  have hu' : c ≤ turn w u := convexHull_min hS (convex_halfSpace_ge (isLinearMap_turn w) c) hu
  refine hu'.trans ?_
  rw [turn, turn, hx]
  exact sub_le_sub_right (mul_le_mul_of_nonneg_left hy hw) _

end Above

namespace Point

theorem x_le_of_before {p q : Point ℚ} (h : before p q) : p.x ≤ q.x := by
  rcases (before_iff p q).mp h with h | ⟨h, -⟩
  · exact h.le
  · exact h.le

/-- A point between two others that makes no left turn with them lies above them. -/
theorem mem_above_of_cross_nonpos {o a p : Point ℚ} (hoa : before o a) (hap : before a p)
    (hturn : cross o a p ≤ 0) {S : Set (ℚ × ℚ)} (ho : o.coords ∈ S) (hp : p.coords ∈ S) :
    a.coords ∈ above S := by
  rcases (before_iff o a).mp hoa with hlt | ⟨hx, hy⟩
  · have hap := x_le_of_before hap
    have hw : 0 < p.x - o.x := by linarith
    -- The line from `o` to `p` at the abscissa of `a`.
    have hsegment : o.coords + ((a.x - o.x) / (p.x - o.x)) • (p.coords - o.coords) ∈
        segment ℚ o.coords p.coords := by
      rw [segment_eq_image']
      exact ⟨_, ⟨div_nonneg (by linarith) hw.le, (div_le_one hw).mpr (by linarith)⟩, rfl⟩
    refine ⟨_, segment_subset_convexHull ho hp hsegment, ?_, ?_⟩
    · change o.x + (a.x - o.x) / (p.x - o.x) * (p.x - o.x) = a.x
      rw [div_mul_cancel₀ _ hw.ne']
      ring
    · change o.y + (a.x - o.x) / (p.x - o.x) * (p.y - o.y) ≤ a.y
      change (a.x - o.x) * (p.y - o.y) - (a.y - o.y) * (p.x - o.x) ≤ 0 at hturn
      have hheight : (a.x - o.x) / (p.x - o.x) * (p.y - o.y) ≤ a.y - o.y := by
        rw [div_mul_eq_mul_div, div_le_iff₀ hw]
        linarith
      linarith
  · exact ⟨o.coords, subset_convexHull ℚ S ho, hx, hy.le⟩

end Point

namespace Hull

variable {p : Point ℚ} {back points : List (Point ℚ)}

theorem above_retreat (hordered : back.Pairwise fun b a => Point.before a b)
    (hp : ∀ q ∈ back, Point.before q p) :
    above (sites (p :: back)) ⊆ above (sites (p :: retreat 0 p back)) := by
  fun_induction retreat 0 p back with
  | case1 a o rest hturn ih =>
    obtain ⟨ha, hordered⟩ := List.pairwise_cons.mp hordered
    obtain ⟨hap, hp⟩ := List.forall_mem_cons.mp hp
    refine subset_trans (above_subset ?_) (ih hordered hp)
    rintro _ ⟨q, hq, rfl⟩
    rcases List.mem_cons.mp hq with rfl | hq
    · exact subset_above _ (mem_sites (List.mem_cons_self ..))
    rcases List.mem_cons.mp hq with rfl | hq
    · exact Point.mem_above_of_cross_nonpos (ha o (List.mem_cons_self ..)) hap hturn
        (mem_sites (List.mem_cons_of_mem _ (List.mem_cons_self ..)))
        (mem_sites (List.mem_cons_self ..))
    · exact subset_above _ (mem_sites (List.mem_cons_of_mem _ hq))
  | case2 a o rest hturn => exact subset_rfl
  | case3 short hshort => exact subset_rfl

theorem coords_mem_above_chain (hsorted : points.Pairwise fun p q => Point.before p q) :
    ∀ s ∈ points, s.coords ∈ above (sites (chain 0 points)) := by
  have hcover : Scan points (chain 0 points).reverse ∧
      ∀ s ∈ points, s.coords ∈ above (sites (chain 0 points).reverse) := by
    refine chain_induction (motive := fun seen back =>
      Scan seen back ∧ ∀ s ∈ seen, s.coords ∈ above (sites back))
      ⟨⟨by simp, List.Pairwise.nil, by simp⟩, by simp⟩ ?_
    rintro seen p back hprefix ⟨hscan, hcover⟩
    have hp : ∀ q ∈ seen, Point.before q p := fun q hq =>
      (List.pairwise_append.mp (hsorted.sublist hprefix.sublist)).2.2 q hq p
        (List.mem_singleton_self p)
    refine ⟨hscan.add le_rfl hp, fun s hs => ?_⟩
    refine above_retreat hscan.ordered (fun q hq => hp q (hscan.kept q hq)) ?_
    rcases List.mem_append.mp hs with hs | hs
    · have hsub : sites back ⊆ above (sites (p :: back)) :=
        (sites_mono fun q hq => List.mem_cons_of_mem p hq).trans (subset_above _)
      exact above_subset hsub (hcover s hs)
    · obtain rfl := List.mem_singleton.mp hs
      exact subset_above _ (mem_sites (List.mem_cons_self ..))
  intro s hs
  exact above_subset ((sites_mono fun q hq => List.mem_reverse.mp hq).trans (subset_above _))
    (hcover.2 s hs)

/-- No member of a convex chain lies on the right of a side of it. -/
theorem isChain_of_convex {l : List (Point ℚ)}
    (h : l.Triplewise fun a b c => 0 < Point.cross a b c) :
    l.IsChain fun a b => ∀ c ∈ l, 0 ≤ Point.cross a b c := by
  rw [List.isChain_iff_getElem]
  intro i hi c hc
  obtain ⟨k, hk, rfl⟩ := List.mem_iff_getElem.mp hc
  have hturn := List.triplewise_iff_getElem.mp h
  rcases lt_trichotomy k i with hki | rfl | hik
  · rw [Point.cross_rotate]
    exact (hturn k i (i + 1) hki (Nat.lt_succ_self i) hi).le
  · rw [← Point.cross_rotate, Point.cross_self_right]
  rcases Nat.lt_or_ge (i + 1) k with hik' | hik'
  · exact (hturn i (i + 1) k (Nat.lt_succ_self i) hik' hk).le
  · obtain rfl : k = i + 1 := by omega
    rw [Point.cross_self_right]

theorem chain_contains (hsorted : points.Pairwise fun p q => Point.before p q) :
    (chain 0 points).IsChain fun a b => ∀ s ∈ points, 0 ≤ Point.cross a b s := by
  have hsides := List.isChain_iff_getElem.mp (isChain_of_convex (chain_convex le_rfl hsorted))
  have hordered :=
    List.isChain_iff_getElem.mp (hsorted.sublist (chain_sublist 0 points)).isChain
  rw [List.isChain_iff_getElem]
  intro i hi s hs
  rw [Point.cross_eq_sub, sub_nonneg]
  refine turn_le_of_mem_above (sub_nonneg.mpr (Point.x_le_of_before (hordered i hi))) ?_
    (coords_mem_above_chain hsorted s hs)
  rintro _ ⟨c, hc, rfl⟩
  have hc' := hsides i hi c hc
  rwa [Point.cross_eq_sub, sub_nonneg] at hc'

/-- The chain back runs above all points. -/
theorem exists_above_of_reverse (hsorted : points.Pairwise fun p q => Point.before p q)
    {s : Point ℚ} (hs : s ∈ points) :
    ∃ u ∈ convexHull ℚ (sites (chain 0 points.reverse)), u.1 = s.x ∧ s.y ≤ u.2 := by
  have hs' : s.opposite ∈ points.reverse.map Point.opposite :=
    List.mem_map_of_mem (List.mem_reverse.mpr hs)
  obtain ⟨u, hu, hx, hy⟩ := coords_mem_above_chain (pairwise_map_opposite hsorted) _ hs'
  have hsites : sites (chain 0 (points.reverse.map Point.opposite)) =
      -sites (chain 0 points.reverse) := by
    rw [chain_opposite]
    ext v
    constructor
    · rintro ⟨_, hmem, rfl⟩
      obtain ⟨q, hq, rfl⟩ := List.mem_map.mp hmem
      exact ⟨q, hq, (neg_neg q.coords).symm⟩
    · rintro ⟨q, hq, he⟩
      exact ⟨_, List.mem_map_of_mem hq, by rw [Point.coords_opposite, he, neg_neg]⟩
  rw [hsites, convexHull_neg, Set.mem_neg] at hu
  change u.1 = -s.x at hx
  change u.2 ≤ -s.y at hy
  refine ⟨-u, hu, ?_, ?_⟩
  · rw [Prod.fst_neg, hx, neg_neg]
  · rw [Prod.snd_neg]
    exact le_neg_of_le_neg hy

theorem chain_reverse_contains (hsorted : points.Pairwise fun p q => Point.before p q) :
    (chain 0 points.reverse).IsChain fun a b => ∀ s ∈ points, 0 ≤ Point.cross a b s := by
  have h := chain_contains (pairwise_map_opposite hsorted)
  rw [chain_opposite, List.isChain_map] at h
  refine h.imp fun a b hall s hs => ?_
  have hs' : s.opposite ∈ points.reverse.map Point.opposite :=
    List.mem_map_of_mem (List.mem_reverse.mpr hs)
  have hturn := hall _ hs'
  rwa [Point.cross_opposite] at hturn

end Hull

end CornerPoint
