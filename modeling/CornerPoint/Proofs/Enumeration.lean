import CornerPoint.Proofs.Corner
import CornerPoint.Proofs.Region
import CornerPoint.Solution

/-!
What the enumeration of crossings finds over exact numbers: the points in which two boundary lines
meet, unless their determinant counts as zero. Of the feasible set, these are the corners.
-/
namespace CornerPoint

namespace Line

def Contains (l : Line ℚ) (q : Point ℚ) : Prop := l.a * q.x + l.b * q.y = l.c

theorem det_rat (l m : Line ℚ) : l.det m = l.a * m.b - m.a * l.b := rfl

theorem det_comm (l m : Line ℚ) : m.det l = -l.det m := by
  rw [det_rat, det_rat]
  ring

theorem eq_solution_iff {l m : Line ℚ} (h : l.det m ≠ 0) (q : Point ℚ) :
    q = l.solution m ↔ l.Contains q ∧ m.Contains q := by
  obtain ⟨x, y⟩ := q
  change (⟨x, y⟩ : Point ℚ) =
      ⟨(l.c * m.b - m.c * l.b) / l.det m, (l.a * m.c - m.a * l.c) / l.det m⟩ ↔
    l.a * x + l.b * y = l.c ∧ m.a * x + m.b * y = m.c
  rw [Point.mk.injEq, eq_div_iff h, eq_div_iff h, det_rat]
  rw [det_rat] at h
  constructor
  · rintro ⟨hx, hy⟩
    constructor
    · apply mul_right_cancel₀ h
      linear_combination l.a * hx + l.b * hy
    · apply mul_right_cancel₀ h
      linear_combination m.a * hx + m.b * hy
  · rintro ⟨hl, hm⟩
    constructor
    · linear_combination m.b * hl - l.b * hm
    · linear_combination l.a * hm - m.a * hl

/-- The crossings of all pairs of lines that do not count as parallel. -/
def crossingPoints (eps : ℚ) (lines : List (Line ℚ)) : List (Point ℚ) :=
  (pairs lines).filterMap fun pair =>
    if |pair.1.det pair.2| < eps then none else some (pair.1.solution pair.2)

theorem crossing_rat {eps : ℚ} (heps : 0 < eps) (l m : Line ℚ) :
    crossing eps l m = .ok (if |l.det m| < eps then none else some (l.solution m)) := by
  unfold crossing
  rw [Scalar.abs_rat]
  split
  · rfl
  · rename_i hlt
    have hne : l.det m ≠ 0 := by
      intro hz
      rw [hz, abs_zero] at hlt
      exact hlt heps
    have hbeq : (l.det m == 0) = false := beq_eq_false_iff_ne.mpr hne
    rw [if_neg (by simpa using hbeq)]
    rfl

theorem crossings_rat {eps : ℚ} (heps : 0 < eps) (lines : List (Line ℚ)) :
    crossings eps lines = .ok (crossingPoints eps lines) := by
  have hall : ((pairs lines).mapM fun pair => crossing eps pair.1 pair.2) =
      .ok ((pairs lines).map fun pair =>
        if |pair.1.det pair.2| < eps then none else some (pair.1.solution pair.2)) := by
    rw [funext fun pair : Line ℚ × Line ℚ => crossing_rat heps pair.1 pair.2]
    exact List.mapM_pure
  unfold crossings crossingPoints
  rw [hall]
  change Except.ok _ = Except.ok _
  rw [List.filterMap_map]
  rfl

end Line

section Pairs

variable {β : Type} {xs : List β} {a b : β}

theorem mem_of_mem_pairs (h : (a, b) ∈ pairs xs) : a ∈ xs ∧ b ∈ xs := by
  induction xs with
  | nil => simp [pairs] at h
  | cons c xs ih =>
    simp only [pairs, List.mem_append, List.mem_map, Prod.mk.injEq] at h
    rcases h with ⟨d, hd, rfl, rfl⟩ | h
    · exact ⟨List.mem_cons_self .., List.mem_cons_of_mem _ hd⟩
    · exact ⟨List.mem_cons_of_mem _ (ih h).1, List.mem_cons_of_mem _ (ih h).2⟩

theorem mem_pairs_or (ha : a ∈ xs) (hb : b ∈ xs) (hne : a ≠ b) :
    (a, b) ∈ pairs xs ∨ (b, a) ∈ pairs xs := by
  induction xs with
  | nil => simp at ha
  | cons c xs ih =>
    simp only [pairs, List.mem_append, List.mem_map, Prod.mk.injEq]
    rcases List.mem_cons.mp ha with rfl | ha'
    · rcases List.mem_cons.mp hb with rfl | hb'
      · exact (hne rfl).elim
      · exact Or.inl (Or.inl ⟨b, hb', rfl, rfl⟩)
    · rcases List.mem_cons.mp hb with rfl | hb'
      · exact Or.inr (Or.inl ⟨a, ha', rfl, rfl⟩)
      · rcases ih ha' hb' with h | h
        · exact Or.inl (Or.inr h)
        · exact Or.inr (Or.inr h)

end Pairs

/-- Two boundary lines of the rows meet in `q` and nowhere else. -/
def Meeting (rows : List (Row ℚ)) (q : Point ℚ) : Prop :=
  ∃ r ∈ rows, ∃ s ∈ rows, r.line.Contains q ∧ s.line.Contains q ∧ r.line.det s.line ≠ 0

/-- No determinant is so small that it counts as zero without being zero. -/
def Separated (eps : ℚ) (rows : List (Row ℚ)) : Prop :=
  ∀ r ∈ rows, ∀ s ∈ rows, r.line.det s.line = 0 ∨ eps ≤ |r.line.det s.line|

def Transversal (rows : List (Row ℚ)) : Prop :=
  ∃ r ∈ rows, ∃ s ∈ rows, r.line.det s.line ≠ 0

variable {eps : ℚ} {rows : List (Row ℚ)} {q : Point ℚ}

theorem meeting_of_mem_crossingPoints (heps : 0 < eps)
    (h : q ∈ Line.crossingPoints eps (rows.map Row.line)) : Meeting rows q := by
  simp only [Line.crossingPoints, List.mem_filterMap, Option.ite_none_left_eq_some,
    Option.some.injEq] at h
  obtain ⟨⟨l, m⟩, hmem, hlt, hq⟩ := h
  have hdet : l.det m ≠ 0 := by
    intro hz
    rw [hz, abs_zero] at hlt
    exact hlt heps
  obtain ⟨hl, hm⟩ := mem_of_mem_pairs hmem
  obtain ⟨r, hr, rfl⟩ := List.mem_map.mp hl
  obtain ⟨s, hs, rfl⟩ := List.mem_map.mp hm
  obtain ⟨hrq, hsq⟩ := (Line.eq_solution_iff hdet q).mp hq.symm
  exact ⟨r, hr, s, hs, hrq, hsq, hdet⟩

theorem mem_crossingPoints_of_meeting (hsep : Separated eps rows) (h : Meeting rows q) :
    q ∈ Line.crossingPoints eps (rows.map Row.line) := by
  obtain ⟨r, hr, s, hs, hrq, hsq, hdet⟩ := h
  have hne : r.line ≠ s.line := by
    intro he
    rw [he, Line.det_rat, sub_self] at hdet
    exact hdet rfl
  simp only [Line.crossingPoints, List.mem_filterMap, Option.ite_none_left_eq_some,
    Option.some.injEq]
  -- The pair stands in the list in one of its two orders, and both have the same solution.
  rcases mem_pairs_or (List.mem_map_of_mem hr) (List.mem_map_of_mem hs) hne with hp | hp
  · refine ⟨_, hp, ?_, ((Line.eq_solution_iff hdet q).mpr ⟨hrq, hsq⟩).symm⟩
    exact not_lt.mpr ((hsep r hr s hs).resolve_left hdet)
  · have hdet' : s.line.det r.line ≠ 0 := by
      rw [Line.det_comm]
      exact neg_ne_zero.mpr hdet
    refine ⟨_, hp, ?_, ((Line.eq_solution_iff hdet' q).mpr ⟨hsq, hrq⟩).symm⟩
    exact not_lt.mpr ((hsep s hs r hr).resolve_left hdet')

theorem Meeting.transversal (h : Meeting rows q) : Transversal rows := by
  obtain ⟨r, hr, s, hs, -, -, hdet⟩ := h
  exact ⟨r, hr, s, hs, hdet⟩

/-- A half-plane of a row has the row's coefficients, or all of them negated. -/
theorem Row.mem_halfPlanes {r : Row ℚ} {h : HalfPlane ℚ} (hh : h ∈ r.halfPlanes) :
    ∃ k : ℚ, k ≠ 0 ∧ h = ⟨k * r.a, k * r.b, k * r.c⟩ := by
  have hpos : ∃ k : ℚ, k ≠ 0 ∧ (⟨r.a, r.b, r.c⟩ : HalfPlane ℚ) = ⟨k * r.a, k * r.b, k * r.c⟩ :=
    ⟨1, one_ne_zero, by simp only [one_mul]⟩
  have hneg : ∃ k : ℚ, k ≠ 0 ∧
      (⟨-r.a, -r.b, -r.c⟩ : HalfPlane ℚ) = ⟨k * r.a, k * r.b, k * r.c⟩ :=
    ⟨-1, neg_ne_zero.mpr one_ne_zero, by simp only [neg_mul, one_mul]⟩
  unfold Row.halfPlanes at hh
  split at hh
  · rw [List.mem_singleton.mp hh]
    exact hpos
  · rw [List.mem_singleton.mp hh]
    exact hneg
  · rcases List.mem_cons.mp hh with rfl | hh
    · exact hpos
    · rw [List.mem_singleton.mp hh]
      exact hneg

theorem Row.exists_halfPlane (r : Row ℚ) : ∃ h, h ∈ r.halfPlanes := by
  unfold Row.halfPlanes
  split
  · exact ⟨_, List.mem_singleton_self _⟩
  · exact ⟨_, List.mem_singleton_self _⟩
  · exact ⟨_, List.mem_cons_self ..⟩

theorem slack_scaled {k : ℚ} (hk : k ≠ 0) (r : Row ℚ) (q : Point ℚ) :
    (⟨k * r.a, k * r.b, k * r.c⟩ : HalfPlane ℚ).slack q = 0 ↔ r.line.Contains q := by
  have he : (⟨k * r.a, k * r.b, k * r.c⟩ : HalfPlane ℚ).slack q =
      k * (r.c - (r.a * q.x + r.b * q.y)) := by
    simp only [HalfPlane.slack]
    ring
  rw [he, mul_eq_zero, or_iff_right hk, sub_eq_zero]
  exact eq_comm

theorem det_scaled {k n : ℚ} (hk : k ≠ 0) (hn : n ≠ 0) (r s : Row ℚ) :
    (⟨k * r.a, k * r.b, k * r.c⟩ : HalfPlane ℚ).det ⟨n * s.a, n * s.b, n * s.c⟩ ≠ 0 ↔
      r.line.det s.line ≠ 0 := by
  have he : (⟨k * r.a, k * r.b, k * r.c⟩ : HalfPlane ℚ).det ⟨n * s.a, n * s.b, n * s.c⟩ =
      k * n * r.line.det s.line := by
    simp only [HalfPlane.det, Line.det_rat, Row.line]
    ring
  rw [he, mul_ne_zero_iff, and_iff_right (mul_ne_zero hk hn)]

theorem inside_iff : Inside (halfPlanes rows) q ↔ ∀ r ∈ rows, r.Holds q := by
  have hs : Inside (halfPlanes rows) q ↔ q.satisfies 0 (halfPlanes rows) := by
    simp only [Inside, Point.satisfies, List.all_eq_true, HalfPlane.admits_iff, HalfPlane.slack,
      sub_nonneg, add_zero]
  rw [hs, Point.satisfies_iff]
  simp only [Row.holdsWithin_zero]

theorem cornered_iff : Cornered (halfPlanes rows) q ↔ Meeting rows q := by
  constructor
  · rintro ⟨g, hg, h, hh, hgz, hhz, hdet⟩
    obtain ⟨r, hr, hg⟩ := List.mem_flatMap.mp hg
    obtain ⟨s, hs, hh⟩ := List.mem_flatMap.mp hh
    obtain ⟨k, hk, rfl⟩ := Row.mem_halfPlanes hg
    obtain ⟨n, hn, rfl⟩ := Row.mem_halfPlanes hh
    exact ⟨r, hr, s, hs, (slack_scaled hk r q).mp hgz, (slack_scaled hn s q).mp hhz,
      (det_scaled hk hn r s).mp hdet⟩
  · rintro ⟨r, hr, s, hs, hrq, hsq, hdet⟩
    obtain ⟨g, hg⟩ := r.exists_halfPlane
    obtain ⟨h, hh⟩ := s.exists_halfPlane
    refine ⟨g, List.mem_flatMap.mpr ⟨r, hr, hg⟩, h, List.mem_flatMap.mpr ⟨s, hs, hh⟩, ?_⟩
    obtain ⟨k, hk, rfl⟩ := Row.mem_halfPlanes hg
    obtain ⟨n, hn, rfl⟩ := Row.mem_halfPlanes hh
    exact ⟨(slack_scaled hk r q).mpr hrq, (slack_scaled hn s q).mpr hsq,
      (det_scaled hk hn r s).mpr hdet⟩

theorem Transversal.halfPlanes (h : Transversal rows) :
    ∃ g ∈ halfPlanes rows, ∃ h ∈ halfPlanes rows, g.det h ≠ 0 := by
  obtain ⟨r, hr, s, hs, hdet⟩ := h
  obtain ⟨g, hg⟩ := r.exists_halfPlane
  obtain ⟨h, hh⟩ := s.exists_halfPlane
  refine ⟨g, List.mem_flatMap.mpr ⟨r, hr, hg⟩, h, List.mem_flatMap.mpr ⟨s, hs, hh⟩, ?_⟩
  obtain ⟨k, hk, rfl⟩ := Row.mem_halfPlanes hg
  obtain ⟨n, hn, rfl⟩ := Row.mem_halfPlanes hh
  exact (det_scaled hk hn r s).mpr hdet

namespace Problem

variable {p : Problem ℚ} {o : Objective ℚ}

theorem inside_iff_feasible : Inside (halfPlanes p.rows) q ↔ p.Feasible q :=
  inside_iff.trans (p.feasible_iff q).symm

/-- The extreme points of the feasible set are the feasible points in which two lines meet. -/
theorem extreme_iff_meeting : Extreme p.Feasible q ↔ p.Feasible q ∧ Meeting p.rows q := by
  have hset : p.Feasible = Inside (CornerPoint.halfPlanes p.rows) :=
    funext fun _ => propext inside_iff_feasible.symm
  rw [hset, extreme_iff_cornered, cornered_iff]

/-- No feasible point is better than all corners, for an objective that is bounded above. -/
theorem exists_feasible_meeting (ht : Transversal p.rows) (hq : p.Feasible q) {bound : ℚ}
    (hb : ∀ v, p.Feasible v → o.value v ≤ bound) :
    ∃ v, p.Feasible v ∧ Meeting p.rows v ∧ o.value q ≤ o.value v := by
  obtain ⟨v, hv, hle, hc⟩ := exists_corner (inside_iff_feasible.mpr hq)
    (fun v hv => hb v (inside_iff_feasible.mp hv)) ht.halfPlanes
  exact ⟨v, inside_iff_feasible.mp hv, cornered_iff.mp hc, hle⟩

end Problem

end CornerPoint
