import CornerPoint.Proofs.Framing
import CornerPoint.Proofs.HalfPlane
import Mathlib.Order.Bounds.Basic

/-!
The bounds of a window. On each axis it reaches from the least to the greatest of the values to be
framed, with a margin on either side. The margin is the pad's share of that span; without a pad it
is not nothing but one unit.
-/
namespace CornerPoint

namespace Marks

variable {α : Type} [Scalar α]

theorem ofEnteredRows_map_some (rows : List (Row α)) :
    ofEnteredRows (rows.map (Row.map some)) = .ok (ofRows rows) := by
  have hall : (rows.map (Row.map some)).mapM ofEnteredRow = .ok (rows.map ofRow) := by
    rw [List.mapM_map]
    exact mapM_eq_ok (fun r => rfl) rows
  rw [ofEnteredRows, hall]
  simp only [Except.map, List.flatMap_map, ofRows]

/-- A line meets an axis unless its coefficient there is small. -/
theorem mem_intercept {c k v : ℚ} :
    v ∈ (if Options.defaultEps < Scalar.abs k then [c / k] else []) ↔
      1 / 10 ^ 7 < |k| ∧ c / k = v := by
  have heps : (Options.defaultEps : ℚ) = 1 / 10 ^ 7 := by decide +kernel
  rw [heps, Scalar.abs_rat]
  split
  · rename_i hk
    rw [List.mem_singleton, eq_comm, and_iff_right hk]
  · rename_i hk
    simp only [List.not_mem_nil, hk, false_and]

end Marks

namespace Window

/-- What is framed on an axis, for the coordinate of a point and the coefficient of a row that
belong to it: zero, one and the coordinates of the points or, if there are no points, where the
lines of the rows meet the axis. -/
def framed (coordinate : Point ℚ → ℚ) (coefficient : Row ℚ → ℚ) (points : List (Point ℚ))
    (rows : List (Row ℚ)) : Set ℚ :=
  {v | v = 0 ∨ v = 1 ∨ (∃ q ∈ points, coordinate q = v) ∨
    points = [] ∧ ∃ r ∈ rows, 1 / 10 ^ 7 < |coefficient r| ∧ r.c / coefficient r = v}

def framedX : List (Point ℚ) → List (Row ℚ) → Set ℚ := framed (·.x) (·.a)

def framedY : List (Point ℚ) → List (Row ℚ) → Set ℚ := framed (·.y) (·.b)

section Axis

variable {pad lo hi v : ℚ} {values : List ℚ} {s : Set ℚ}

theorem isLeast_least (hs : ∀ v, v ∈ s ↔ v = 0 ∨ v = 1 ∨ v ∈ values) :
    IsLeast s (least 0 values) := by
  refine ⟨(hs _).mpr ?_, fun v hv => ?_⟩
  · rcases List.mem_cons.mp (least_mem 0 values) with hzero | hvalue
    · exact .inl hzero
    · exact .inr (.inr hvalue)
  · rcases (hs v).mp hv with rfl | rfl | hvalue
    · exact least_le List.mem_cons_self
    · exact (least_le List.mem_cons_self).trans zero_le_one
    · exact least_le (List.mem_cons_of_mem 0 hvalue)

theorem isGreatest_greatest (hs : ∀ v, v ∈ s ↔ v = 0 ∨ v = 1 ∨ v ∈ values) :
    IsGreatest s (greatest 1 values) := by
  refine ⟨(hs _).mpr ?_, fun v hv => ?_⟩
  · rcases List.mem_cons.mp (greatest_mem 1 values) with hone | hvalue
    · exact .inr (.inl hone)
    · exact .inr (.inr hvalue)
  · rcases (hs v).mp hv with rfl | rfl | hvalue
    · exact zero_le_one.trans (le_greatest List.mem_cons_self)
    · exact le_greatest List.mem_cons_self
    · exact le_greatest (List.mem_cons_of_mem 1 hvalue)

theorem margin_zero (lo hi : ℚ) : margin 0 lo hi = 1 := by
  simp [margin]

theorem margin_nonneg (hpad : 0 ≤ pad) (h : 1 ≤ hi - lo) : 0 ≤ margin pad lo hi := by
  rcases hpad.eq_or_lt with rfl | hpad
  · rw [margin_zero]
    exact zero_le_one
  · rw [margin_of_pos hpad h]
    exact mul_nonneg hpad.le (by linarith)

end Axis

section Frame

variable (coordinate : Point ℚ → ℚ) (coefficient : Row ℚ → ℚ) (points : List (Point ℚ))
  (rows : List (Row ℚ))

/-- The marks on the axis of a coordinate and a coefficient, as the window takes them. -/
def marks : List ℚ :=
  if points.isEmpty then
    rows.flatMap fun r =>
      if Options.defaultEps < Scalar.abs (coefficient r) then [r.c / coefficient r] else []
  else points.map coordinate

theorem mem_framed_iff (v : ℚ) : v ∈ framed coordinate coefficient points rows ↔
    v = 0 ∨ v = 1 ∨ v ∈ marks coordinate coefficient points rows := by
  refine or_congr_right (or_congr_right ?_)
  cases points with
  | nil =>
    have hmarks : v ∈ marks coordinate coefficient [] rows ↔ ∃ r ∈ rows, v ∈
        (if Options.defaultEps < Scalar.abs (coefficient r) then [r.c / coefficient r] else []) :=
      List.mem_flatMap
    simp only [hmarks, Marks.mem_intercept, List.not_mem_nil, false_and, exists_false, false_or,
      true_and]
  | cons q points =>
    have hmarks : v ∈ marks coordinate coefficient (q :: points) rows ↔
        ∃ p ∈ q :: points, coordinate p = v := List.mem_map
    simp only [hmarks, reduceCtorEq, false_and, or_false]

theorem frameEntered_map_some (pad : ℚ) :
    frameEntered pad points (rows.map (Row.map some)) =
      .ok (ofMarks pad ⟨marks (·.x) (·.a) points rows, marks (·.y) (·.b) points rows⟩) := by
  cases points with
  | nil =>
    change (Marks.ofEnteredRows (rows.map (Row.map some))).map (ofMarks pad) = _
    rw [Marks.ofEnteredRows_map_some]
    rfl
  | cons q points => rfl

end Frame

/-- The window reaches from the least to the greatest value framed on each axis, and beyond both by
its margin: the pad's share of the span if there is a pad, and one unit if there is none. So it
shows the origin, the point (1, 1) and whatever it frames. -/
theorem frame_spans_marks (pad : ℚ) (hpad : 0 ≤ pad) (points : List (Point ℚ))
    (rows : List (Row ℚ)) :
    ∃ minX maxX minY maxY w,
      IsLeast (framedX points rows) minX ∧ IsGreatest (framedX points rows) maxX ∧
      IsLeast (framedY points rows) minY ∧ IsGreatest (framedY points rows) maxY ∧
      frameEntered pad points (rows.map (Row.map some)) = .ok w ∧
      (0 < pad → w = ⟨minX - pad * (maxX - minX), maxX + pad * (maxX - minX),
        minY - pad * (maxY - minY), maxY + pad * (maxY - minY)⟩) ∧
      (pad = 0 → w = ⟨minX - 1, maxX + 1, minY - 1, maxY + 1⟩) ∧
      w.Contains ⟨0, 0⟩ ∧ w.Contains ⟨1, 1⟩ ∧
      ∀ x ∈ framedX points rows, ∀ y ∈ framedY points rows, w.Contains ⟨x, y⟩ := by
  have hminX := isLeast_least (mem_framed_iff (·.x) (·.a) points rows)
  have hmaxX := isGreatest_greatest (mem_framed_iff (·.x) (·.a) points rows)
  have hminY := isLeast_least (mem_framed_iff (·.y) (·.b) points rows)
  have hmaxY := isGreatest_greatest (mem_framed_iff (·.y) (·.b) points rows)
  have hspanX := one_le_span (marks (·.x) (·.a) points rows)
  have hspanY := one_le_span (marks (·.y) (·.b) points rows)
  have hmarginX := margin_nonneg hpad hspanX
  have hmarginY := margin_nonneg hpad hspanY
  have hshown : ∀ x ∈ framedX points rows, ∀ y ∈ framedY points rows, (ofMarks pad
      ⟨marks (·.x) (·.a) points rows, marks (·.y) (·.b) points rows⟩).Contains ⟨x, y⟩ := by
    intro x hx y hy
    simp only [ofMarks, filter_isFinite]
    exact ⟨(sub_le_self _ hmarginX).trans (hminX.2 hx),
      (hmaxX.2 hx).trans (le_add_of_nonneg_right hmarginX),
      (sub_le_self _ hmarginY).trans (hminY.2 hy),
      (hmaxY.2 hy).trans (le_add_of_nonneg_right hmarginY)⟩
  refine ⟨_, _, _, _, _, hminX, hmaxX, hminY, hmaxY, frameEntered_map_some points rows pad,
    fun hpos => ?_, fun hzero => ?_, ?_, ?_, hshown⟩
  · simp only [ofMarks, filter_isFinite, margin_of_pos hpos hspanX, margin_of_pos hpos hspanY]
  · simp only [ofMarks, filter_isFinite, hzero, margin_zero]
  · exact hshown 0 (.inl rfl) 0 (.inl rfl)
  · exact hshown 1 (.inr (.inl rfl)) 1 (.inr (.inl rfl))

/-- A sample of which one line meets both axes and the other one only the vertical axis. -/
def slabs : List (Row ℚ) :=
  [{ a := 1, b := 2, c := 120 }, { a := 0, b := 3, sign := .ge, c := -6 }]

theorem slabs_framed : (0 : ℚ) ≤ 1 / 5 ∧
    frameEntered (1 / 5) [] (slabs.map (Row.map some)) =
      .ok ⟨-24, 144, -72 / 5, 362 / 5⟩ ∧
    (⟨-24, 144, -72 / 5, 362 / 5⟩ : Window ℚ).Contains ⟨120, -2⟩ := by
  have hwindow : frameEntered (1 / 5) [] (slabs.map (Row.map some)) =
      .ok (⟨-24, 144, -72 / 5, 362 / 5⟩ : Window ℚ) := by
    decide +kernel
  have hpad : (0 : ℚ) ≤ 1 / 5 := by decide +kernel
  obtain ⟨-, -, -, -, w, -, -, -, -, hw, -, -, -, -, hshown⟩ :=
    frame_spans_marks (1 / 5) hpad [] slabs
  obtain rfl := Except.ok.inj (hw.symm.trans hwindow)
  refine ⟨hpad, hwindow, hshown 120 ?_ (-2) ?_⟩
  · exact .inr (.inr (.inr ⟨rfl, _, List.mem_cons_self, by decide +kernel⟩))
  · exact .inr (.inr (.inr ⟨rfl, _, List.mem_cons_of_mem _ List.mem_cons_self, by decide +kernel⟩))

/-- With a pad of nothing the window still has a margin, although its span is not zero. -/
theorem frame_without_pad :
    IsLeast (framedX [] []) 0 ∧ IsGreatest (framedX [] []) 1 ∧
    IsLeast (framedY [] []) 0 ∧ IsGreatest (framedY [] []) 1 ∧
    frameEntered 0 [] [] = .ok (⟨-1, 2, -1, 2⟩ : Window ℚ) ∧
    (⟨-1, 2, -1, 2⟩ : Window ℚ) ≠
      ⟨0 - 0 * (1 - 0), 1 + 0 * (1 - 0), 0 - 0 * (1 - 0), 1 + 0 * (1 - 0)⟩ := by
  have hleast := isLeast_least (mem_framed_iff (·.x) (·.a) [] [])
  have hgreatest := isGreatest_greatest (mem_framed_iff (·.x) (·.a) [] [])
  have hleast' := isLeast_least (mem_framed_iff (·.y) (·.b) [] [])
  have hgreatest' := isGreatest_greatest (mem_framed_iff (·.y) (·.b) [] [])
  exact ⟨hleast, hgreatest, hleast', hgreatest', by decide +kernel, by decide +kernel⟩

end Window

end CornerPoint
