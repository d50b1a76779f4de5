import CornerPoint.Proofs.CrossCheck
import CornerPoint.Proofs.Failure

/-!
The two forms of a problem describe one region. A solver is given upper bounds, equations and
non-negative variables; the corners are filtered by half-planes. Both are built from the entries of
a valid draft, and whatever point one of them admits, the other admits as well.
-/
namespace CornerPoint

namespace MatrixForm

variable {κ μ α : Type}

def map (f : κ → μ) (m : MatrixForm κ) : MatrixForm μ where
  upper := m.upper.map fun h => ⟨f h.a, f h.b, f h.c⟩
  equal := m.equal.map fun l => ⟨f l.a, f l.b, f l.c⟩

/-- Each row goes into one of the two matrices. -/
theorem length_ofRows (negate : κ → κ) (rows : List (Row κ)) :
    (ofRows negate rows).upper.length + (ofRows negate rows).equal.length = rows.length := by
  induction rows with
  | nil => rfl
  | cons r rows ih =>
    simp only [ofRows] at ih
    cases hs : r.sign with
    | le =>
      simp only [ofRows, List.filterMap_cons, hs, List.length_cons]
      omega
    | ge =>
      simp only [ofRows, List.filterMap_cons, hs, List.length_cons]
      omega
    | eq =>
      simp only [ofRows, List.filterMap_cons, hs, List.length_cons]
      omega

theorem ofRows_map_some [Neg κ] (rows : List (Row κ)) :
    ofRows (Option.map Neg.neg) (rows.map (Row.map some)) = (ofRows Neg.neg rows).map some := by
  unfold ofRows map
  simp only [List.filterMap_map, List.map_filterMap]
  congr 1
  · refine List.filterMap_congr fun r _ => ?_
    simp only [Function.comp_apply, Row.map]
    cases r.sign <;> rfl
  · refine List.filterMap_congr fun r _ => ?_
    simp only [Function.comp_apply, Row.map]
    cases r.sign <;> rfl

/-- No negation meets a blank if there is none. -/
theorem ofEnteredRows_map_some [Scalar α] (rows : List (Row α)) :
    ofEnteredRows (rows.map (Row.map some)) = .ok ((ofRows Neg.neg rows).map some) := by
  have hblank : (rows.map (Row.map some)).any
      (fun r => r.sign = .ge && !r.blanks.isEmpty) = false := by
    rw [List.any_eq_false]
    intro r hr
    obtain ⟨row, -, rfl⟩ := List.mem_map.mp hr
    simp [Row.blanks, Row.map]
  rw [ofEnteredRows, hblank, ofRows_map_some]
  rfl

end MatrixForm

namespace Problem

/-- The matrices and the half-planes of a valid draft are built from its entries without a fault.
Every row stands in one of the two matrices, and a point satisfies both of them together with the
signs of the variables exactly if it satisfies all half-planes. -/
theorem matrices_describe_halfPlanes {d : Draft ℚ} {p : Problem ℚ} (hd : d.check = .ok p) :
    MatrixForm.ofEnteredRows d.constraints =
      .ok ((LinearProgram.ofProblem p).matrices.map some) ∧
    CornerPoint.enteredHalfPlanes d.enteredRows = .ok (CornerPoint.halfPlanes p.rows) ∧
    (∀ q : Point ℚ, (LinearProgram.ofProblem p).Admits q ↔
      q.satisfies 0 (CornerPoint.halfPlanes p.rows)) ∧
    (LinearProgram.ofProblem p).matrices.upper.length +
      (LinearProgram.ofProblem p).matrices.equal.length = d.constraints.length := by
  obtain rfl := eq_map_of_check hd
  refine ⟨MatrixForm.ofEnteredRows_map_some p.constraints, ?_, fun q => ?_, ?_⟩
  · rw [enteredRows_map_some, enteredHalfPlanes_map_some]
  · rw [LinearProgram.admits_ofProblem_iff, feasible_iff, Point.satisfies_iff]
    simp only [Row.holdsWithin_zero]
  · rw [map, List.length_map]
    exact MatrixForm.length_ofRows Neg.neg p.constraints

/-- A sample with a row of each sign and one variable that may not be negative. -/
def mixed : Problem ℚ :=
  { objective := ⟨1, 2⟩
    constraints :=
      [{ a := 1, b := 1, sign := .le, c := 4 }, { a := 2, b := -1, sign := .ge, c := -1 },
       { a := 1, b := -3, sign := .eq, c := -2 }]
    nonnegX := true }

theorem mixed_described : (mixed.map some).check = .ok mixed ∧
    MatrixForm.ofEnteredRows (mixed.map some).constraints =
      .ok ⟨[⟨some 1, some 1, some 4⟩, ⟨some (-2), some 1, some 1⟩],
        [⟨some 1, some (-3), some (-2)⟩]⟩ ∧
    (LinearProgram.ofProblem mixed).Admits ⟨1, 1⟩ ∧
    ¬(LinearProgram.ofProblem mixed).Admits ⟨4, 2⟩ := by
  have hcheck : (mixed.map some).check = .ok mixed := by decide +kernel
  obtain ⟨hmatrices, -, hregion, -⟩ := matrices_describe_halfPlanes hcheck
  refine ⟨hcheck, hmatrices, (hregion _).mpr (by decide +kernel), ?_⟩
  rw [hregion]
  decide +kernel

end Problem

end CornerPoint
