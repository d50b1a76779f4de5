import CornerPoint.Proofs.Enumeration
import CornerPoint.Proofs.Matches

/-!
How the crossings of a list of lines depend on the list. Two lines meet in the same point whichever
comes first and whatever sign their coefficients are written with, and a line does not meet itself.
So the order of the lines only reorders the crossings, a negated line leaves them as they are, and a
line that is written twice in succession only repeats some of them.
-/
namespace CornerPoint.Line

variable {eps : ℚ}

/-- Where two lines meet, unless they count as parallel. -/
def meet? (eps : ℚ) (l m : Line ℚ) : Option (Point ℚ) :=
  if |l.det m| < eps then none else some (l.solution m)

theorem crossingPoints_cons (eps : ℚ) (l : Line ℚ) (rest : List (Line ℚ)) :
    crossingPoints eps (l :: rest) = rest.filterMap (meet? eps l) ++ crossingPoints eps rest := by
  unfold crossingPoints
  rw [pairs, List.filterMap_append, List.filterMap_map]
  rfl

def negated (l : Line ℚ) : Line ℚ := ⟨-l.a, -l.b, -l.c⟩

theorem solution_comm (l m : Line ℚ) : m.solution l = l.solution m := by
  change (⟨(m.c * l.b - l.c * m.b) / m.det l, (m.a * l.c - l.a * m.c) / m.det l⟩ : Point ℚ) =
    ⟨(l.c * m.b - m.c * l.b) / l.det m, (l.a * m.c - m.a * l.c) / l.det m⟩
  rw [det_comm, ← neg_sub (l.c * m.b), ← neg_sub (l.a * m.c), neg_div_neg_eq, neg_div_neg_eq]

theorem meet?_comm (eps : ℚ) (l m : Line ℚ) : meet? eps m l = meet? eps l m := by
  rw [meet?, meet?, det_comm, abs_neg, solution_comm]

theorem det_negated (l m : Line ℚ) : l.negated.det m = -l.det m := by
  simp only [det_rat, negated]
  ring

theorem solution_negated (l m : Line ℚ) : l.negated.solution m = l.solution m := by
  change (⟨(-l.c * m.b - m.c * -l.b) / l.negated.det m,
      (-l.a * m.c - m.a * -l.c) / l.negated.det m⟩ : Point ℚ) =
    ⟨(l.c * m.b - m.c * l.b) / l.det m, (l.a * m.c - m.a * l.c) / l.det m⟩
  have hx : -l.c * m.b - m.c * -l.b = -(l.c * m.b - m.c * l.b) := by ring
  have hy : -l.a * m.c - m.a * -l.c = -(l.a * m.c - m.a * l.c) := by ring
  rw [det_negated, hx, hy, neg_div_neg_eq, neg_div_neg_eq]

theorem meet?_negated (eps : ℚ) (l m : Line ℚ) : meet? eps l.negated m = meet? eps l m := by
  rw [meet?, meet?, det_negated, abs_neg, solution_negated]

theorem meet?_self (heps : 0 < eps) (l : Line ℚ) : meet? eps l l = none := by
  have hdet : l.det l = 0 := sub_self _
  rw [meet?, hdet, abs_zero, if_pos heps]

theorem crossingPoints_perm {lines others : List (Line ℚ)} (h : lines.Perm others) :
    (crossingPoints eps lines).Perm (crossingPoints eps others) := by
  induction h with
  | nil => exact List.Perm.refl _
  | cons l h ih =>
    rw [crossingPoints_cons, crossingPoints_cons]
    exact (h.filterMap (meet? eps l)).append ih
  | swap l m rest =>
    simp only [crossingPoints_cons, List.filterMap_cons, meet?_comm eps l m]
    cases meet? eps l m with
    | none => exact List.perm_append_comm_assoc ..
    | some q => exact (List.perm_append_comm_assoc ..).cons q
  | trans _ _ ih ih' => exact ih.trans ih'

theorem crossingPoints_negated (l : Line ℚ) (before after : List (Line ℚ)) :
    crossingPoints eps (before ++ l.negated :: after) =
      crossingPoints eps (before ++ l :: after) := by
  induction before with
  | nil =>
    simp only [List.nil_append, crossingPoints_cons]
    rw [funext (meet?_negated eps l)]
  | cons m before ih =>
    have hm : meet? eps m l.negated = meet? eps m l := by
      calc meet? eps m l.negated = meet? eps l.negated m := meet?_comm ..
        _ = meet? eps l m := meet?_negated ..
        _ = meet? eps m l := meet?_comm ..
    simp only [List.cons_append, crossingPoints_cons, ih, List.filterMap_append,
      List.filterMap_cons, hm]

theorem crossingPoints_repeated (heps : 0 < eps) (l : Line ℚ) (before after : List (Line ℚ)) :
    SameMatches (crossingPoints eps (before ++ l :: l :: after))
      (crossingPoints eps (before ++ l :: after)) := by
  induction before with
  | nil =>
    simp only [List.nil_append, crossingPoints_cons, List.filterMap_cons, meet?_self heps l]
    rw [← List.append_assoc]
    exact (SameMatches.twice _).append (SameMatches.refl _)
  | cons m before ih =>
    rw [List.cons_append, List.cons_append, crossingPoints_cons, crossingPoints_cons]
    have hlines : SameMatches (before ++ l :: l :: after) (before ++ l :: after) :=
      (SameMatches.refl before).append ((SameMatches.twice [l]).append (SameMatches.refl after))
    exact (hlines.filterMap (meet? eps m)).append ih

end CornerPoint.Line
