import CornerPoint.Sorting.Search

/-!
Merging two neighbouring runs. Members are taken one by one from either run; once a run has supplied
several in succession, whole stretches are looked for instead.
-/
namespace CornerPoint.Sorting

variable {β : Type}

/-- A merge under way: what has been merged, with the latest first, and what is left of both runs.
-/
structure Merge (β : Type) where
  merged : List β
  p : List β
  q : List β

namespace Merge

def size (m : Merge β) : Nat := m.p.length + m.q.length

/-- The last member of `p` is known to come after all of `q`, so that the merge is over when it is
the only one left. -/
def isOver (m : Merge β) : Bool := m.p.tail.isEmpty || m.q.isEmpty

def result (m : Merge β) : List β := m.merged.reverse ++ m.q ++ m.p

/-- Take the members of `p` that come before the next one of `q`, and then that one. The number is
that of the members of `p`. -/
def stretchP (qFirst : β → β → Bool) (e : End) (m : Merge β) : Nat × Merge β :=
  match m.q with
  | [] => (0, m)
  | y :: q =>
    let k := gallop e (fun x => !qFirst x y) m.p
    let moved : Merge β := ⟨(m.p.take k).reverse ++ m.merged, m.p.drop k, y :: q⟩
    (k, if moved.isOver then moved else ⟨y :: moved.merged, moved.p, q⟩)

/-- Take the members of `q` that come before the next one of `p`, and then that one. The number is
that of the members of `q`. -/
def stretchQ (qFirst : β → β → Bool) (e : End) (m : Merge β) : Nat × Merge β :=
  match m.p with
  | [] => (0, m)
  | x :: p =>
    let k := gallop e (qFirst x) m.q
    let moved : Merge β := ⟨(m.q.take k).reverse ++ m.merged, x :: p, m.q.drop k⟩
    (k, if moved.isOver then moved else ⟨x :: moved.merged, p, moved.q⟩)

/-- A stretch of at least this many members is worth looking for. -/
def longStretch : Nat := 7

/-- A stretch of either run, the left run's first. The flag tells whether one of them was long. -/
def stretches (qFirst : β → β → Bool) (e : End) (m : Merge β) : Bool × Merge β :=
  let (first, second) := match e with
    | .front => (stretchP qFirst e, stretchQ qFirst e)
    | .back => (stretchQ qFirst e, stretchP qFirst e)
  let (k, m) := first m
  if m.isOver then (false, m)
  else
    let (l, m) := second m
    (longStretch ≤ k || longStretch ≤ l, m)

theorem size_stretchP_lt (qFirst : β → β → Bool) (e : End) {m : Merge β} (h : m.isOver = false) :
    (stretchP qFirst e m).2.size < m.size := by
  obtain ⟨merged, p, q⟩ := m
  simp only [isOver, Bool.or_eq_false_iff] at h
  cases q with
  | nil => simp at h
  | cons y q =>
    simp only [stretchP, size]
    generalize gallop e (fun x => !qFirst x y) p = k
    cases k with
    | zero => simp [isOver, h.1]
    | succ k =>
      have hp : p ≠ [] := by
        intro hp
        simp [hp] at h
      have := List.length_pos_iff.mpr hp
      split <;> simp only [List.length_drop, List.length_cons] <;> omega

theorem size_stretchQ_lt (qFirst : β → β → Bool) (e : End) {m : Merge β} (h : m.isOver = false) :
    (stretchQ qFirst e m).2.size < m.size := by
  obtain ⟨merged, p, q⟩ := m
  simp only [isOver, Bool.or_eq_false_iff] at h
  cases p with
  | nil => simp at h
  | cons x p =>
    simp only [stretchQ, size]
    generalize gallop e (qFirst x) q = k
    cases k with
    | zero => simp_all [isOver]
    | succ k =>
      have hq : q ≠ [] := by
        intro hq
        simp [hq] at h
      have := List.length_pos_iff.mpr hq
      split <;> simp only [List.length_drop, List.length_cons] <;> omega

theorem size_stretches_lt (qFirst : β → β → Bool) (e : End) {m : Merge β} (h : m.isOver = false) :
    (stretches qFirst e m).2.size < m.size := by
  have hp := size_stretchP_lt qFirst e h
  have hq := size_stretchQ_lt qFirst e h
  cases e with
  | front =>
    simp only [stretches]
    split
    · exact hp
    · rename_i ho
      have := size_stretchQ_lt qFirst .front (Bool.eq_false_iff.mpr ho)
      simp only
      omega
  | back =>
    simp only [stretches]
    split
    · exact hq
    · rename_i ho
      have := size_stretchP_lt qFirst .back (Bool.eq_false_iff.mpr ho)
      simp only
      omega

mutual

/-- Take members one by one, and go over to stretches when one run has supplied `patience` members
in succession. The counts are those of the latest succession. -/
def oneByOne (qFirst : β → β → Bool) (e : End) (patience countP countQ : Nat) (m : Merge β) :
    List β × Nat :=
  if m.isOver then (m.result, patience)
  else if patience ≤ countP || patience ≤ countQ then byStretches qFirst e patience m
  else
    match m with
    | ⟨merged, x :: p, y :: q⟩ =>
      if qFirst x y then oneByOne qFirst e patience 0 (countQ + 1) ⟨y :: merged, x :: p, q⟩
      else oneByOne qFirst e patience (countP + 1) 0 ⟨x :: merged, p, y :: q⟩
    | m => (m.result, patience)
termination_by (m.size, 1)
decreasing_by
  · decreasing_tactic
  · simp only [size, List.length_cons]
    omega
  · simp only [size, List.length_cons]
    omega

/-- Take stretch after stretch for as long as some are long. Each further round lowers the patience
for the members to come, and the end of the last round raises it. -/
def byStretches (qFirst : β → β → Bool) (e : End) (patience : Nat) (m : Merge β) :
    List β × Nat :=
  if h : m.isOver then (m.result, patience)
  else
    let next := stretches qFirst e m
    if next.2.isOver then (next.2.result, patience)
    else if next.1 then byStretches qFirst e (max 1 (patience - 1)) next.2
    else oneByOne qFirst e (patience + 1) 0 0 next.2
termination_by (m.size, 0)
decreasing_by
  all_goals exact Prod.Lex.left _ _ (size_stretches_lt _ _ (Bool.eq_false_iff.mpr h))

end

end Merge

/-- Merge from the front: the first member of `q` is known to come before all of `p`. -/
def mergeFront (lt : β → β → Bool) (patience : Nat) (p q : List β) : List β × Nat :=
  Merge.oneByOne (fun x y => lt y x) .front patience 0 0 ⟨q.take 1, p, q.drop 1⟩

/-- Merge from the back, with both runs in reverse. -/
def mergeBack (lt : β → β → Bool) (patience : Nat) (left right : List β) : List β × Nat :=
  let q := left.reverse
  let (merged, patience) :=
    Merge.oneByOne (fun x y => lt x y) .back patience 0 0 ⟨q.take 1, right.reverse, q.drop 1⟩
  (merged.reverse, patience)

/-- Merge two runs. Members of the left run that come before all of the right one, and members of
the right run that come after all of the left one, are in place already. -/
def mergeRuns (lt : β → β → Bool) (patience : Nat) (left right : List β) : List β × Nat :=
  match right.head? with
  | none => (left, patience)
  | some b =>
    let settled := gallop .front (fun x => !lt b x) left
    match left.getLast? with
    | none => (right, patience)
    | some a =>
      let loose := left.drop settled
      if loose.isEmpty then (left ++ right, patience)
      else
        let reach := right.length - gallop .back (fun x => !lt x a) right.reverse
        let inner := right.take reach
        if inner.isEmpty then (left ++ right, patience)
        else
          let (merged, patience) :=
            if loose.length ≤ inner.length then mergeFront lt patience loose inner
            else mergeBack lt patience loose inner
          (left.take settled ++ merged ++ right.drop reach, patience)

end CornerPoint.Sorting
