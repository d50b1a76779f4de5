import CornerPoint.Sorting
import Mathlib.Data.List.Perm.Basic

/-!
The sort loses and repeats no member, whatever the comparison says: searches only decide where a
list is cut, and merges only decide from which run the next member is taken. So this also holds of
comparisons that contradict themselves, as those of undefined numbers do.
-/
namespace CornerPoint.Sorting

variable {β : Type} (lt : β → β → Bool)

theorem insert_perm (b : β) (xs : List β) : (insert lt b xs).Perm (b :: xs) := by
  unfold insert
  generalize bisect .front (fun x => !lt b x) xs 0 xs.length = place
  refine List.perm_middle.trans ?_
  rw [List.take_append_drop]

theorem insertAll_perm (bs run : List β) :
    (bs.foldl (fun sorted b => insert lt b sorted) run).Perm (run ++ bs) := by
  induction bs generalizing run with
  | nil => simp
  | cons b bs ih =>
    refine (ih (insert lt b run)).trans (((insert_perm lt b run).append_right bs).trans ?_)
    exact List.perm_middle.symm

theorem headRun_perm (xs : List β) : ((headRun lt xs).1 ++ (headRun lt xs).2).Perm xs := by
  match xs with
  | [] => exact List.Perm.refl _
  | [a] => exact List.Perm.refl _
  | a :: b :: rest =>
    simp only [headRun]
    split
    · refine ((List.reverse_perm _).append_right _).trans (List.Perm.of_eq ?_)
      rw [List.cons_append, List.cons_append, splitRun_append]
    · rw [List.cons_append, List.cons_append, splitRun_append]

theorem nextRun_perm (least : ℕ) (xs : List β) :
    ((nextRun lt least xs).1 ++ (nextRun lt least xs).2).Perm xs := by
  unfold nextRun
  refine ((insertAll_perm lt _ _).append_right _).trans ?_
  rw [List.append_assoc, List.take_append_drop]
  exact headRun_perm lt xs

theorem runs_perm (least : ℕ) (xs : List β) : (runs lt least xs).flatten.Perm xs := by
  fun_induction runs lt least xs with
  | case1 xs hempty =>
    rw [List.isEmpty_iff.mp hempty]
    exact List.Perm.refl _
  | case2 xs hempty ih =>
    exact (ih.append_left _).trans (nextRun_perm lt least xs)

namespace Merge

variable {merged p q : List β}

theorem result_takeP (xs : List β) :
    (⟨xs.reverse ++ merged, p, q⟩ : Merge β).result.Perm
      (⟨merged, xs ++ p, q⟩ : Merge β).result := by
  simp only [result, List.reverse_append, List.reverse_reverse, List.append_assoc]
  exact (List.perm_append_comm_assoc xs q p).append_left _

theorem result_takeQ (ys : List β) :
    (⟨ys.reverse ++ merged, p, q⟩ : Merge β).result =
      (⟨merged, p, ys ++ q⟩ : Merge β).result := by
  simp only [result, List.reverse_append, List.reverse_reverse, List.append_assoc]

variable (qFirst : β → β → Bool) (e : End)

theorem stretchP_perm (m : Merge β) : (stretchP qFirst e m).2.result.Perm m.result := by
  obtain ⟨merged, p, q⟩ := m
  cases q with
  | nil => exact List.Perm.refl _
  | cons y q =>
    simp only [stretchP]
    generalize gallop e (fun x => !qFirst x y) p = k
    have hmoved : (⟨(p.take k).reverse ++ merged, p.drop k, y :: q⟩ : Merge β).result.Perm
        (⟨merged, p, y :: q⟩ : Merge β).result := by
      refine (result_takeP (p.take k)).trans (List.Perm.of_eq ?_)
      rw [List.take_append_drop]
    split
    · exact hmoved
    · exact (List.Perm.of_eq (result_takeQ [y])).trans hmoved

theorem stretchQ_perm (m : Merge β) : (stretchQ qFirst e m).2.result.Perm m.result := by
  obtain ⟨merged, p, q⟩ := m
  cases p with
  | nil => exact List.Perm.refl _
  | cons x p =>
    simp only [stretchQ]
    generalize gallop e (qFirst x) q = k
    have hmoved : (⟨(q.take k).reverse ++ merged, x :: p, q.drop k⟩ : Merge β).result =
        (⟨merged, x :: p, q⟩ : Merge β).result := by
      rw [result_takeQ, List.take_append_drop]
    split
    · exact List.Perm.of_eq hmoved
    · exact (result_takeP [x]).trans (List.Perm.of_eq hmoved)

theorem stretches_perm (m : Merge β) : (stretches qFirst e m).2.result.Perm m.result := by
  cases e with
  | front =>
    simp only [stretches]
    split
    · exact stretchP_perm qFirst .front m
    · exact (stretchQ_perm qFirst .front _).trans (stretchP_perm qFirst .front m)
  | back =>
    simp only [stretches]
    split
    · exact stretchQ_perm qFirst .back m
    · exact (stretchP_perm qFirst .back _).trans (stretchQ_perm qFirst .back m)

/-- However often a merge goes over from single members to stretches and back. -/
theorem merge_perm :
    (∀ patience countP countQ m, (oneByOne qFirst e patience countP countQ m).1.Perm m.result) ∧
    (∀ patience m, (byStretches qFirst e patience m).1.Perm m.result) := by
  apply oneByOne.mutual_induct
  case case1 =>
    intro patience countP countQ m hover
    rw [oneByOne.eq_def, if_pos hover]
  case case2 =>
    intro patience countP countQ m hover hlong ih
    rw [oneByOne.eq_def, if_neg hover, if_pos hlong]
    exact ih
  case case3 =>
    intro patience countP countQ hlong merged x p y q hyx hover ih
    rw [oneByOne, if_neg hover, if_neg hlong, if_pos hyx]
    exact ih.trans (List.Perm.of_eq (result_takeQ [y]))
  case case4 =>
    intro patience countP countQ hlong merged x p y q hyx hover ih
    rw [oneByOne, if_neg hover, if_neg hlong, if_neg hyx]
    exact ih.trans (result_takeP [x])
  case case5 =>
    intro patience countP countQ hlong m hempty hover
    -- An empty run would have ended the merge.
    obtain ⟨merged, p, q⟩ := m
    cases p with
    | nil => simp [isOver] at hover
    | cons x p =>
      cases q with
      | nil => simp [isOver] at hover
      | cons y q => exact (hempty merged x p y q rfl).elim
  case case6 =>
    intro patience m hover
    rw [byStretches, dif_pos hover]
  case case7 =>
    intro patience m hover next hnext
    rw [byStretches, dif_neg hover, if_pos hnext]
    exact stretches_perm qFirst e m
  case case8 =>
    intro patience m hover next hnext hlong ih
    rw [byStretches, dif_neg hover, if_neg hnext, if_pos hlong]
    exact ih.trans (stretches_perm qFirst e m)
  case case9 =>
    intro patience m hover next hnext hlong ih
    rw [byStretches, dif_neg hover, if_neg hnext, if_neg hlong]
    exact ih.trans (stretches_perm qFirst e m)

end Merge

theorem mergeFront_perm (patience : ℕ) (p q : List β) :
    (mergeFront lt patience p q).1.Perm (p ++ q) := by
  refine ((Merge.merge_perm _ .front).1 patience 0 0 _).trans ?_
  cases q with
  | nil => exact List.Perm.of_eq (by simp [Merge.result])
  | cons y q => exact List.perm_append_comm

theorem mergeBack_perm (patience : ℕ) (left right : List β) :
    (mergeBack lt patience left right).1.Perm (left ++ right) := by
  have h := (Merge.merge_perm (fun x y => lt x y) .back).1 patience 0 0
    ⟨left.reverse.take 1, right.reverse, left.reverse.drop 1⟩
  have hstart : (⟨left.reverse.take 1, right.reverse, left.reverse.drop 1⟩ : Merge β).result =
      (right ++ left).reverse := by
    rw [List.reverse_append]
    cases left.reverse <;> simp [Merge.result]
  rw [hstart] at h
  exact (List.reverse_perm _).trans (h.trans ((List.reverse_perm _).trans List.perm_append_comm))

theorem mergeRuns_perm (patience : ℕ) (left right : List β) :
    (mergeRuns lt patience left right).1.Perm (left ++ right) := by
  unfold mergeRuns
  split
  · rename_i hb
    rw [List.head?_eq_none_iff.mp hb, List.append_nil]
  rename_i b hb
  simp only
  split
  · rename_i ha
    rw [List.getLast?_eq_none_iff.mp ha, List.nil_append]
  rename_i a ha
  generalize gallop .front (fun x => !lt b x) left = k
  generalize right.length - gallop .back (fun x => !lt x a) right.reverse = n
  split
  · exact List.Perm.refl _
  split
  · exact List.Perm.refl _
  -- Wherever the two cuts fall, the parts make up both runs.
  have hparts : left.take k ++ (left.drop k ++ right.take n) ++ right.drop n = left ++ right := by
    rw [← List.append_assoc, List.take_append_drop, List.append_assoc, List.take_append_drop]
  rw [← hparts]
  refine List.Perm.append_right _ (List.Perm.append_left _ ?_)
  split
  · exact mergeFront_perm lt patience _ _
  · exact mergeBack_perm lt patience _ _

theorem settle_perm (depth patience : ℕ) (top : Pending β) (rest : List (Pending β)) :
    ((settle lt depth patience top rest).pending.flatMap (·.run)).Perm
      ((top :: rest).flatMap (·.run)) := by
  fun_induction settle lt depth patience top rest with
  | case1 patience top => exact List.Perm.refl _
  | case2 patience top below rest hdeep run patience' hmerge ih =>
    have hm := mergeRuns_perm lt patience below.run top.run
    rw [hmerge] at hm
    refine ih.trans ?_
    simp only [List.flatMap_cons]
    rw [← List.append_assoc]
    exact (hm.trans List.perm_append_comm).append_right _
  | case3 patience top below rest hdeep => exact List.Perm.refl _

theorem push_perm (n : ℕ) (s : Stack β) (run : List β) :
    ((push lt n s run).pending.flatMap (·.run)).Perm (run ++ s.pending.flatMap (·.run)) := by
  unfold push
  split
  · rename_i hempty
    rw [hempty]
    exact List.Perm.refl _
  · rename_i top rest hp
    rw [hp]
    exact (settle_perm lt _ s.patience top rest).append_left run

theorem pushAll_perm (n : ℕ) (rs : List (List β)) (s : Stack β) :
    ((rs.foldl (push lt n) s).pending.flatMap (·.run)).Perm
      (s.pending.flatMap (·.run) ++ rs.flatten) := by
  induction rs generalizing s with
  | nil => simp
  | cons run rs ih =>
    refine (ih (push lt n s run)).trans ?_
    rw [List.flatten_cons, ← List.append_assoc]
    exact ((push_perm lt n s run).trans List.perm_append_comm).append_right _

theorem mergeAll_perm (patience : ℕ) (waiting : List (List β)) :
    (mergeAll lt patience waiting).Perm waiting.flatten := by
  fun_induction mergeAll lt patience waiting with
  | case1 patience => exact List.Perm.refl _
  | case2 patience top => simp
  | case3 patience top second =>
    simpa using (mergeRuns_perm lt patience second top).trans List.perm_append_comm
  | case4 patience top second third rest hshort run patience' hmerge ih =>
    have hm := mergeRuns_perm lt patience third second
    rw [hmerge] at hm
    refine ih.trans ?_
    simp only [List.flatten_cons]
    refine List.Perm.append_left top ?_
    rw [← List.append_assoc]
    exact (hm.trans List.perm_append_comm).append_right _
  | case5 patience top second third rest hshort run patience' hmerge ih =>
    have hm := mergeRuns_perm lt patience second top
    rw [hmerge] at hm
    refine ih.trans ?_
    simp only [List.flatten_cons]
    rw [← List.append_assoc top second]
    exact (hm.trans List.perm_append_comm).append_right _

theorem sort_perm (xs : List β) : (sort lt xs).Perm xs := by
  unfold sort
  refine (mergeAll_perm lt _ _).trans ?_
  rw [← List.flatMap_def]
  exact (pushAll_perm lt _ _ _).trans (runs_perm lt _ xs)

theorem sortDescending_perm (xs : List β) : (sortDescending lt xs).Perm xs :=
  (List.reverse_perm _).trans ((sort_perm lt _).trans (List.reverse_perm xs))

end CornerPoint.Sorting
