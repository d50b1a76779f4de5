import CornerPoint.Sorting
import Mathlib.Data.Nat.Notation

/-!
The sort sees its members through the comparison only: to rename the members and then to sort them
is to sort them by their new names and then to rename. Each stage commutes with a renaming `f`, from
the searches up to the merge of all runs.
-/
namespace CornerPoint.Sorting

variable {β γ : Type} (f : γ → β)

section Searches

variable (e : End) (passes : β → Bool) (xs : List γ)

theorem any_getElem?_map (i : ℕ) :
    (xs.map f)[i]?.any passes = xs[i]?.any fun c => passes (f c) := by
  rw [List.getElem?_map, Option.any_map]

theorem bisect_map (lo hi : ℕ) :
    bisect e passes (xs.map f) lo hi = bisect e (fun c => passes (f c)) xs lo hi := by
  fun_induction bisect e (fun c => passes (f c)) xs lo hi with
  | case1 lo hi hlt mid hpass ih =>
    rw [bisect, if_pos hlt]
    simp only [any_getElem?_map]
    rw [if_pos hpass]
    exact ih
  | case2 lo hi hlt mid hpass ih =>
    rw [bisect, if_pos hlt]
    simp only [any_getElem?_map]
    rw [if_neg hpass]
    exact ih
  | case3 lo hi hlt => rw [bisect, if_neg hlt]

theorem stride_map (last next : ℕ) :
    stride passes (xs.map f) last next = stride (fun c => passes (f c)) xs last next := by
  fun_induction stride (fun c => passes (f c)) xs last next with
  | case1 last next hlt hpass ih =>
    rw [stride, List.length_map, if_pos hlt, any_getElem?_map, if_pos hpass, ih]
  | case2 last next hlt hpass =>
    rw [stride, List.length_map, if_pos hlt, any_getElem?_map, if_neg hpass]
  | case3 last next hlt => rw [stride, List.length_map, if_neg hlt]

theorem gallop_map : gallop e passes (xs.map f) = gallop e (fun c => passes (f c)) xs := by
  have hhead : (xs.map f).head?.any passes = xs.head?.any fun c => passes (f c) := by
    rw [List.head?_map, Option.any_map]
  simp only [gallop, hhead, stride_map, bisect_map]

end Searches

section Runs

variable (lt : β → β → Bool)

theorem insert_map (c : γ) (xs : List γ) :
    insert lt (f c) (xs.map f) = (insert (fun a b => lt (f a) (f b)) c xs).map f := by
  simp only [insert, bisect_map, List.length_map, List.map_append, List.map_cons, List.map_take,
    List.map_drop]

theorem splitRun_map (follows : β → β → Bool) (last : γ) (xs : List γ) :
    splitRun follows (f last) (xs.map f) =
      ((splitRun (fun a b => follows (f a) (f b)) last xs).1.map f,
        (splitRun (fun a b => follows (f a) (f b)) last xs).2.map f) := by
  induction xs generalizing last with
  | nil => rfl
  | cons c xs ih =>
    simp only [List.map_cons, splitRun, ih]
    split <;> rfl

theorem headRun_map (xs : List γ) :
    headRun lt (xs.map f) =
      ((headRun (fun a b => lt (f a) (f b)) xs).1.map f,
        (headRun (fun a b => lt (f a) (f b)) xs).2.map f) := by
  match xs with
  | [] => rfl
  | [c] => rfl
  | c :: d :: xs =>
    simp only [List.map_cons, headRun, splitRun_map]
    split
    · simp only [List.map_reverse, List.map_cons]
    · simp only [List.map_cons]

theorem insertAll_map (cs run : List γ) :
    (cs.map f).foldl (fun sorted b => insert lt b sorted) (run.map f) =
      (cs.foldl (fun sorted c => insert (fun a b => lt (f a) (f b)) c sorted) run).map f := by
  induction cs generalizing run with
  | nil => rfl
  | cons c cs ih => rw [List.map_cons, List.foldl_cons, List.foldl_cons, insert_map, ih]

theorem nextRun_map (least : ℕ) (xs : List γ) :
    nextRun lt least (xs.map f) =
      ((nextRun (fun a b => lt (f a) (f b)) least xs).1.map f,
        (nextRun (fun a b => lt (f a) (f b)) least xs).2.map f) := by
  simp only [nextRun, headRun_map, List.length_map, ← List.map_take, ← List.map_drop,
    insertAll_map]

theorem runs_map (least : ℕ) (xs : List γ) :
    runs lt least (xs.map f) =
      (runs (fun a b => lt (f a) (f b)) least xs).map (List.map f) := by
  fun_induction runs (fun a b => lt (f a) (f b)) least xs with
  | case1 xs hempty =>
    rw [runs, List.isEmpty_map, if_pos hempty]
    rfl
  | case2 xs hempty ih =>
    rw [runs, List.isEmpty_map, if_neg hempty, nextRun_map, ih]
    rfl

end Runs

namespace Merge

def map (m : Merge γ) : Merge β := ⟨m.merged.map f, m.p.map f, m.q.map f⟩

@[simp] theorem isOver_map (m : Merge γ) : (m.map f).isOver = m.isOver := by
  simp only [isOver, map, ← List.map_tail, List.isEmpty_map]

@[simp] theorem result_map (m : Merge γ) : (m.map f).result = m.result.map f := by
  simp only [result, map, List.map_append, List.map_reverse]

variable (qFirst : β → β → Bool) (e : End)

theorem stretchP_map (m : Merge γ) :
    stretchP qFirst e (m.map f) =
      ((stretchP (fun a b => qFirst (f a) (f b)) e m).1,
        (stretchP (fun a b => qFirst (f a) (f b)) e m).2.map f) := by
  obtain ⟨merged, p, q⟩ := m
  cases q with
  | nil => rfl
  | cons y q =>
    simp only [stretchP, map, List.map_cons, gallop_map]
    generalize gallop e (fun c => !qFirst (f c) (f y)) p = k
    have hmoved : (⟨((p.map f).take k).reverse ++ merged.map f, (p.map f).drop k,
        f y :: q.map f⟩ : Merge β) =
        (⟨(p.take k).reverse ++ merged, p.drop k, y :: q⟩ : Merge γ).map f := by
      simp only [map, List.map_append, List.map_reverse, List.map_take, List.map_drop,
        List.map_cons]
    rw [hmoved, isOver_map]
    split
    · rfl
    · simp only [List.map_append, List.map_reverse, List.map_take, List.map_drop, List.map_cons]

theorem stretchQ_map (m : Merge γ) :
    stretchQ qFirst e (m.map f) =
      ((stretchQ (fun a b => qFirst (f a) (f b)) e m).1,
        (stretchQ (fun a b => qFirst (f a) (f b)) e m).2.map f) := by
  obtain ⟨merged, p, q⟩ := m
  cases p with
  | nil => rfl
  | cons x p =>
    simp only [stretchQ, map, List.map_cons, gallop_map]
    generalize gallop e (fun c => qFirst (f x) (f c)) q = k
    have hmoved : (⟨((q.map f).take k).reverse ++ merged.map f, f x :: p.map f,
        (q.map f).drop k⟩ : Merge β) =
        (⟨(q.take k).reverse ++ merged, x :: p, q.drop k⟩ : Merge γ).map f := by
      simp only [map, List.map_append, List.map_reverse, List.map_take, List.map_drop,
        List.map_cons]
    rw [hmoved, isOver_map]
    split
    · rfl
    · simp only [List.map_append, List.map_reverse, List.map_take, List.map_drop, List.map_cons]

theorem stretches_map (m : Merge γ) :
    stretches qFirst e (m.map f) =
      ((stretches (fun a b => qFirst (f a) (f b)) e m).1,
        (stretches (fun a b => qFirst (f a) (f b)) e m).2.map f) := by
  cases e with
  | front =>
    simp only [stretches, stretchP_map, isOver_map, stretchQ_map]
    split <;> rfl
  | back =>
    simp only [stretches, stretchQ_map, isOver_map, stretchP_map]
    split <;> rfl

/-- Both ways of merging, since each may hand over to the other. -/
theorem merge_map :
    (∀ patience countP countQ (m : Merge γ),
      oneByOne qFirst e patience countP countQ (m.map f) =
        ((oneByOne (fun a b => qFirst (f a) (f b)) e patience countP countQ m).1.map f,
          (oneByOne (fun a b => qFirst (f a) (f b)) e patience countP countQ m).2)) ∧
    (∀ patience (m : Merge γ),
      byStretches qFirst e patience (m.map f) =
        ((byStretches (fun a b => qFirst (f a) (f b)) e patience m).1.map f,
          (byStretches (fun a b => qFirst (f a) (f b)) e patience m).2)) := by
  apply oneByOne.mutual_induct
  case case1 =>
    intro patience countP countQ m hover
    have hover' : (m.map f).isOver := by rwa [isOver_map]
    rw [oneByOne.eq_def, if_pos hover', oneByOne.eq_def, if_pos hover, result_map]
  case case2 =>
    intro patience countP countQ m hover hlong ih
    have hover' : ¬(m.map f).isOver := by rwa [isOver_map]
    rw [oneByOne.eq_def, if_neg hover', if_pos hlong, oneByOne.eq_def, if_neg hover, if_pos hlong,
      ih]
  case case3 =>
    intro patience countP countQ hlong merged x p y q hyx hover ih
    have hover' : ¬((⟨merged, x :: p, y :: q⟩ : Merge γ).map f).isOver := by rwa [isOver_map]
    simp only [map, List.map_cons] at hover' ⊢
    rw [oneByOne, if_neg hover', if_neg hlong, if_pos hyx, oneByOne, if_neg hover, if_neg hlong,
      if_pos hyx]
    exact ih
  case case4 =>
    intro patience countP countQ hlong merged x p y q hyx hover ih
    have hover' : ¬((⟨merged, x :: p, y :: q⟩ : Merge γ).map f).isOver := by rwa [isOver_map]
    simp only [map, List.map_cons] at hover' ⊢
    rw [oneByOne, if_neg hover', if_neg hlong, if_neg hyx, oneByOne, if_neg hover, if_neg hlong,
      if_neg hyx]
    exact ih
  case case5 =>
    intro patience countP countQ hlong m hempty hover
    obtain ⟨merged, p, q⟩ := m
    cases p with
    | nil => simp [isOver] at hover
    | cons x p =>
      cases q with
      | nil => simp [isOver] at hover
      | cons y q => exact (hempty merged x p y q rfl).elim
  case case6 =>
    intro patience m hover
    have hover' : (m.map f).isOver := by rwa [isOver_map]
    rw [byStretches, dif_pos hover', byStretches, dif_pos hover, result_map]
  case case7 =>
    intro patience m hover next hnext
    have hover' : ¬(m.map f).isOver := by rwa [isOver_map]
    rw [byStretches, dif_neg hover', byStretches, dif_neg hover]
    simp only [stretches_map, isOver_map]
    rw [if_pos hnext, if_pos hnext, result_map]
  case case8 =>
    intro patience m hover next hnext hlong ih
    have hover' : ¬(m.map f).isOver := by rwa [isOver_map]
    rw [byStretches, dif_neg hover', byStretches, dif_neg hover]
    simp only [stretches_map, isOver_map]
    rw [if_neg hnext, if_pos hlong, if_neg hnext, if_pos hlong]
    exact ih
  case case9 =>
    intro patience m hover next hnext hlong ih
    have hover' : ¬(m.map f).isOver := by rwa [isOver_map]
    rw [byStretches, dif_neg hover', byStretches, dif_neg hover]
    simp only [stretches_map, isOver_map]
    rw [if_neg hnext, if_neg hlong, if_neg hnext, if_neg hlong]
    exact ih

end Merge

section Merges

variable (lt : β → β → Bool) (patience : ℕ)

theorem mergeFront_map (p q : List γ) :
    mergeFront lt patience (p.map f) (q.map f) =
      ((mergeFront (fun a b => lt (f a) (f b)) patience p q).1.map f,
        (mergeFront (fun a b => lt (f a) (f b)) patience p q).2) := by
  have h := (Merge.merge_map f (fun x y => lt y x) .front).1 patience 0 0 ⟨q.take 1, p, q.drop 1⟩
  simp only [Merge.map, List.map_take, List.map_drop] at h
  exact h

theorem mergeBack_map (left right : List γ) :
    mergeBack lt patience (left.map f) (right.map f) =
      ((mergeBack (fun a b => lt (f a) (f b)) patience left right).1.map f,
        (mergeBack (fun a b => lt (f a) (f b)) patience left right).2) := by
  have h := (Merge.merge_map f (fun x y => lt x y) .back).1 patience 0 0
    ⟨left.reverse.take 1, right.reverse, left.reverse.drop 1⟩
  simp only [Merge.map, List.map_take, List.map_drop, List.map_reverse] at h
  simp only [mergeBack, h, List.map_reverse]

theorem mergeRuns_map (left right : List γ) :
    mergeRuns lt patience (left.map f) (right.map f) =
      ((mergeRuns (fun a b => lt (f a) (f b)) patience left right).1.map f,
        (mergeRuns (fun a b => lt (f a) (f b)) patience left right).2) := by
  unfold mergeRuns
  rw [List.head?_map, List.getLast?_map]
  cases right.head? with
  | none => rfl
  | some b =>
    cases left.getLast? with
    | none => rfl
    | some a =>
      simp only [Option.map_some, gallop_map, ← List.map_reverse, List.length_map,
        ← List.map_take, ← List.map_drop, List.isEmpty_map, mergeFront_map, mergeBack_map]
      split
      · rw [List.map_append]
      split
      · rw [List.map_append]
      split
      · simp only [List.map_append]
      · simp only [List.map_append]

end Merges

def Pending.map (r : Pending γ) : Pending β := ⟨r.start, r.run.map f, r.depth⟩

theorem Pending.depth_map (r : Pending γ) : (r.map f).depth = r.depth := rfl

theorem Pending.run_map (r : Pending γ) : (r.map f).run = r.run.map f := rfl

def Stack.map (s : Stack γ) : Stack β := ⟨s.pending.map (Pending.map f), s.patience⟩

section Stacks

variable (lt : β → β → Bool)

theorem settle_map (depth patience : ℕ) (top : Pending γ) (rest : List (Pending γ)) :
    settle lt depth patience (top.map f) (rest.map (Pending.map f)) =
      (settle (fun a b => lt (f a) (f b)) depth patience top rest).map f := by
  fun_induction settle (fun a b => lt (f a) (f b)) depth patience top rest with
  | case1 patience top => rfl
  | case2 patience top below rest hdeep run patience' hmerge ih =>
    have hruns := mergeRuns_map f lt patience below.run top.run
    rw [hmerge] at hruns
    rw [List.map_cons, settle, Pending.depth_map, if_pos hdeep, Pending.run_map, Pending.run_map,
      hruns]
    exact ih
  | case3 patience top below rest hdeep =>
    rw [List.map_cons, settle, Pending.depth_map, if_neg hdeep]
    rfl

theorem push_map (n : ℕ) (s : Stack γ) (run : List γ) :
    push lt n (s.map f) (run.map f) = (push (fun a b => lt (f a) (f b)) n s run).map f := by
  obtain ⟨pending, patience⟩ := s
  cases pending with
  | nil => rfl
  | cons top rest =>
    simp only [push, Stack.map, List.map_cons, settle_map]
    simp only [Pending.map, List.length_map]

theorem pushAll_map (n : ℕ) (rs : List (List γ)) (s : Stack γ) :
    (rs.map (List.map f)).foldl (push lt n) (s.map f) =
      (rs.foldl (push (fun a b => lt (f a) (f b)) n) s).map f := by
  induction rs generalizing s with
  | nil => rfl
  | cons run rs ih => rw [List.map_cons, List.foldl_cons, List.foldl_cons, push_map, ih]

theorem mergeAll_map (patience : ℕ) (waiting : List (List γ)) :
    mergeAll lt patience (waiting.map (List.map f)) =
      (mergeAll (fun a b => lt (f a) (f b)) patience waiting).map f := by
  fun_induction mergeAll (fun a b => lt (f a) (f b)) patience waiting with
  | case1 patience => simp [mergeAll]
  | case2 patience top => simp [mergeAll]
  | case3 patience top second =>
    simp only [List.map_cons, List.map_nil, mergeAll, mergeRuns_map]
  | case4 patience top second third rest hshort run patience' hmerge ih =>
    have hruns := mergeRuns_map f lt patience third second
    rw [hmerge] at hruns
    simp only [List.map_cons, mergeAll, List.length_map, if_pos hshort, hruns]
    exact ih
  | case5 patience top second third rest hshort run patience' hmerge ih =>
    have hruns := mergeRuns_map f lt patience second top
    rw [hmerge] at hruns
    simp only [List.map_cons, mergeAll, List.length_map, if_neg hshort, hruns]
    exact ih

theorem sort_map (xs : List γ) :
    sort lt (xs.map f) = (sort (fun a b => lt (f a) (f b)) xs).map f := by
  have hstart : (⟨[], Merge.longStretch⟩ : Stack β) = (⟨[], Merge.longStretch⟩ : Stack γ).map f :=
    rfl
  have hwaiting (s : Stack γ) :
      (s.map f).pending.map (·.run) = (s.pending.map (·.run)).map (List.map f) := by
    simp only [Stack.map, List.map_map]
    rfl
  simp only [sort, List.length_map, runs_map]
  rw [hstart, pushAll_map, hwaiting, mergeAll_map]
  rfl

end Stacks

end CornerPoint.Sorting
