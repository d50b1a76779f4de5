import CornerPoint.Proofs.Sorting.Order
import CornerPoint.Proofs.Sorting.Search
import CornerPoint.Sorting.Merge

/-!
Merging two sorted runs yields a stable sort of both, whichever way the members are taken. The
invariant is that what has been merged stays in order with what is left of either run.
-/
namespace CornerPoint.Sorting

variable {β : Type} {lt : β → β → Bool}

theorem Sorted.cleft_le (ho : WeakOrder lt) {xs : List β} (h : Sorted lt xs) (y : β) :
    Cleft (fun x => !lt y x) xs := by
  apply h.imp
  intro a b hab hb
  simp only [Bool.not_eq_true'] at hb ⊢
  exact ho.le_trans hab hb

theorem Sorted.cleft_lt (ho : WeakOrder lt) {xs : List β} (h : Sorted lt xs) (x : β) :
    Cleft (fun y => lt y x) xs := by
  apply h.imp
  intro a b hab hb
  exact ho.lt_of_le_of_lt hab hb

namespace Merge

/-- A merge of `p₀` and `q₀` under way. The last member of `p` comes after all of `q`. -/
structure Sound (lt : β → β → Bool) (p₀ q₀ : List β) (m : Merge β) : Prop where
  sortedP : Sorted lt (m.merged.reverse ++ m.p)
  sortedQ : Sorted lt (m.merged.reverse ++ m.q)
  last : ∀ x ∈ m.p.getLast?, ∀ y ∈ m.q, lt y x
  ties : SameTies lt (m.merged.reverse ++ m.p ++ m.q) (p₀ ++ q₀)

variable {p₀ q₀ merged p q : List β} {m : Merge β}

theorem Sound.takeP {x : β} (h : Sound lt p₀ q₀ ⟨merged, x :: p, q⟩)
    (hx : ∀ y ∈ q, lt y x = false) : Sound lt p₀ q₀ ⟨x :: merged, p, q⟩ := by
  obtain ⟨hp, hq, hl, ht⟩ := h
  have hp' := List.pairwise_append.mp hp
  have hq' := List.pairwise_append.mp hq
  refine ⟨by simpa using hp, ?_, ?_, by simpa using ht⟩
  · simp only [List.reverse_cons, List.append_assoc, List.singleton_append]
    refine List.pairwise_append.mpr ⟨hq'.1, List.pairwise_cons.mpr ⟨hx, hq'.2.1⟩, ?_⟩
    intro a ha b hb
    rcases List.mem_cons.mp hb with rfl | hb
    · exact hp'.2.2 a ha b (List.mem_cons_self ..)
    · exact hq'.2.2 a ha b hb
  · intro z hz
    exact hl z (List.mem_getLast?_cons hz)

theorem Sound.takeQ (ho : WeakOrder lt) {y : β} (h : Sound lt p₀ q₀ ⟨merged, p, y :: q⟩)
    (hy : ∀ x ∈ p, lt y x) : Sound lt p₀ q₀ ⟨y :: merged, p, q⟩ := by
  obtain ⟨hp, hq, hl, ht⟩ := h
  have hp' := List.pairwise_append.mp hp
  have hq' := List.pairwise_append.mp hq
  refine ⟨?_, by simpa using hq, fun x hx z hz => hl x hx z (List.mem_cons_of_mem y hz), ?_⟩
  · simp only [List.reverse_cons, List.append_assoc, List.singleton_append]
    refine List.pairwise_append.mpr ⟨hp'.1, List.pairwise_cons.mpr ⟨?_, hp'.2.1⟩, ?_⟩
    · intro x hx
      exact ho.asymm (hy x hx)
    · intro a ha b hb
      rcases List.mem_cons.mp hb with rfl | hb
      · exact hq'.2.2 a ha b (List.mem_cons_self ..)
      · exact hp'.2.2 a ha b hb
  · refine SameTies.trans ?_ ht
    have hs := ((SameTies.refl lt merged.reverse).append (SameTies.swap ho hy)).append
      (SameTies.refl lt q)
    simpa using hs

theorem Sound.takeManyP {ps : List β} (h : Sound lt p₀ q₀ ⟨merged, ps ++ p, q⟩)
    (hx : ∀ x ∈ ps, ∀ y ∈ q, lt y x = false) : Sound lt p₀ q₀ ⟨ps.reverse ++ merged, p, q⟩ := by
  induction ps generalizing merged with
  | nil => exact h
  | cons x ps ih =>
    have h' := h.takeP (hx x (List.mem_cons_self ..))
    simpa using ih h' fun z hz => hx z (List.mem_cons_of_mem x hz)

theorem Sound.takeManyQ (ho : WeakOrder lt) {qs : List β}
    (h : Sound lt p₀ q₀ ⟨merged, p, qs ++ q⟩) (hy : ∀ y ∈ qs, ∀ x ∈ p, lt y x) :
    Sound lt p₀ q₀ ⟨qs.reverse ++ merged, p, q⟩ := by
  induction qs generalizing merged with
  | nil => exact h
  | cons y qs ih =>
    have h' := h.takeQ ho (hy y (List.mem_cons_self ..))
    simpa using ih h' fun z hz => hy z (List.mem_cons_of_mem y hz)

theorem Sound.le_of_mem_p {x : β} (h : Sound lt p₀ q₀ ⟨merged, x :: p, q⟩) :
    ∀ z ∈ p, lt z x = false :=
  (List.pairwise_cons.mp (List.pairwise_append.mp h.sortedP).2.1).1

theorem Sound.le_of_mem_q {y : β} (h : Sound lt p₀ q₀ ⟨merged, p, y :: q⟩) :
    ∀ z ∈ q, lt z y = false :=
  (List.pairwise_cons.mp (List.pairwise_append.mp h.sortedQ).2.1).1

theorem Sound.result (ho : WeakOrder lt) (h : Sound lt p₀ q₀ m) (hover : m.isOver) :
    StableSort lt (p₀ ++ q₀) m.result := by
  obtain ⟨merged, p, q⟩ := m
  simp only [isOver, Bool.or_eq_true, List.isEmpty_iff] at hover
  -- Once a single member of `p` is left, moving all of `q` before it ends the merge.
  have hend : ∀ y ∈ q, ∀ x ∈ p, lt y x := by
    intro y hy x hx
    rcases hover with hp | hq
    · cases p with
      | nil => simp at hx
      | cons a p =>
        simp only [List.tail_cons] at hp
        subst hp
        obtain rfl : x = a := by simpa using hx
        exact h.last x (by simp) y hy
    · simp [hq] at hy
  have h' := Sound.takeManyQ (q := []) ho (by simpa using h) hend
  refine ⟨by simpa [Merge.result] using h'.sortedP, by simpa [Merge.result] using h'.ties⟩

theorem Sound.stretchP (ho : WeakOrder lt) (e : End) (h : Sound lt p₀ q₀ m) :
    Sound lt p₀ q₀ (stretchP (fun x y => lt y x) e m).2 := by
  obtain ⟨merged, p, q⟩ := m
  cases q with
  | nil => exact h
  | cons y q =>
    have hc : Cleft (fun x => !lt y x) p :=
      Sorted.cleft_le ho (List.pairwise_append.mp h.sortedP).2.1 y
    simp only [Merge.stretchP, take_gallop e hc, drop_gallop e hc]
    have hmoved : Sound lt p₀ q₀
        ⟨(p.takeWhile fun x => !lt y x).reverse ++ merged, p.dropWhile fun x => !lt y x,
          y :: q⟩ := by
      apply Sound.takeManyP
      · simpa using h
      · intro x hx z hz
        have hxy : lt y x = false := by simpa using List.mem_takeWhile_imp hx
        rcases List.mem_cons.mp hz with rfl | hz
        · exact hxy
        · exact ho.le_trans hxy (h.le_of_mem_q z hz)
    split
    · exact hmoved
    · apply hmoved.takeQ ho
      intro x hx
      simpa using hc.dropWhile_fails x hx

theorem Sound.stretchQ (ho : WeakOrder lt) (e : End) (h : Sound lt p₀ q₀ m) :
    Sound lt p₀ q₀ (stretchQ (fun x y => lt y x) e m).2 := by
  obtain ⟨merged, p, q⟩ := m
  cases p with
  | nil => exact h
  | cons x p =>
    have hc : Cleft (fun y => lt y x) q :=
      Sorted.cleft_lt ho (List.pairwise_append.mp h.sortedQ).2.1 x
    simp only [Merge.stretchQ, take_gallop e hc, drop_gallop e hc]
    have hmoved : Sound lt p₀ q₀
        ⟨(q.takeWhile fun y => lt y x).reverse ++ merged, x :: p, q.dropWhile fun y => lt y x⟩ := by
      apply Sound.takeManyQ ho
      · simpa using h
      · intro y hy z hz
        have hyx : lt y x := by simpa using List.mem_takeWhile_imp hy
        rcases List.mem_cons.mp hz with rfl | hz
        · exact hyx
        · exact ho.lt_of_lt_of_le hyx (h.le_of_mem_p z hz)
    split
    · exact hmoved
    · exact hmoved.takeP fun y hy => hc.dropWhile_fails y hy

theorem Sound.stretches (ho : WeakOrder lt) (e : End) (h : Sound lt p₀ q₀ m) :
    Sound lt p₀ q₀ (stretches (fun x y => lt y x) e m).2 := by
  cases e with
  | front =>
    have hp := h.stretchP ho .front
    simp only [Merge.stretches]
    split
    · exact hp
    · exact hp.stretchQ ho .front
  | back =>
    have hq := h.stretchQ ho .back
    simp only [Merge.stretches]
    split
    · exact hq
    · exact hq.stretchP ho .back

/-- One member of either run at a time. -/
theorem Sound.step (ho : WeakOrder lt) {x y : β} (h : Sound lt p₀ q₀ ⟨merged, x :: p, y :: q⟩) :
    (lt y x → Sound lt p₀ q₀ ⟨y :: merged, x :: p, q⟩) ∧
      (lt y x = false → Sound lt p₀ q₀ ⟨x :: merged, p, y :: q⟩) := by
  constructor
  · intro hyx
    apply h.takeQ ho
    intro z hz
    rcases List.mem_cons.mp hz with rfl | hz
    · exact hyx
    · exact ho.lt_of_lt_of_le hyx (h.le_of_mem_p z hz)
  · intro hyx
    apply h.takeP
    intro z hz
    rcases List.mem_cons.mp hz with rfl | hz
    · exact hyx
    · exact ho.le_trans hyx (h.le_of_mem_q z hz)

/-- However often a merge goes over from single members to stretches and back. -/
theorem stable_of_sound (ho : WeakOrder lt) (e : End) :
    (∀ patience countP countQ m, Sound lt p₀ q₀ m →
      StableSort lt (p₀ ++ q₀) (oneByOne (fun x y => lt y x) e patience countP countQ m).1) ∧
    (∀ patience m, Sound lt p₀ q₀ m →
      StableSort lt (p₀ ++ q₀) (byStretches (fun x y => lt y x) e patience m).1) := by
  apply oneByOne.mutual_induct
  case case1 =>
    intro patience countP countQ m hover h
    rw [oneByOne.eq_def, if_pos hover]
    exact h.result ho hover
  case case2 =>
    intro patience countP countQ m hover hlong ih h
    rw [oneByOne.eq_def, if_neg hover, if_pos hlong]
    exact ih h
  case case3 =>
    intro patience countP countQ hlong merged x p y q hyx hover ih h
    rw [oneByOne, if_neg hover, if_neg hlong, if_pos hyx]
    exact ih ((h.step ho).1 hyx)
  case case4 =>
    intro patience countP countQ hlong merged x p y q hyx hover ih h
    rw [oneByOne, if_neg hover, if_neg hlong, if_neg hyx]
    exact ih ((h.step ho).2 (by simpa using hyx))
  case case5 =>
    intro patience countP countQ hlong m hempty hover h
    -- An empty run would have ended the merge.
    obtain ⟨merged, p, q⟩ := m
    cases p with
    | nil => simp [isOver] at hover
    | cons x p =>
      cases q with
      | nil => simp [isOver] at hover
      | cons y q => exact (hempty merged x p y q rfl).elim
  case case6 =>
    intro patience m hover h
    rw [byStretches, dif_pos hover]
    exact h.result ho hover
  case case7 =>
    intro patience m hover next hnext h
    rw [byStretches, dif_neg hover, if_pos hnext]
    exact (h.stretches ho e).result ho hnext
  case case8 =>
    intro patience m hover next hnext hlong ih h
    rw [byStretches, dif_neg hover, if_neg hnext, if_pos hlong]
    exact ih (h.stretches ho e)
  case case9 =>
    intro patience m hover next hnext hlong ih h
    rw [byStretches, dif_neg hover, if_neg hnext, if_neg hlong]
    exact ih (h.stretches ho e)

end Merge

variable {loose inner : List β}

/-- The members of `inner` lie between the first and the last one of `loose`. -/
structure Interlocked (lt : β → β → Bool) (loose inner : List β) : Prop where
  sortedLoose : Sorted lt loose
  sortedInner : Sorted lt inner
  first : ∀ b ∈ inner.head?, ∀ x ∈ loose, lt b x
  last : ∀ a ∈ loose.getLast?, ∀ y ∈ inner, lt y a

theorem Interlocked.flip (h : Interlocked lt loose inner) :
    Interlocked (flipped lt) inner.reverse loose.reverse where
  sortedLoose := h.sortedInner.flip
  sortedInner := h.sortedLoose.flip
  first a ha y hy := h.last a (by simpa using ha) y (by simpa using hy)
  last b hb x hx := h.first b (by simpa using hb) x (by simpa using hx)

theorem Interlocked.mergeFront (ho : WeakOrder lt) (h : Interlocked lt loose inner)
    (patience : ℕ) : StableSort lt (loose ++ inner) (mergeFront lt patience loose inner).1 := by
  have hstart : Merge.Sound lt loose inner ⟨[], loose, inner⟩ :=
    ⟨by simpa using h.sortedLoose, by simpa using h.sortedInner, h.last,
      SameTies.refl lt _⟩
  apply (Merge.stable_of_sound ho .front).1
  cases inner with
  | nil => exact hstart
  | cons b inner => exact hstart.takeQ ho (h.first b rfl)

theorem Interlocked.mergeBack (ho : WeakOrder lt) (h : Interlocked lt loose inner)
    (patience : ℕ) : StableSort lt (loose ++ inner) (mergeBack lt patience loose inner).1 := by
  have hf := h.flip
  have hstart : Merge.Sound (flipped lt) inner.reverse loose.reverse
      ⟨[], inner.reverse, loose.reverse⟩ :=
    ⟨by simpa using hf.sortedLoose, by simpa using hf.sortedInner, hf.last,
      SameTies.refl _ _⟩
  have hfirst : Merge.Sound (flipped lt) inner.reverse loose.reverse
      ⟨loose.reverse.take 1, inner.reverse, loose.reverse.drop 1⟩ := by
    cases hl : loose.reverse with
    | nil => simpa [hl] using hstart
    | cons a rest =>
      rw [hl] at hstart hf
      exact hstart.takeQ ho.flip (hf.first a rfl)
  have hs := (Merge.stable_of_sound ho.flip .back).1 patience 0 0 _ hfirst
  refine ⟨hs.sorted.reverse, ?_⟩
  have ht := hs.ties.reverse
  rwa [← List.reverse_append, List.reverse_reverse] at ht

end CornerPoint.Sorting
