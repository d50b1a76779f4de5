import CornerPoint.Sorting.Search
import Mathlib.Data.List.TakeWhile

/-!
Every search finds the length of the stretch at the head of a list that passes, if no member behind
the first failure passes.
-/
namespace CornerPoint.Sorting

variable {β : Type} {passes : β → Bool} {xs : List β}

/-- Once a member fails, all later ones fail. -/
def Cleft (passes : β → Bool) (xs : List β) : Prop := xs.Pairwise fun a b => passes b → passes a

theorem Cleft.dropWhile_fails (h : Cleft passes xs) :
    ∀ x ∈ xs.dropWhile passes, passes x = false := by
  induction xs with
  | nil => simp
  | cons a xs ih =>
    obtain ⟨ha, hs⟩ := List.pairwise_cons.mp h
    by_cases hp : passes a
    · simpa [List.dropWhile_cons, hp] using ih hs
    · intro x hx
      simp only [List.dropWhile_cons, hp] at hx
      rcases List.mem_cons.mp hx with rfl | hx
      · simpa using hp
      · by_contra hn
        exact hp (ha x hx (by simpa using hn))

theorem Cleft.passes_at (h : Cleft passes xs) (i : ℕ) :
    xs[i]?.any passes = decide (i < (xs.takeWhile passes).length) := by
  induction xs generalizing i with
  | nil => simp
  | cons a xs ih =>
    obtain ⟨ha, hs⟩ := List.pairwise_cons.mp h
    by_cases hp : passes a
    · cases i with
      | zero => simp [hp]
      | succ i => simpa [hp] using ih hs i
    · cases i with
      | zero => simp [hp]
      | succ i =>
        have hf : xs[i]?.any passes = false := by
          rw [Option.any_eq_false]
          intro x hx
          exact Bool.eq_false_iff.mpr fun hpx => hp (ha x (List.mem_of_getElem? hx) hpx)
        simp [hp, hf]

/-- Halving keeps the end of the stretch between the two bounds. -/
theorem bisect_eq {n : ℕ} (e : End) (h : ∀ i, xs[i]?.any passes = decide (i < n)) (lo hi : ℕ)
    (hlo : lo ≤ n) (hhi : n ≤ hi) : bisect e passes xs lo hi = n := by
  fun_induction bisect e passes xs lo hi with
  | case1 lo hi hlt mid hp ih =>
    rw [h, decide_eq_true_eq] at hp
    exact ih hp hhi
  | case2 lo hi hlt mid hp ih =>
    rw [h, decide_eq_true_eq] at hp
    exact ih hlo (by omega)
  | case3 lo hi hlt => omega

theorem stride_bounds {n : ℕ} (h : ∀ i, xs[i]?.any passes = decide (i < n)) (hn : n ≤ xs.length)
    (last next : ℕ) (hlast : last < n) :
    (stride passes xs last next).1 < n ∧ n ≤ (stride passes xs last next).2 := by
  fun_induction stride passes xs last next with
  | case1 last next hlt hp ih =>
    rw [h, decide_eq_true_eq] at hp
    exact ih hp
  | case2 last next hlt hp =>
    rw [h, decide_eq_true_eq] at hp
    exact ⟨hlast, by simpa using hp⟩
  | case3 last next hlt => exact ⟨hlast, hn⟩

theorem gallop_eq (e : End) (h : Cleft passes xs) :
    gallop e passes xs = (xs.takeWhile passes).length := by
  have hp := h.passes_at
  have hn : (xs.takeWhile passes).length ≤ xs.length := (List.takeWhile_prefix passes).length_le
  have hhead : xs.head?.any passes = decide (0 < (xs.takeWhile passes).length) := by
    rw [← hp 0, List.head?_eq_getElem?]
  unfold gallop
  split
  · rename_i h0
    rw [hhead, decide_eq_true_eq] at h0
    have hs := stride_bounds hp hn 0 1 h0
    exact bisect_eq e hp _ _ hs.1 hs.2
  · rename_i h0
    rw [hhead, decide_eq_true_eq] at h0
    omega

theorem take_gallop (e : End) (h : Cleft passes xs) :
    xs.take (gallop e passes xs) = xs.takeWhile passes := by
  rw [gallop_eq e h]
  exact (List.prefix_iff_eq_take.mp (List.takeWhile_prefix passes)).symm

theorem drop_gallop (e : End) (h : Cleft passes xs) :
    xs.drop (gallop e passes xs) = xs.dropWhile passes := by
  apply (List.append_right_inj (xs.takeWhile passes)).mp
  rw [List.takeWhile_append_dropWhile, ← take_gallop e h, List.take_append_drop]

end CornerPoint.Sorting
