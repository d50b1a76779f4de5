import Mathlib.Data.List.Perm.Basic
import Mathlib.Data.List.Count

/-!
What a stable sort has to achieve, for a comparison under which members may be tied. Stability says
that the members tied with any one thing form the same list before and after.
-/
namespace CornerPoint.Sorting

variable {β : Type}

/-- A comparison that behaves like the one of keys in a linear order. -/
structure WeakOrder (lt : β → β → Bool) : Prop where
  asymm : ∀ {a b}, lt a b → lt b a = false
  le_trans : ∀ {a b c}, lt b a = false → lt c b = false → lt c a = false

def Sorted (lt : β → β → Bool) (xs : List β) : Prop := xs.Pairwise fun a b => lt b a = false

def tied (lt : β → β → Bool) (a b : β) : Bool := !lt a b && !lt b a

def SameTies (lt : β → β → Bool) (xs ys : List β) : Prop :=
  ∀ c, xs.filter (tied lt c) = ys.filter (tied lt c)

/-- The same comparison, read from the other end. -/
def flipped (lt : β → β → Bool) (a b : β) : Bool := lt b a

variable {lt : β → β → Bool}

namespace WeakOrder

theorem irrefl (h : WeakOrder lt) (a : β) : lt a a = false := by
  by_contra hn
  have hp : lt a a = true := by simpa using hn
  exact hn (h.asymm hp)

theorem lt_of_lt_of_le (h : WeakOrder lt) {a b c : β} (hab : lt a b) (hbc : lt c b = false) :
    lt a c := by
  by_contra hn
  have hca : lt a c = false := by simpa using hn
  have := h.le_trans hbc hca
  simp [hab] at this

theorem lt_of_le_of_lt (h : WeakOrder lt) {a b c : β} (hab : lt b a = false) (hbc : lt b c) :
    lt a c := by
  by_contra hn
  have hca : lt a c = false := by simpa using hn
  have := h.le_trans hca hab
  simp [hbc] at this

theorem trans (h : WeakOrder lt) {a b c : β} (hab : lt a b) (hbc : lt b c) : lt a c :=
  h.lt_of_lt_of_le hab (h.asymm hbc)

theorem flip (h : WeakOrder lt) : WeakOrder (flipped lt) where
  asymm hab := h.asymm hab
  le_trans hab hbc := h.le_trans hbc hab

theorem not_tied_of_lt (h : WeakOrder lt) {a b c : β} (hab : lt a b) (hc : tied lt c a) :
    tied lt c b = false := by
  simp only [tied, Bool.and_eq_true, Bool.not_eq_true'] at hc
  have := h.lt_of_le_of_lt hc.2 hab
  simp [tied, this]

end WeakOrder

theorem tied_flipped (lt : β → β → Bool) (a b : β) : tied (flipped lt) a b = tied lt a b := by
  simp [tied, flipped, Bool.and_comm]

theorem Sorted.reverse {xs : List β} (h : Sorted (flipped lt) xs) : Sorted lt xs.reverse :=
  List.pairwise_reverse.mpr h

theorem Sorted.flip {xs : List β} (h : Sorted lt xs) : Sorted (flipped lt) xs.reverse :=
  List.pairwise_reverse.mpr h

namespace SameTies

variable {xs ys zs ws : List β}

theorem refl (lt : β → β → Bool) (xs : List β) : SameTies lt xs xs := fun _ => rfl

theorem trans (h : SameTies lt xs ys) (k : SameTies lt ys zs) : SameTies lt xs zs :=
  fun c => (h c).trans (k c)

theorem append (h : SameTies lt xs ys) (k : SameTies lt zs ws) :
    SameTies lt (xs ++ zs) (ys ++ ws) := by
  intro c
  rw [List.filter_append, List.filter_append, h c, k c]

theorem reverse (h : SameTies (flipped lt) xs ys) : SameTies lt xs.reverse ys.reverse := by
  intro c
  have hc := h c
  rw [show tied (flipped lt) c = tied lt c from funext (tied_flipped lt c)] at hc
  rw [List.filter_reverse, List.filter_reverse, hc]

/-- A member is tied with itself, so no member is lost and none is repeated. -/
theorem perm (ho : WeakOrder lt) (h : SameTies lt xs ys) : xs.Perm ys := by
  classical
  rw [List.perm_iff_count]
  intro a
  have ha : tied lt a a = true := by simp [tied, ho.irrefl a]
  rw [← List.count_filter (l := xs) ha, ← List.count_filter (l := ys) ha, h a]

/-- Members that come before all of a stretch may be moved to its front. -/
theorem swap (ho : WeakOrder lt) {y : β} (h : ∀ x ∈ xs, lt y x) :
    SameTies lt (y :: xs) (xs ++ [y]) := by
  intro c
  rw [List.filter_append, List.filter_cons]
  by_cases hy : tied lt c y
  · have hx : xs.filter (tied lt c) = [] := by
      apply List.filter_eq_nil_iff.mpr
      intro x hx
      simp [ho.not_tied_of_lt (h x hx) hy]
    simp [hy, hx]
  · simp [hy]

end SameTies

/-- A stable sort of `xs`: in order, and with all ties as they were. -/
structure StableSort (lt : β → β → Bool) (xs ys : List β) : Prop where
  sorted : Sorted lt ys
  ties : SameTies lt ys xs

theorem StableSort.reverse {xs ys : List β} (h : StableSort lt xs ys) :
    StableSort (flipped lt) xs.reverse ys.reverse :=
  ⟨h.sorted.flip, SameTies.reverse h.ties⟩

end CornerPoint.Sorting
