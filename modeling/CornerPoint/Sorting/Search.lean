/-!
Searches for the end of the stretch at the head of a list whose members all pass a test. They take
it that no member after that stretch passes, and then few of them need to be looked at.
-/
namespace CornerPoint.Sorting

variable {β : Type}

/-- The end from which a list is being worked off. A list that is worked off from its back is given
in reverse. -/
inductive End where
  | front
  | back
  deriving DecidableEq, Repr

namespace End

/-- Where a range of `n` places is halved: at its middle. Of two middle places it is the one further
behind, as the list stood before any reversal. -/
def half : End → Nat → Nat
  | .front, n => n / 2
  | .back, n => (n - 1) / 2

theorem half_lt (e : End) {n : Nat} (h : 0 < n) : e.half n < n := by
  cases e <;> simp only [half] <;> omega

end End

/-- The number of members at the head that pass, known to lie between `lo` and `hi`. -/
def bisect (e : End) (passes : β → Bool) (xs : List β) (lo hi : Nat) : Nat :=
  if lo < hi then
    let mid := lo + e.half (hi - lo)
    if xs[mid]?.any passes then bisect e passes xs (mid + 1) hi else bisect e passes xs lo mid
  else hi
termination_by hi - lo
decreasing_by
  · omega
  · have := e.half_lt (n := hi - lo) (by omega)
    omega

/-- Look ahead in growing strides, from place `last`, which passes, to place `next`, until a member
does not pass. -/
def stride (passes : β → Bool) (xs : List β) (last next : Nat) : Nat × Nat :=
  if next < xs.length then
    if xs[next]?.any passes then stride passes xs next (2 * next + 1) else (last, next)
  else (last, xs.length)
termination_by xs.length - next

/-- The number of members at the head that pass, found fast if there are few. -/
def gallop (e : End) (passes : β → Bool) (xs : List β) : Nat :=
  if xs.head?.any passes then
    let (last, next) := stride passes xs 0 1
    bisect e passes xs (last + 1) next
  else 0

end CornerPoint.Sorting
