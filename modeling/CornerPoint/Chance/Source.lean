import CornerPoint.Chance.Twister
import CornerPoint.Scalar

/-!
Sources of random scalars and decisions.
-/
namespace CornerPoint.Chance

/-- A source with states `σ`: it draws a scalar from zero up to but not including one, and it
decides between two things. -/
structure Source (σ α : Type) where
  unit : StateM σ α
  decision : StateM σ Bool

variable {σ α : Type} [Scalar α]

/-- A draw between two scalars. -/
def Source.between (source : Source σ α) (lo hi : α) : StateM σ α := do
  return lo + (hi - lo) * (← source.unit)

/-- A number below `2 ^ 53` as a share of that power. -/
def share (n : Nat) : α :=
  OfScientific.ofScientific n false 0 / OfScientific.ofScientific 0x20000000000000 false 0

def twister : Source Twister α where
  unit t :=
    let (n, t) := t.next53
    (share n, t)
  decision t := t.nextBit 20000

end CornerPoint.Chance
