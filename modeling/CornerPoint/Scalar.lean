import CornerPoint.Numeral

/-!
The arithmetic that a computation is carried out in. Every definition of the solver is written
once for any scalar: with `Rat` it is the mathematics, with `Float` it is what runs. No law is
assumed, so that a comparison with an undefined value may simply be false.
-/
namespace CornerPoint

/-- Numbers that can be added, multiplied, divided and compared, that may or may not have an
exact value, and that can be rounded to a decimal grid. -/
class Scalar (α : Type) where
  [add : Add α]
  [sub : Sub α]
  [mul : Mul α]
  [neg : Neg α]
  [div : Div α]
  [le : LE α]
  [lt : LT α]
  [beq : BEq α]
  [decLE : DecidableLE α]
  [decLT : DecidableLT α]
  [literal : OfScientific α]
  zero : α
  one : α
  abs : α → α
  /-- The exact value of a finite scalar. -/
  value? : α → Option Rat
  /-- The scalar nearest to what a numeral stands for, if this arithmetic has one. -/
  ofNumeral? : Numeral → Option α
  /-- The scalar nearest to the nearest point of a decimal grid; nothing if that is out of range.
  A scalar without an exact value stays as it is. -/
  roundTo? : (places : Int) → α → Option α

namespace Scalar

variable {α : Type} [Scalar α]

-- The operations of a scalar yield to those that a type has of its own.

instance (priority := 50) : Add α := add

instance (priority := 50) : Sub α := sub

instance (priority := 50) : Mul α := mul

instance (priority := 50) : Neg α := neg

instance (priority := 50) : Div α := div

instance (priority := 50) : LE α := le

instance (priority := 50) : LT α := lt

instance (priority := 50) : BEq α := beq

instance (priority := 50) : DecidableLE α := decLE

instance (priority := 50) : DecidableLT α := decLT

instance (priority := 50) : OfScientific α := literal

instance (priority := 50) : OfNat α 0 := ⟨zero⟩

instance (priority := 50) : OfNat α 1 := ⟨one⟩

def isFinite (x : α) : Bool := (value? x).isSome

end Scalar

end CornerPoint
