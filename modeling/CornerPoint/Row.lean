import CornerPoint.Fault

/-!
Rows `a·x + b·y ⋈ c`. A row that is being entered may lack coefficients: it is a `Row (Option α)`.
A complete row is a `Row α`.
-/
namespace CornerPoint

inductive Sign where
  | le
  | eq
  | ge
  deriving DecidableEq, Repr

namespace Sign

def text : Sign → String
  | .le => "<="
  | .eq => "="
  | .ge => ">="

def ofText? : String → Option Sign
  | "<=" => some .le
  | "=" => some .eq
  | ">=" => some .ge
  | _ => none

end Sign

structure Row (κ : Type) where
  a : κ
  b : κ
  sign : Sign := .le
  c : κ
  name : Option String := none
  deriving DecidableEq, Repr

namespace Row

variable {κ μ : Type}

def map (f : κ → μ) (r : Row κ) : Row μ :=
  { a := f r.a, b := f r.b, sign := r.sign, c := f r.c, name := r.name }

/-- The name a row goes by: its own, or one made from its position if it has none. -/
def label (r : Row κ) (fallback : String) : String :=
  match r.name with
  | some name => if name = "" then fallback else name
  | none => fallback

/-- The coefficients that were left out, in the order a, b, c. -/
def blanks (r : Row (Option κ)) : List Coefficient :=
  (if r.a.isNone then [.a] else []) ++ (if r.b.isNone then [.b] else []) ++
    (if r.c.isNone then [.c] else [])

def complete? (r : Row (Option κ)) : Option (Row κ) :=
  match r.a, r.b, r.c with
  | some a, some b, some c => some { a, b, sign := r.sign, c, name := r.name }
  | _, _, _ => none

@[simp] theorem complete?_map_some (r : Row κ) : (r.map some).complete? = some r := rfl

end Row

end CornerPoint
