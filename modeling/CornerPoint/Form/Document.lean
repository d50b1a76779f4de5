/-!
Documents: data of a form that is not fixed beforehand. The type of fractional numbers is left open,
since a document that is read holds numerals and one that is written holds scalars.
-/
namespace CornerPoint

inductive Document (ν : Type) where
  | null
  | flag (b : Bool)
  | integer (n : Int)
  | number (v : ν)
  | text (s : String)
  | list (items : List (Document ν))
  | record (fields : List (String × Document ν))

namespace Document

variable {ν : Type}

/-- The value of a field. If a key is repeated, its last value counts. -/
def field? (key : String) (fields : List (String × Document ν)) : Option (Document ν) :=
  fields.reverse.lookup key

def optional (v : Option ν) : Document ν :=
  match v with
  | some v => .number v
  | none => .null

def optionalText (s : Option String) : Document ν :=
  match s with
  | some s => .text s
  | none => .null

def texts (items : List String) : Document ν := .list (items.map .text)

end Document

end CornerPoint
