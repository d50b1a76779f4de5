import CornerPoint.Form.Document
import CornerPoint.Form.Validated
import CornerPoint.Numeral.Reader
import CornerPoint.Scalar

/-!
Single values of a form. A number may be given as a text or as a flag, and a flag as a number or as
a text.
-/
namespace CornerPoint.Form

abbrev Entry := Document Numeral

abbrev Fields := List (String × Entry)

section Access

variable {β : Type}

def required (fields : Fields) (key : String) (check : Entry → Validated β) : Validated β :=
  match Document.field? key fields with
  | some entry => (check entry).within key
  | none => (Validated.refuse .missing).within key

def defaulted (fields : Fields) (key : String) (value : β) (check : Entry → Validated β) :
    Validated β :=
  match Document.field? key fields with
  | some entry => (check entry).within key
  | none => .accepted value

def record (check : Fields → Validated β) : Entry → Validated β
  | .record fields => check fields
  | _ => .refuse .notRecord

def list (check : Entry → Validated β) : Entry → Validated (List β)
  | .list items => Validated.all check 0 items
  | _ => .refuse .notList

/-- Nothing is a value too. -/
def optional (check : Entry → Validated β) : Entry → Validated (Option β)
  | .null => .accepted none
  | entry => (check entry).map some

end Access

def text : Entry → Validated String
  | .text s => .accepted s
  | _ => .refuse .notText

def choice {β : Type} (ofText? : String → Option β) : Entry → Validated β
  | .text s =>
    match ofText? s with
    | some v => .accepted v
    | none => .refuse .notChoice
  | _ => .refuse .notChoice

def trueTexts : List String := ["1", "true", "t", "yes", "y", "on"]

def falseTexts : List String := ["0", "false", "f", "no", "n", "off"]

/-- Zero and one stand for flags, and no other number does. -/
def flagOfInt (n : Int) : Validated Bool :=
  if n = 0 then .accepted false else if n = 1 then .accepted true else .refuse .flagText

/-- The integers of 64 bits; only these are looked at as flags. -/
def isShort (n : Int) : Bool := -0x8000000000000000 ≤ n && n < 0x8000000000000000

/-- A fractional number is looked at if it is whole and strictly between the bounds of the integers
of 64 bits. -/
def flagOfRat (q : Rat) : Validated Bool :=
  if q.den = 1 && isShort q.num && q.num != -0x8000000000000000 then flagOfInt q.num
  else .refuse .notFlag

def flagOfText (s : String) : Validated Bool :=
  let word := String.ofList (s.toList.map Char.toLower)
  if trueTexts.contains word then .accepted true
  else if falseTexts.contains word then .accepted false
  else .refuse .flagText

/-- A fractional number is first taken as a scalar of the type given. -/
def flag (α : Type) [Scalar α] : Entry → Validated Bool
  | .flag b => .accepted b
  | .integer n => if isShort n then flagOfInt n else .refuse .notFlag
  | .number n =>
    match (Scalar.ofNumeral? n : Option α).bind Scalar.value? with
    | some q => flagOfRat q
    | none => .refuse .notFlag
  | .text s => flagOfText s
  | _ => .refuse .notFlag

variable {α : Type} [Scalar α]

def accept? (cause : Cause) : Option α → Validated α
  | some v => .accepted v
  | none => .refuse cause

/-- An integer has to be within the range of the scalars; a fractional number is taken as it is. -/
def scalar : Entry → Validated α
  | .flag b => .accepted (if b then 1 else 0)
  | .integer n =>
    accept? .notNumber ((Scalar.ofNumeral? (Numeral.ofInt n)).filter Scalar.isFinite)
  | .number n => accept? .notNumber (Scalar.ofNumeral? n)
  | .text s => accept? .numberText ((Numeral.readField? s.toList).bind Scalar.ofNumeral?)
  | _ => .refuse .notNumber

/-- A number on its own, outside a record. -/
def bare? : Entry → Option α
  | .integer n => Scalar.ofNumeral? (Numeral.ofInt n)
  | .number n => Scalar.ofNumeral? n
  | .text s => (Numeral.read? s.toList).bind Scalar.ofNumeral?
  | _ => none

end CornerPoint.Form
