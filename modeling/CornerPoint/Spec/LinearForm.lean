import CornerPoint.Numeral.Reader
import CornerPoint.Scalar
import CornerPoint.Spec.Lexeme
import CornerPoint.Spec.Refusal

/-!
Linear expressions in x and y. The text is searched from left to right for terms, each an optional
coefficient and a name; what is left over is searched for numbers, whose sum is the constant.
Characters that belong to neither are passed over.
-/
namespace CornerPoint.Spec

open Text

structure Term where
  coefficient : List Char
  name : List Char
  deriving DecidableEq, Repr

/-- A term in front of a text. The blanks before its name belong to neither part. -/
def readTerm? (text : List Char) : Option (Term × List Char) :=
  match blanks.rest (coefficient.rest text) with
  | [] => none
  | c :: rest =>
    if isNameStart c then
      some (⟨coefficient.taken text, c :: wordRest.taken rest⟩, wordRest.rest rest)
    else none

theorem readTerm?_length_lt {text rest : List Char} {t : Term}
    (h : readTerm? text = some (t, rest)) : rest.length < text.length := by
  unfold readTerm? at h
  have h1 := coefficient.length_rest_le text
  have h2 := blanks.length_rest_le (coefficient.rest text)
  split at h
  · simp at h
  · rename_i c after hc
    have h3 := wordRest.length_rest_le after
    rw [hc, List.length_cons] at h2
    simp only [Option.ite_none_right_eq_some, Option.some.injEq, Prod.mk.injEq] at h
    rw [← h.2.2]
    omega

/-- A stretch of an expression: a term, or a character that begins none. -/
inductive Piece where
  | term (t : Term)
  | other (c : Char)
  deriving DecidableEq, Repr

def pieces (text : List Char) : List Piece :=
  match _h : readTerm? text with
  | some (t, rest) => .term t :: pieces rest
  | none =>
    match text with
    | [] => []
    | c :: rest => .other c :: pieces rest
termination_by text.length
decreasing_by
  · exact readTerm?_length_lt _h
  · simp

def terms (ps : List Piece) : List Term :=
  ps.filterMap fun
    | .term t => some t
    | .other _ => none

/-- What the terms leave of the text: each of them becomes a space. -/
def leftover (ps : List Piece) : List Char :=
  ps.map fun
    | .term _ => ' '
    | .other c => c

/-- A number in front of a text: an optional sign, blanks, digits, and optionally a point with
digits after it. -/
def readNumber? (text : List Char) : Option (List Char × List Char) :=
  let front := sign ++ blanks
  if (digits.taken (front.rest text)).isEmpty then none
  else some ((front ++ digits ++ fraction).run text)

theorem readNumber?_length_lt {text number rest : List Char}
    (h : readNumber? text = some (number, rest)) : rest.length < text.length := by
  unfold readNumber? at h
  simp only [Option.ite_none_left_eq_some, List.isEmpty_iff, Option.some.injEq] at h
  obtain ⟨hd, hr⟩ := h
  have h1 := (sign ++ blanks).length_rest_le text
  have h2 := digits.length_taken_add_length_rest ((sign ++ blanks).rest text)
  have h3 := fraction.length_rest_le (digits.rest ((sign ++ blanks).rest text))
  have h4 := List.length_pos_iff.mpr hd
  have h5 : rest = fraction.rest (digits.rest ((sign ++ blanks).rest text)) :=
    (congrArg Prod.snd hr).symm
  rw [h5]
  omega

/-- The numbers in a text, from left to right. -/
def numbers (text : List Char) : List (List Char) :=
  match _h : readNumber? text with
  | some (number, rest) => number :: numbers rest
  | none =>
    match text with
    | [] => []
    | _ :: rest => numbers rest
termination_by text.length
decreasing_by
  · exact readNumber?_length_lt _h
  · simp

inductive Variable where
  | x
  | y
  deriving DecidableEq, Repr

namespace Variable

def ofName? : List Char → Option Variable
  | ['x'] => some .x
  | ['y'] => some .y
  | _ => none

end Variable

/-- A linear expression. A variable that does not occur has no coefficient. -/
structure LinearForm (α : Type) where
  x : Option α
  y : Option α
  constant : α
  deriving DecidableEq, Repr

variable {α : Type} [Scalar α]

def readScalar (text : List Char) : Except Refusal α :=
  match (Numeral.read? text).bind Scalar.ofNumeral? with
  | some v => .ok v
  | none => .error (.badNumber text)

/-- A coefficient that is left out, or of which only the sign is given, is one. -/
def readCoefficient (text : List Char) : Except Refusal α :=
  match withoutSpaces text with
  | [] | ['+'] => .ok 1
  | ['-'] => .ok (-1)
  | number => readScalar number

namespace LinearForm

def zero : LinearForm α := ⟨none, none, 0⟩

def addTo (sum : Option α) (v : α) : Option α := some (sum.getD 0 + v)

def addTerm (f : LinearForm α) (t : Term) : Except Refusal (LinearForm α) :=
  match Variable.ofName? t.name with
  | none => .error (.unknownVariable t.name)
  | some .x => (readCoefficient t.coefficient).map fun v => { f with x := addTo f.x v }
  | some .y => (readCoefficient t.coefficient).map fun v => { f with y := addTo f.y v }

def addNumber (f : LinearForm α) (number : List Char) : Except Refusal (LinearForm α) :=
  (readScalar (withoutSpaces number)).map fun v => { f with constant := f.constant + v }

/-- Coefficients of at most this size count as absent. -/
def negligible : α := 1e-12

/-- Leave out the negligible coefficients. -/
def prune (f : LinearForm α) : LinearForm α :=
  let relevant (v : α) : Bool := negligible < Scalar.abs v
  { f with x := f.x.filter relevant, y := f.y.filter relevant }

/-- Terms are added up before numbers, so that a fault in a term is reported first. -/
def read (text : List Char) : Except Refusal (LinearForm α) := do
  let ps := pieces (text.filter (· != '*'))
  let withTerms ← (terms ps).foldlM addTerm zero
  let whole ← (numbers (leftover ps)).foldlM addNumber withTerms
  return whole.prune

end LinearForm

end CornerPoint.Spec
