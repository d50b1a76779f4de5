import CornerPoint.Problem
import CornerPoint.Spec.Clause

/-!
Reading a whole problem from one line of text, such as

    maximize 50x + 80y subject to x + 2y <= 120, x + y <= 90, x,y >= 0
-/
namespace CornerPoint.Spec

def markers : List (List Char) :=
  ["subject to".toList, "such that".toList, "s.t.".toList]

/-- What follows after a marker in front of a text. -/
def afterMarker? (text : List Char) : Option (List Char) :=
  markers.findSome? (Text.afterFolded? · text)

/-- The text before the first marker, and the text after it if there is one. -/
def splitMarker : List Char → List Char × Option (List Char)
  | [] => ([], none)
  | c :: rest =>
    match afterMarker? (c :: rest) with
    | some after => ([], some after)
    | none =>
      let (before, after) := splitMarker rest
      (c :: before, after)

/-- The words that ask for a sense; of two that fit, the longer comes first. -/
def senseWords : List (List Char × Sense) :=
  [("maximize".toList, .max), ("minimize".toList, .min), ("max".toList, .max),
    ("min".toList, .min)]

def readSense? (text : List Char) : Option (Sense × List Char) :=
  senseWords.findSome? fun (word, sense) => (Text.afterFolded? word text).map (sense, ·)

variable {α : Type} [Scalar α]

def addClause (p : Problem α) : Clause α → Problem α
  | .nonnegative .x => { p with nonnegX := true }
  | .nonnegative .y => { p with nonnegY := true }
  | .row a b sign c =>
    let name := "c" ++ toString (p.constraints.length + 1)
    { p with constraints := p.constraints ++ [{ a, b, sign, c, name := some name }] }

def readObjective (text : List Char) : Except Refusal (Sense × Objective α) :=
  match readSense? text with
  | none => .error .noSense
  | some (sense, rest) =>
    if (Text.strip rest).isEmpty then .error .noObjective
    else do
      let form ← LinearForm.read (Text.strip rest)
      return (sense, ⟨form.x.getD 0, form.y.getD 0⟩)

/-- The segments of the part after the first marker; a second marker ends that part. -/
def constraintSegments (after : Option (List Char)) : List (List Char) :=
  segments (expand (Text.strip (splitMarker (after.getD [])).1))

/-- Blanks count as single spaces, wherever they stand. -/
def read (spec : List Char) : Except Refusal (Problem α) :=
  let text := Text.collapse spec
  if text.isEmpty then .error .empty
  else do
    let (before, after) := splitMarker text
    let (sense, objective) ← readObjective (Text.strip before)
    let start : Problem α := { name := "parsed", sense, objective }
    (constraintSegments after).foldlM (fun p segment => addClause p <$> Clause.read segment) start

end CornerPoint.Spec
