import CornerPoint.Row
import CornerPoint.Spec.SharedBound

/-!
The clauses of a specification. The text after the objective is cut into segments at commas,
semicolons and the word "and"; a segment compares a linear expression with a number.
-/
namespace CornerPoint.Spec

/-- What a separator in front of a text leaves, and whether the separator ends in a word character.
-/
def separator? (afterWord : Bool) (text : List Char) : Option (Bool × List Char) :=
  match text with
  | ',' :: rest | ';' :: rest => some (false, rest)
  | _ =>
    match Text.afterFolded? ['a', 'n', 'd'] text with
    | some rest => if afterWord || rest.head?.any Text.isWord then none else some (true, rest)
    | none => none

theorem afterFolded?_length {word text rest : List Char}
    (h : Text.afterFolded? word text = some rest) : text.length = word.length + rest.length := by
  fun_induction Text.afterFolded? word text with
  | case1 text => simp_all
  | case2 => simp at h
  | case3 w word c text _ ih =>
    have := ih h
    simp only [List.length_cons]
    omega
  | case4 => simp at h

theorem separator?_length_lt {afterWord flag : Bool} {text rest : List Char}
    (h : separator? afterWord text = some (flag, rest)) : rest.length < text.length := by
  unfold separator? at h
  split at h
  · simp_all
  · simp_all
  · split at h
    · rename_i more hm
      have := afterFolded?_length hm
      simp only [List.length_cons, List.length_nil] at this
      split at h
      · simp at h
      · simp only [Option.some.injEq, Prod.mk.injEq] at h
        rw [← h.2]
        omega
    · simp at h

/-- The first stretch between separators, and the later ones. -/
def cut (afterWord : Bool) (text : List Char) : List Char × List (List Char) :=
  match _h : separator? afterWord text with
  | some (flag, rest) =>
    let (first, later) := cut flag rest
    ([], first :: later)
  | none =>
    match text with
    | [] => ([], [])
    | c :: rest =>
      let (first, later) := cut (Text.isWord c) rest
      (c :: first, later)
termination_by text.length
decreasing_by
  · exact separator?_length_lt _h
  · simp

/-- The stretches between separators that hold more than blanks. -/
def segments (text : List Char) : List (List Char) :=
  let (first, later) := cut false text
  ((first :: later).map Text.strip).filter (!·.isEmpty)

/-- The text before the first comparator, the comparator, and the text after it. -/
def splitComparator? : List Char → Option (List Char × Sign × List Char)
  | [] => none
  | '<' :: '=' :: rest => some ([], .le, rest)
  | '>' :: '=' :: rest => some ([], .ge, rest)
  | '=' :: '=' :: rest => some ([], .eq, rest)
  | '=' :: rest => some ([], .eq, rest)
  | c :: rest => (splitComparator? rest).map fun (lhs, sign, rhs) => (c :: lhs, sign, rhs)

/-- A segment either asks for a variable not to be negative or is a row. -/
inductive Clause (α : Type) where
  | nonnegative (v : Variable)
  | row (a b : α) (sign : Sign) (c : α)
  deriving DecidableEq, Repr

variable {α : Type} [Scalar α]

/-- The variable alone on the left of `>= 0`. -/
def nonnegative? (f : LinearForm α) (sign : Sign) (bound : α) : Option Variable :=
  if sign = .ge && bound == 0 && f.constant == 0 then
    match f.x, f.y with
    | some a, none => if a == 1 then some .x else none
    | none, some b => if b == 1 then some .y else none
    | _, _ => none
  else none

/-- Spaces within the right-hand side do not count. -/
def readBound (text : List Char) : Except Refusal α :=
  match (Numeral.read? (Text.withoutSpaces text)).bind Scalar.ofNumeral? with
  | some v => .ok v
  | none => .error (.badBound text)

/-- The constant of the left-hand side moves to the right. -/
def Clause.ofForm (f : LinearForm α) (sign : Sign) (bound : α) : Clause α :=
  match nonnegative? f sign bound with
  | some v => .nonnegative v
  | none => .row (f.x.getD 0) (f.y.getD 0) sign (bound - f.constant)

def Clause.read (segment : List Char) : Except Refusal (Clause α) :=
  match splitComparator? segment with
  | none => .error (.noComparator segment)
  | some (lhs, sign, rhs) =>
    if (Text.strip lhs).isEmpty || (Text.strip rhs).isEmpty then .error (.incomplete segment)
    else do
      let form ← LinearForm.read (Text.strip lhs)
      let bound ← readBound (Text.strip rhs)
      return Clause.ofForm form sign bound

end CornerPoint.Spec
