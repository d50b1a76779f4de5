import CornerPoint.Spec.LinearForm

/-!
Bounds that several variables share, such as `x, y >= 0`. Each of them is written out as one bound
for every variable, before the text is cut at its commas.
-/
namespace CornerPoint.Spec

open Text

def isVariable (c : Char) : Bool := c == 'x' || c == 'y'

/-- A comma and a variable in front of a text, with blanks around the comma. -/
def nextVariable? (text : List Char) : Option (Char × List Char) :=
  match blanks.rest text with
  | ',' :: afterComma =>
    match blanks.rest afterComma with
    | v :: rest => if isVariable v then some (v, rest) else none
    | [] => none
  | _ => none

theorem nextVariable?_length_lt {text rest : List Char} {v : Char}
    (h : nextVariable? text = some (v, rest)) : rest.length < text.length := by
  unfold nextVariable? at h
  have h1 := blanks.length_rest_le text
  split at h
  · rename_i after he
    have h2 := blanks.length_rest_le after
    rw [he, List.length_cons] at h1
    split at h
    · rename_i w more hm
      rw [hm, List.length_cons] at h2
      simp only [Option.ite_none_right_eq_some, Option.some.injEq, Prod.mk.injEq] at h
      rw [← h.2.2]
      omega
    · simp at h
  · simp at h

/-- As many further variables as follow, and the text after them. -/
def moreVariables (text : List Char) : List Char × List Char :=
  match _h : nextVariable? text with
  | some (v, rest) =>
    let (others, final) := moreVariables rest
    (v :: others, final)
  | none => ([], text)
termination_by text.length
decreasing_by exact nextVariable?_length_lt _h

/-- `<=` or `>=` in front of a text. -/
def boundSign? : List Char → Option (List Char × List Char)
  | '<' :: '=' :: rest => some (['<', '='], rest)
  | '>' :: '=' :: rest => some (['>', '='], rest)
  | _ => none

/-- A number in front of a text: an optional minus sign, digits, and optionally a point with digits
after it. -/
def boundNumber? (text : List Char) : Option (List Char × List Char) :=
  if (digits.taken (minus.rest text)).isEmpty then none
  else some ((minus ++ digits ++ fraction).run text)

structure SharedBound where
  names : List Char
  sign : List Char
  number : List Char
  deriving DecidableEq, Repr

namespace SharedBound

/-- A bound for at least two variables in front of a text. -/
def read? (text : List Char) : Option (SharedBound × List Char) :=
  match text with
  | [] => none
  | v :: afterFirst =>
    let (others, afterVariables) := moreVariables afterFirst
    if !isVariable v || others.isEmpty then none
    else
      match boundSign? (blanks.rest afterVariables) with
      | none => none
      | some (sign, afterSign) =>
        match boundNumber? (blanks.rest afterSign) with
        | none => none
        | some (number, rest) => some (⟨v :: others, sign, number⟩, rest)

/-- One bound for each variable, with semicolons between them. -/
def written (b : SharedBound) : List Char :=
  [';', ' '].intercalate (b.names.map fun v => v :: ' ' :: b.sign ++ ' ' :: b.number)

end SharedBound

theorem moreVariables_length_le (text : List Char) :
    (moreVariables text).2.length ≤ text.length := by
  fun_induction moreVariables text with
  | case1 text v rest h others final hm ih =>
    have := nextVariable?_length_lt h
    rw [hm] at ih
    simp only at ih ⊢
    omega
  | case2 text h => exact Nat.le_refl _

theorem boundSign?_length_lt {text sign rest : List Char}
    (h : boundSign? text = some (sign, rest)) : rest.length < text.length := by
  unfold boundSign? at h
  split at h
  · simp only [Option.some.injEq, Prod.mk.injEq] at h
    rw [← h.2]
    simp only [List.length_cons]
    omega
  · simp only [Option.some.injEq, Prod.mk.injEq] at h
    rw [← h.2]
    simp only [List.length_cons]
    omega
  · simp at h

theorem boundNumber?_length_le {text number rest : List Char}
    (h : boundNumber? text = some (number, rest)) : rest.length ≤ text.length := by
  unfold boundNumber? at h
  simp only [Option.ite_none_left_eq_some, Option.some.injEq] at h
  have h1 := (minus ++ digits ++ fraction).length_rest_le text
  have h2 : rest = (minus ++ digits ++ fraction).rest text := (congrArg Prod.snd h.2).symm
  rw [h2]
  exact h1

theorem SharedBound.read?_length_lt {text rest : List Char} {b : SharedBound}
    (h : SharedBound.read? text = some (b, rest)) : rest.length < text.length := by
  unfold SharedBound.read? at h
  split at h
  · simp at h
  · rename_i v after
    have h1 := moreVariables_length_le after
    have h2 := blanks.length_rest_le (moreVariables after).2
    simp only at h
    split at h
    · simp at h
    · split at h
      · simp at h
      · rename_i sign afterSign hs
        have h3 := boundSign?_length_lt hs
        have h4 := blanks.length_rest_le afterSign
        split at h
        · simp at h
        · rename_i number more hn
          have h5 := boundNumber?_length_le hn
          simp only [Option.some.injEq, Prod.mk.injEq] at h
          rw [← h.2]
          simp only [List.length_cons]
          omega

/-- A shared bound is only looked for where no word character stands before it. -/
def sharedBoundAt? (afterWord : Bool) (text : List Char) : Option (SharedBound × List Char) :=
  if afterWord then none else SharedBound.read? text

/-- Write out all shared bounds. Each ends in a digit, which is a word character. -/
def expandFrom (afterWord : Bool) (text : List Char) : List Char :=
  match _h : sharedBoundAt? afterWord text with
  | some (b, rest) => b.written ++ expandFrom true rest
  | none =>
    match text with
    | [] => []
    | c :: rest => c :: expandFrom (isWord c) rest
termination_by text.length
decreasing_by
  · unfold sharedBoundAt? at _h
    split at _h
    · simp at _h
    · exact SharedBound.read?_length_lt _h
  · simp

def expand (text : List Char) : List Char := expandFrom false text

end CornerPoint.Spec
