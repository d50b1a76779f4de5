import CornerPoint.Proofs.Spec.Character
import CornerPoint.Proofs.Spec.Layout
import CornerPoint.Spec.Reader

/-!
The language of specifications, and what a sentence of it means. Neither is said in terms of the
reader: a sentence is a list of words to be laid out with any white space between them, and its
meaning is a problem.
-/
namespace CornerPoint.Text

theorem isBlank_toLower {c : Char} (h : isBlank c.toLower = false) : isBlank c = false := by
  by_cases hupper : 65 ≤ c.toNat ∧ c.toNat ≤ 90
  · simp [isBlank, isWhiteSpace]
    omega
  · rwa [toLower_eq_self hupper] at h

theorem Spells.solid {word text : List Char} (h : Spells word text)
    (hword : word.any isBlank = false) : ∀ c ∈ text, isBlank c = false := by
  subst h
  intro c hc
  exact isBlank_toLower (eq_false_of_any hword c.toLower (List.mem_map_of_mem hc))

theorem Spells.ne_nil {word text : List Char} (h : Spells word text) (hword : word ≠ []) :
    text ≠ [] := by
  rintro rfl
  exact hword h.symm

end CornerPoint.Text

namespace CornerPoint.Spec

open Text

/-- Digits of any script, and optionally a point with more digits after it. -/
structure Number where
  whole : List Char
  part : List Char := []
  whole_ne_nil : whole ≠ []
  isDigit_of_mem : ∀ c ∈ whole ++ part, isDigit c = true

namespace Number

def text (n : Number) : List Char :=
  if n.part.isEmpty then n.whole else n.whole ++ '.' :: n.part

/-- All digits as one number; the point only moves it. -/
def significand (n : Number) : Nat :=
  (n.whole ++ n.part).foldl (fun value c => 10 * value + (digitValue? c).getD 0) 0

def numeral (n : Number) (negative : Bool) : Numeral :=
  .decimal negative n.significand (-(n.part.length : Int))

theorem mem_text {n : Number} {c : Char} (h : c ∈ n.text) : c = '.' ∨ isDigit c = true := by
  unfold text at h
  split at h
  · exact .inr (n.isDigit_of_mem c (by simp [h]))
  · simp only [List.mem_append, List.mem_cons] at h
    rcases h with h | rfl | h
    · exact .inr (n.isDigit_of_mem c (by simp [h]))
    · exact .inl rfl
    · exact .inr (n.isDigit_of_mem c (by simp [h]))

theorem text_ne_nil (n : Number) : n.text ≠ [] := by
  unfold text
  split
  · exact n.whole_ne_nil
  · simp

theorem text_solid (n : Number) : ∀ c ∈ n.text, isBlank c = false := by
  intro c hc
  rcases mem_text hc with rfl | hc
  · decide
  · exact isBlank_of_isDigit hc

def word (n : Number) : Word := ⟨n.text, false, n.text_ne_nil, n.text_solid⟩

end Number

/-- A word of one character. -/
def Word.mark (c : Char) (h : isBlank c = false := by decide) : Word :=
  ⟨[c], false, by simp, by simpa using h⟩

def Word.spelled {word text : List Char} (h : Spells word text) (hne : word ≠ [])
    (hword : word.any isBlank = false) : Word :=
  ⟨text, false, h.ne_nil hne, h.solid hword⟩

inductive Polarity where
  | plus
  | minus
  deriving DecidableEq, Repr

namespace Polarity

def char : Polarity → Char
  | plus => '+'
  | minus => '-'

def word : Polarity → Word
  | plus => .mark '+'
  | minus => .mark '-'

def isMinus : Polarity → Bool
  | plus => false
  | minus => true

end Polarity

namespace Variable

def char : Variable → Char
  | x => 'x'
  | y => 'y'

def word : Variable → Word
  | x => .mark 'x'
  | y => .mark 'y'

def other : Variable → Variable
  | x => y
  | y => x

end Variable

/-- What is added up in an expression: a number, or a variable with an optional number and an
optional star before it. -/
inductive Item where
  | constant (n : Number)
  | term (n : Option Number) (star : Bool) (v : Variable)

def Item.words : Item → List Word
  | constant n => [n.word]
  | term n star v => (n.map Number.word).toList ++ ((if star then [.mark '*'] else []) ++ [v.word])

theorem Item.forall_words {P : Word → Prop} (hnumber : ∀ n : Number, P n.word)
    (hstar : P (.mark '*')) (hvariable : ∀ v : Variable, P v.word) {item : Item} :
    ∀ w ∈ item.words, P w := by
  intro w hw
  cases item with
  | constant n =>
    rw [List.mem_singleton.mp hw]
    exact hnumber n
  | term n star v =>
    simp only [words, List.mem_append, Option.mem_toList, List.mem_singleton] at hw
    rcases hw with hw | hw | rfl
    · obtain ⟨m, -, rfl⟩ := Option.map_eq_some_iff.mp hw
      exact hnumber m
    · cases star with
      | false => simp at hw
      | true =>
        rw [List.mem_singleton.mp hw]
        exact hstar
    · exact hvariable v

/-- Only the first item may stand without a sign. -/
structure Expression where
  sign : Option Polarity
  first : Item
  others : List (Polarity × Item)

namespace Expression

/-- The words of an item with its sign, if there is one. -/
def signedWords (sign : Option Polarity) (item : Item) : List Word :=
  (sign.map Polarity.word).toList ++ item.words

def words (e : Expression) : List Word :=
  signedWords e.sign e.first ++ e.others.flatMap fun (sign, item) => signedWords (some sign) item

def ofVariable (v : Variable) : Expression := ⟨none, .term none false v, []⟩

/-- What holds of signs, numbers, stars and variables holds of all words of an expression. -/
theorem forall_words {P : Word → Prop} (hsign : ∀ p : Polarity, P p.word)
    (hnumber : ∀ n : Number, P n.word) (hstar : P (.mark '*'))
    (hvariable : ∀ v : Variable, P v.word) (e : Expression) : ∀ w ∈ e.words, P w := by
  have hsigned : ∀ (p : Option Polarity) (item : Item), ∀ w ∈ signedWords p item, P w := by
    intro p item w hw
    rcases List.mem_append.mp hw with hw | hw
    · obtain ⟨q, -, rfl⟩ := Option.map_eq_some_iff.mp (Option.mem_toList.mp hw)
      exact hsign q
    · exact Item.forall_words hnumber hstar hvariable w hw
  intro w hw
  rcases List.mem_append.mp hw with hw | hw
  · exact hsigned e.sign e.first w hw
  · obtain ⟨⟨p, item⟩, -, hw⟩ := List.mem_flatMap.mp hw
    exact hsigned (some p) item w hw

theorem words_ne_nil (e : Expression) : e.words ≠ [] := by
  have hitem : e.first.words ≠ [] := by
    cases e.first with
    | constant n => simp [Item.words]
    | term n star v => simp [Item.words]
  simp [words, signedWords, hitem]

theorem starts (e : Expression) : Starts e.words := by
  have hall : ∀ w ∈ e.words, w.apart = false :=
    forall_words (P := (·.apart = false)) (fun p => by cases p <;> rfl) (fun _ => rfl) rfl
      (fun v => by cases v <;> rfl) e
  obtain ⟨w, rest, he⟩ := List.exists_cons_of_ne_nil e.words_ne_nil
  exact ⟨w, rest, he, hall w (by simp [he])⟩

end Expression

inductive Comparator where
  | atMost
  | atLeast
  | equal
  | doubleEqual
  deriving DecidableEq, Repr

namespace Comparator

def text : Comparator → List Char
  | atMost => ['<', '=']
  | atLeast => ['>', '=']
  | equal => ['=']
  | doubleEqual => ['=', '=']

def word (c : Comparator) : Word :=
  ⟨c.text, false, by cases c <;> decide, eq_false_of_any (by cases c <;> decide)⟩

def sign : Comparator → Sign
  | atMost => .le
  | atLeast => .ge
  | equal | doubleEqual => .eq

end Comparator

/-- A number with an optional minus sign, which no white space parts from it. -/
structure Bound where
  isMinus : Bool
  number : Number

namespace Bound

def text (b : Bound) : List Char := (if b.isMinus then ['-'] else []) ++ b.number.text

theorem mem_text {b : Bound} {c : Char} (h : c ∈ b.text) :
    c = '-' ∨ c = '.' ∨ isDigit c = true := by
  rcases List.mem_append.mp h with h | h
  · split at h
    · exact .inl (List.mem_singleton.mp h)
    · simp at h
  · exact .inr (Number.mem_text h)

theorem text_solid (b : Bound) : ∀ c ∈ b.text, isBlank c = false := by
  intro c hc
  rcases mem_text hc with rfl | rfl | hc
  · decide
  · decide
  · exact isBlank_of_isDigit hc

def word (b : Bound) : Word := ⟨b.text, false, by simp [text, b.number.text_ne_nil], b.text_solid⟩

end Bound

/-- The sides on which several variables can share a bound. -/
inductive Side where
  | above
  | below
  deriving DecidableEq, Repr

def Side.comparator : Side → Comparator
  | above => .atMost
  | below => .atLeast

structure Comparison where
  lhs : Expression
  comparator : Comparator
  bound : Bound

def Comparison.words (c : Comparison) : List Word :=
  c.lhs.words ++ [c.comparator.word, c.bound.word]

theorem Comparison.starts (c : Comparison) : Starts c.words := c.lhs.starts.append _

/-- A comparison, or one bound for at least two variables. -/
inductive Segment where
  | single (c : Comparison)
  | shared (first second : Variable) (others : List Variable) (side : Side) (bound : Bound)

namespace Segment

def words : Segment → List Word
  | single c => c.words
  | shared first second others side bound =>
    first.word :: ((second :: others).flatMap fun v => [.mark ',', v.word]) ++
      [side.comparator.word, bound.word]

/-- A shared bound stands for one comparison for each variable. -/
def comparisons : Segment → List Comparison
  | single c => [c]
  | shared first second others side bound =>
    (first :: second :: others).map fun v => ⟨.ofVariable v, side.comparator, bound⟩

end Segment

/-- The first word of a list stands apart. -/
def spaced : List Word → List Word
  | [] => []
  | w :: ws => { w with apart := true } :: ws

inductive Separator where
  | comma
  | semicolon
  | conjunction (text : List Char) (h : Spells "and".toList text)

/-- The words of a separator and of what follows it. White space parts "and" from its neighbours. -/
def Separator.wordsBefore : Separator → List Word → List Word
  | comma, ws => .mark ',' :: ws
  | semicolon, ws => .mark ';' :: ws
  | conjunction _ h, ws => spaced (.spelled h (by decide) (by decide) :: spaced ws)

/-- The words that announce constraints; two that belong together have white space between them. -/
inductive Marker where
  | subjectTo (front back : List Char) (hf : Spells "subject".toList front)
      (hb : Spells "to".toList back)
  | suchThat (front back : List Char) (hf : Spells "such".toList front)
      (hb : Spells "that".toList back)
  | abbreviated (text : List Char) (h : Spells "s.t.".toList text)

def Marker.words : Marker → List Word
  | subjectTo _ _ hf hb =>
    .spelled hf (by decide) (by decide) :: spaced [.spelled hb (by decide) (by decide)]
  | suchThat _ _ hf hb =>
    .spelled hf (by decide) (by decide) :: spaced [.spelled hb (by decide) (by decide)]
  | abbreviated _ h => [.spelled h (by decide) (by decide)]

/-- The word that asks for a sense, in full or shortened. -/
def Keyword.letters : Sense → (long : Bool) → List Char
  | .max, true => "maximize".toList
  | .min, true => "minimize".toList
  | .max, false => "max".toList
  | .min, false => "min".toList

structure Keyword where
  sense : Sense
  long : Bool
  text : List Char
  spelled : Spells (Keyword.letters sense long) text

def Keyword.word (k : Keyword) : Word :=
  .spelled k.spelled (by cases k.sense <;> cases k.long <;> decide)
    (by cases k.sense <;> cases k.long <;> decide)

structure Conditions where
  marker : Marker
  first : Segment
  others : List (Separator × Segment)

namespace Conditions

def segmentWords (c : Conditions) : List Word :=
  c.first.words ++ c.others.flatMap fun (separator, s) => separator.wordsBefore s.words

def words (c : Conditions) : List Word := c.marker.words ++ c.segmentWords

def segments (c : Conditions) : List Segment := c.first :: c.others.map Prod.snd

end Conditions

/-- A keyword and an objective, and optionally a marker with one or more segments after it. -/
structure Sentence where
  keyword : Keyword
  objective : Expression
  conditions : Option Conditions

namespace Sentence

def words (s : Sentence) : List Word :=
  s.keyword.word :: (s.objective.words ++ (s.conditions.map Conditions.words).getD [])

/-- The text holds the words of the sentence, with any white space around them. -/
def Written (s : Sentence) (text : List Char) : Prop :=
  ∃ body last, text = body ++ last ∧ Laid Blank s.words body ∧ Blank last

end Sentence

section Meaning

variable {α : Type} [Scalar α]

/-- Every decimal stands for some scalar. -/
def ReadsDecimals (α : Type) [Scalar α] : Prop :=
  ∀ negative digits exponent,
    (Scalar.ofNumeral? (.decimal negative digits exponent) : Option α).isSome = true

def Number.value (n : Number) (negative : Bool) : α :=
  (Scalar.ofNumeral? (n.numeral negative)).getD 0

def Polarity.one : Polarity → α
  | plus => 1
  | minus => -1

/-- What a signed item adds to the coefficient of a variable. A missing number is a one. -/
def Item.coefficient? (v : Variable) (sign : Polarity) : Item → Option α
  | constant _ => none
  | term n _ w =>
    if w = v then
      some (match n with
        | none => sign.one
        | some n => n.value sign.isMinus)
    else none

def Item.constant? (sign : Polarity) : Item → Option α
  | constant n => some (n.value sign.isMinus)
  | term _ _ _ => none

/-- From left to right. -/
def sum (values : List α) : α := values.foldl (· + ·) 0

/-- The sum, unless there is nothing to add up or the sum is not of a magnitude that counts. -/
def total? : List α → Option α
  | [] => none
  | values => if 1e-12 < Scalar.abs (sum values) then some (sum values) else none

namespace Expression

/-- The items with their signs. -/
def items (e : Expression) : List (Polarity × Item) := (e.sign.getD .plus, e.first) :: e.others

def coefficients (e : Expression) (v : Variable) : List α :=
  e.items.filterMap fun (sign, item) => item.coefficient? v sign

/-- The coefficient of a variable, unless the variable does not occur or counts as absent. -/
def weight? (e : Expression) (v : Variable) : Option α := total? (e.coefficients v)

def weight (e : Expression) (v : Variable) : α := (e.weight? v).getD 0

def constant (e : Expression) : α :=
  sum (e.items.filterMap fun (sign, item) => item.constant? sign)

/-- Whether the expression is the variable and nothing else. -/
def isAlone (e : Expression) (α : Type) [Scalar α] (v : Variable) : Bool :=
  (e.weight? v : Option α).any (· == 1) && (e.weight? v.other : Option α).isNone &&
    (e.constant : α) == 0

end Expression

def Bound.value (b : Bound) : α := b.number.value b.isMinus

namespace Comparison

/-- Whether the comparison only keeps the variable from being negative. -/
def keepsNonnegative (c : Comparison) (α : Type) [Scalar α] (v : Variable) : Bool :=
  c.comparator.sign = .ge && (c.bound.value : α) == 0 && c.lhs.isAlone α v

/-- The constant on the left moves to the right. -/
def clause (c : Comparison) : Clause α :=
  if c.keepsNonnegative α .x then .nonnegative .x
  else if c.keepsNonnegative α .y then .nonnegative .y
  else .row (c.lhs.weight .x) (c.lhs.weight .y) c.comparator.sign (c.bound.value - c.lhs.constant)

end Comparison

def Clause.row? : Clause α → Option (Row α)
  | .nonnegative _ => none
  | .row a b sign c => some { a, b, sign, c }

def Clause.isNonnegative (v : Variable) : Clause α → Bool
  | .nonnegative w => w = v
  | .row _ _ _ _ => false

namespace Sentence

def clauses (s : Sentence) : List (Clause α) :=
  (((s.conditions.map Conditions.segments).getD []).flatMap Segment.comparisons).map
    Comparison.clause

/-- Rows are numbered from one, in the order in which they stand. -/
def problem (s : Sentence) : Problem α where
  name := "parsed"
  sense := s.keyword.sense
  objective := ⟨s.objective.weight .x, s.objective.weight .y⟩
  constraints := (s.clauses.filterMap Clause.row?).mapIdx fun i r =>
    { r with name := some ("c" ++ toString (i + 1)) }
  nonnegX := (s.clauses : List (Clause α)).any (Clause.isNonnegative .x)
  nonnegY := (s.clauses : List (Clause α)).any (Clause.isNonnegative .y)

end Sentence

end Meaning

end CornerPoint.Spec
