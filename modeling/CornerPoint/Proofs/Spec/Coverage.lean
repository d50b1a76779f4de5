import CornerPoint.Proofs.Spec.Expression
import CornerPoint.Proofs.Traversal
import CornerPoint.Scalar.Binary64

/-!
What the reader of linear expressions takes into account. The text of an expression is cut into
terms and other characters, and what is left over into numbers and other characters. An expression
is accepted exactly if its terms and numbers can be read, and they alone make up its value; a
character that belongs to neither is passed over, but it is never a letter, an underscore or a digit.
-/
namespace CornerPoint.Text.Cut

variable {p : Char → Bool} {t : List Char}

@[simp] theorem taken_append (first second : Cut) (t : List Char) :
    (first ++ second).taken t = first.taken t ++ second.taken (first.rest t) := rfl

theorem of_mem_taken_many {c : Char} (h : c ∈ (many p).taken t) : p c = true :=
  List.mem_takeWhile_imp h

theorem taken_one_cases (p : Char → Bool) (t : List Char) :
    (one p).taken t = [] ∨ ∃ c, p c = true ∧ (one p).taken t = [c] := by
  cases t with
  | nil => exact .inl rfl
  | cons c t =>
    by_cases hc : p c = true
    · exact .inr ⟨c, hc, by simp [taken, one, hc]⟩
    · exact .inl (by simp [taken, one, hc])

end CornerPoint.Text.Cut

namespace CornerPoint.Spec

open Text

/-- An optional sign, blanks, and then digits with or without a point among them. -/
def IsCoefficient (t : List Char) : Prop :=
  ∃ (p : Option Polarity) (gap whole point part : List Char),
    t = signText p ++ (gap ++ (whole ++ (point ++ part))) ∧ Blank gap ∧
      (point = [] ∨ point = ['.']) ∧ ∀ c ∈ whole ++ part, isDigit c = true

/-- An unaccented letter or an underscore, and then word characters. -/
def IsName (t : List Char) : Prop :=
  ∃ c rest, t = c :: rest ∧ isNameStart c = true ∧ ∀ d ∈ rest, isWord d = true

/-- An optional sign, blanks, and then a number. -/
def IsSignedNumber (t : List Char) : Prop :=
  ∃ (p : Option Polarity) (gap : List Char) (n : Number),
    t = signText p ++ (gap ++ n.text) ∧ Blank gap

/-- The text is spelled by the pieces, one after the other, and a piece that is no term is a
character that no name begins with. -/
inductive Spelled : List Piece → List Char → Prop
  | nil : Spelled [] []
  | term {t : Term} {ps : List Piece} {gap rest : List Char} (hcoef : IsCoefficient t.coefficient)
      (hgap : Blank gap) (hname : IsName t.name) (h : Spelled ps rest) :
      Spelled (.term t :: ps) (t.coefficient ++ (gap ++ (t.name ++ rest)))
  | other {c : Char} {ps : List Piece} {rest : List Char} (hc : isNameStart c = false)
      (h : Spelled ps rest) : Spelled (.other c :: ps) (c :: rest)

/-- The text consists of the numbers, in their order, and of characters that are no digits. -/
inductive Scanned : List (List Char) → List Char → Prop
  | nil : Scanned [] []
  | number {n : List Char} {ns : List (List Char)} {rest : List Char} (hn : IsSignedNumber n)
      (h : Scanned ns rest) : Scanned (n :: ns) (n ++ rest)
  | other {c : Char} {ns : List (List Char)} {rest : List Char} (hc : isDigit c = false)
      (h : Scanned ns rest) : Scanned ns (c :: rest)

theorem taken_sign (t : List Char) : ∃ p, sign.taken t = signText p := by
  rcases Cut.taken_one_cases (fun c => c == '+' || c == '-') t with h | ⟨c, hc, h⟩
  · exact ⟨none, h⟩
  · simp only [Bool.or_eq_true, beq_iff_eq] at hc
    rcases hc with rfl | rfl
    · exact ⟨some .plus, h⟩
    · exact ⟨some .minus, h⟩

theorem taken_point (t : List Char) : point.taken t = [] ∨ point.taken t = ['.'] := by
  rcases Cut.taken_one_cases (· == '.') t with h | ⟨c, hc, h⟩
  · exact .inl h
  · obtain rfl := beq_iff_eq.mp hc
    exact .inr h

theorem isCoefficient_taken (t : List Char) : IsCoefficient (coefficient.taken t) := by
  obtain ⟨p, hp⟩ := taken_sign t
  have hparts : coefficient.taken t = sign.taken t ++ (blanks.taken (sign.rest t) ++
      (digits.taken (blanks.rest (sign.rest t)) ++
        (point.taken (digits.rest (blanks.rest (sign.rest t))) ++
          digits.taken (point.rest (digits.rest (blanks.rest (sign.rest t))))))) := by
    simp [coefficient]
  refine ⟨p, _, _, _, _, hp ▸ hparts, fun c => Cut.of_mem_taken_many, taken_point _, ?_⟩
  intro c hc
  rcases List.mem_append.mp hc with hc | hc
  · exact Cut.of_mem_taken_many hc
  · exact Cut.of_mem_taken_many hc

theorem stops_rest_digits (t : List Char) : Stops isDigit (digits.rest t) := by
  have hhead := List.head?_dropWhile_not isDigit t
  intro c hc
  rw [show (t.dropWhile isDigit).head? = some c from hc] at hhead
  exact hhead

/-- After the digits there is a point with more digits, or nothing that belongs to the number. -/
theorem taken_fraction_cases {t : List Char} (ht : Stops isDigit t) :
    fraction.taken t = [] ∨
      ∃ part, part ≠ [] ∧ (∀ c ∈ part, isDigit c = true) ∧ fraction.taken t = '.' :: part := by
  have hdigits : ∀ c ∈ digits.taken (point.rest t), isDigit c = true :=
    fun c => Cut.of_mem_taken_many
  have hwhole : (point ++ digits).taken t = point.taken t ++ digits.taken (point.rest t) := rfl
  by_cases hlength : 2 ≤ ((point ++ digits).taken t).length
  · right
    have htaken : fraction.taken t = (point ++ digits).taken t :=
      congrArg Prod.fst (if_pos (decide_eq_true hlength))
    rw [htaken, hwhole]
    rw [hwhole] at hlength
    rcases taken_point t with hpoint | hpoint
    · -- Without a point the digits would have been taken before.
      have hrest : point.rest t = t := by
        have hexact := point.taken_append_rest t
        rwa [hpoint, List.nil_append] at hexact
      rw [hpoint, hrest, taken_digits_of_stops ht] at hlength
      exact absurd hlength (by decide)
    · refine ⟨_, ?_, hdigits, by rw [hpoint]; rfl⟩
      intro hnil
      rw [hpoint, hnil] at hlength
      exact absurd hlength (by decide)
  · left
    exact congrArg Prod.fst (if_neg (by simpa using hlength))

/-- Digits and a fraction make up a number. -/
theorem exists_number_taken {t : List Char} (h : digits.taken t ≠ []) :
    ∃ n : Number, digits.taken t ++ fraction.taken (digits.rest t) = n.text := by
  have hwhole : ∀ c ∈ digits.taken t, isDigit c = true := fun c => Cut.of_mem_taken_many
  rcases taken_fraction_cases (stops_rest_digits t) with hnone | ⟨part, hne, hpart, hsome⟩
  · refine ⟨⟨digits.taken t, [], h, by simpa using hwhole⟩, ?_⟩
    rw [hnone]
    simp [Number.text]
  · have hall : ∀ c ∈ digits.taken t ++ part, isDigit c = true := by
      intro c hc
      exact (List.mem_append.mp hc).elim (hwhole c) (hpart c)
    refine ⟨⟨digits.taken t, part, h, hall⟩, ?_⟩
    rw [hsome]
    simp [Number.text, hne]

theorem isSignedNumber_taken {t : List Char}
    (h : digits.taken (blanks.rest (sign.rest t)) ≠ []) :
    IsSignedNumber ((sign ++ blanks ++ digits ++ fraction).taken t) := by
  obtain ⟨p, hp⟩ := taken_sign t
  obtain ⟨n, hn⟩ := exists_number_taken h
  have hgap : Blank (blanks.taken (sign.rest t)) := fun c => Cut.of_mem_taken_many
  refine ⟨p, blanks.taken (sign.rest t), n, ?_, hgap⟩
  rw [← hp, ← hn]
  simp

/-- A term in front of a text is spelled there, with blanks before its name. -/
theorem exists_of_readTerm? {t rest : List Char} {u : Term} (h : readTerm? t = some (u, rest)) :
    ∃ gap, t = u.coefficient ++ (gap ++ (u.name ++ rest)) ∧ IsCoefficient u.coefficient ∧
      Blank gap ∧ IsName u.name := by
  unfold readTerm? at h
  split at h
  · cases h
  · rename_i c after hafter
    split at h
    · rename_i hc
      simp only [Option.some.injEq, Prod.mk.injEq] at h
      obtain ⟨rfl, rfl⟩ := h
      refine ⟨blanks.taken (coefficient.rest t), ?_, isCoefficient_taken t,
        fun c => Cut.of_mem_taken_many, ⟨c, _, rfl, hc, fun d => Cut.of_mem_taken_many⟩⟩
      simp only [List.cons_append, Cut.taken_append_rest]
      rw [← hafter, Cut.taken_append_rest, Cut.taken_append_rest]
    · cases h

/-- A term begins at the latest with its name. -/
theorem isNameStart_of_readTerm?_none {c : Char} {rest : List Char}
    (h : readTerm? (c :: rest) = none) : isNameStart c = false := by
  by_contra hname
  rw [Bool.not_eq_false] at hname
  have hother {p : Char → Bool} (hp : ∀ d, p d = true → isNameStart d = false) :
      Stops p (c :: rest) := by
    refine stops_cons ?_ rest
    by_contra hc
    rw [hp c (by simpa using hc)] at hname
    cases hname
  have hsign : sign.rest (c :: rest) = c :: rest := Cut.rest_one_of_stops (hother (by
    intro d hd
    simp only [Bool.or_eq_true, beq_iff_eq] at hd
    rcases hd with rfl | rfl
    · decide
    · decide))
  have hblanks : blanks.rest (c :: rest) = c :: rest :=
    Cut.rest_many (s := []) (by simp) (hother fun d => isNameStart_of_isBlank)
  have hdigits : digits.rest (c :: rest) = c :: rest :=
    rest_digits_of_stops (hother fun d => isNameStart_of_isDigit)
  have hpoint : point.rest (c :: rest) = c :: rest := Cut.rest_one_of_stops (hother (by
    intro d hd
    rw [beq_iff_eq.mp hd]
    decide))
  have hcoef : coefficient.rest (c :: rest) = c :: rest := by
    simp [coefficient, hsign, hblanks, hdigits, hpoint]
  simp [readTerm?, hcoef, hblanks, hname] at h

theorem spelled_pieces (t : List Char) : Spelled (pieces t) t := by
  induction hn : t.length using Nat.strong_induction_on generalizing t with
  | h n ih =>
    subst hn
    cases hterm : readTerm? t with
    | some found =>
      obtain ⟨u, rest⟩ := found
      obtain ⟨gap, htext, hcoef, hgap, hname⟩ := exists_of_readTerm? hterm
      have hrest := ih _ (readTerm?_length_lt hterm) rest rfl
      rw [pieces_term hterm]
      conv => rhs; rw [htext]
      exact .term hcoef hgap hname hrest
    | none =>
      cases t with
      | nil =>
        rw [pieces_nil]
        exact .nil
      | cons c rest =>
        rw [pieces_other hterm]
        exact .other (isNameStart_of_readTerm?_none hterm) (ih _ (by simp) rest rfl)

theorem isDigit_of_readNumber?_none {c : Char} {rest : List Char}
    (h : readNumber? (c :: rest) = none) : isDigit c = false := by
  by_contra hdigit
  rw [Bool.not_eq_false] at hdigit
  have hsign : sign.rest (c :: rest) = c :: rest := Cut.rest_one_of_stops (stops_cons (by
    simp [ne_of_isDigit (d := '+') hdigit (by decide), ne_of_isDigit (d := '-') hdigit (by decide)])
    rest)
  have hblanks : blanks.rest (c :: rest) = c :: rest :=
    Cut.rest_many (s := []) (by simp) (stops_cons (isBlank_of_isDigit hdigit) rest)
  have htaken : digits.taken (c :: rest) ≠ [] := by
    simp [digits, Cut.taken, Cut.many, hdigit]
  simp [readNumber?, hsign, hblanks, htaken] at h

theorem scanned_numbers (t : List Char) : Scanned (numbers t) t := by
  induction hn : t.length using Nat.strong_induction_on generalizing t with
  | h n ih =>
    subst hn
    cases hnumber : readNumber? t with
    | some found =>
      obtain ⟨number, rest⟩ := found
      have hrest := ih _ (readNumber?_length_lt hnumber) rest rfl
      rw [numbers_number hnumber]
      unfold readNumber? at hnumber
      simp only [Option.ite_none_left_eq_some, List.isEmpty_iff, Option.some.injEq] at hnumber
      obtain ⟨hdigits, hrun⟩ := hnumber
      have htext : number ++ rest = t := by
        have hexact := (sign ++ blanks ++ digits ++ fraction).exact t
        rwa [hrun] at hexact
      have htaken : number = (sign ++ blanks ++ digits ++ fraction).taken t :=
        (congrArg Prod.fst hrun).symm
      conv => rhs; rw [← htext]
      refine .number ?_ hrest
      rw [htaken]
      exact isSignedNumber_taken hdigits
    | none =>
      cases t with
      | nil =>
        rw [numbers_nil]
        exact .nil
      | cons c rest =>
        rw [numbers_other hnumber]
        exact .other (isDigit_of_readNumber?_none hnumber) (ih _ (by simp) rest rfl)

section Value

variable {α : Type} [Scalar α]

/-- The variable and the coefficient that a term stands for. -/
def Term.weight (t : Term) : Except Refusal (Variable × α) :=
  match Variable.ofName? t.name with
  | none => .error (.unknownVariable t.name)
  | some v => (readCoefficient t.coefficient).map fun c => (v, c)

def weightsOf (v : Variable) (weights : List (Variable × α)) : List α :=
  weights.filterMap fun (w, c) => if w = v then some c else none

/-- The pieces that an expression is read by. -/
def stretches (text : List Char) : List Piece := pieces (withoutStars text)

namespace LinearForm

theorem addTerm_eq (f : LinearForm α) (t : Term) :
    f.addTerm t = t.weight.map fun w =>
      f.addCoefficients (weightsOf .x [w]) (weightsOf .y [w]) := by
  unfold addTerm Term.weight
  rcases Variable.ofName? t.name with - | (- | -)
  · rfl
  · cases (readCoefficient t.coefficient : Except Refusal α) <;> rfl
  · cases (readCoefficient t.coefficient : Except Refusal α) <;> rfl

theorem foldl_addCoefficients (f : LinearForm α) (weights : List (Variable × α)) :
    weights.foldl (fun f w => f.addCoefficients (weightsOf .x [w]) (weightsOf .y [w])) f =
      f.addCoefficients (weightsOf .x weights) (weightsOf .y weights) := by
  induction weights generalizing f with
  | nil => rfl
  | cons w weights ih =>
    have hcons (v : Variable) :
        weightsOf v [w] ++ weightsOf v weights = weightsOf v (w :: weights) :=
      List.filterMap_append.symm
    rw [List.foldl_cons, ih, addCoefficients_append, hcons, hcons]

theorem foldl_addConstant (f : LinearForm α) (values : List α) :
    values.foldl (fun f v => { f with constant := f.constant + v }) f =
      { f with constant := values.foldl (· + ·) f.constant } := by
  induction values generalizing f with
  | nil => rfl
  | cons v values ih => exact ih _

theorem prune_eq (xs ys constants : List α) :
    prune { (zero : LinearForm α).addCoefficients xs ys with
      constant := constants.foldl (· + ·) zero.constant } =
      ⟨total? xs, total? ys, sum constants⟩ := by
  rw [← filter_foldl_addTo xs, ← filter_foldl_addTo ys]
  rfl

/-- The value of an expression is that of its terms and numbers. -/
theorem read_eq (text : List Char) : (read text : Except Refusal (LinearForm α)) = do
    let weights ← (terms (stretches text)).mapM Term.weight
    let constants ← (numbers (leftover (stretches text))).mapM fun n =>
      readScalar (withoutSpaces n)
    return ⟨total? (weightsOf .x weights), total? (weightsOf .y weights), sum constants⟩ := by
  have hterm : (addTerm : LinearForm α → Term → _) = fun f t => t.weight.map fun w =>
      f.addCoefficients (weightsOf .x [w]) (weightsOf .y [w]) :=
    funext fun f => funext fun t => addTerm_eq f t
  change ((terms (stretches text)).foldlM addTerm zero >>= fun f =>
    (numbers (leftover (stretches text))).foldlM addNumber f >>= fun g => pure g.prune) = _
  unfold addNumber
  rw [hterm, foldlM_map_eq]
  simp only [foldlM_map_eq, foldl_addCoefficients, foldl_addConstant]
  cases (terms (stretches text)).mapM fun t => (t.weight : Except Refusal (Variable × α)) with
  | error refusal => rfl
  | ok weights =>
    cases (numbers (leftover (stretches text))).mapM fun n =>
        (readScalar (withoutSpaces n) : Except Refusal α) with
    | error refusal => rfl
    | ok constants => exact congrArg Except.ok (prune_eq _ _ _)

/-- Every expression is spelled by its terms and other characters, and what the terms leave by
numbers and other characters. It is accepted exactly if all terms and numbers can be read, and its
value is theirs: the other characters, among which there is no letter, underscore or digit, make no
difference. -/
theorem read_by_terms_and_numbers (text : List Char) :
    Spelled (stretches text) (withoutStars text) ∧
    Scanned (numbers (leftover (stretches text))) (leftover (stretches text)) ∧
    ∀ form : LinearForm α, read text = .ok form ↔
      ∃ weights constants, (terms (stretches text)).mapM Term.weight = .ok weights ∧
        (numbers (leftover (stretches text))).mapM (fun n => readScalar (withoutSpaces n)) =
          .ok constants ∧
        form = ⟨total? (weightsOf .x weights), total? (weightsOf .y weights), sum constants⟩ := by
  refine ⟨spelled_pieces _, scanned_numbers _, ?_⟩
  intro form
  rw [read_eq]
  cases (terms (stretches text)).mapM fun t => (t.weight : Except Refusal (Variable × α)) with
  | error refusal => simp [bind, Except.bind]
  | ok weights =>
    cases (numbers (leftover (stretches text))).mapM fun n =>
        (readScalar (withoutSpaces n) : Except Refusal α) with
    | error refusal => simp [bind, Except.bind]
    | ok constants => simp [bind, Except.bind, pure, Except.pure, eq_comm]

/-- A power, a bracket and a lone sign are accepted, although they belong to no term or number. -/
theorem stray_characters_accepted :
    stretches "x^2".toList = [.term ⟨[], ['x']⟩, .other '^', .other '2'] ∧
    numbers (leftover (stretches "x^2".toList)) = [['2']] ∧
    read "x^2".toList = .ok (⟨some 1, none, 2⟩ : LinearForm Float) ∧
    read "2(x + y)".toList = .ok (⟨some 1, some 1, 2⟩ : LinearForm Float) ∧
    read "x - -".toList = .ok (⟨some 1, none, 0⟩ : LinearForm Float) := by
  decide +kernel

end LinearForm

end Value

end CornerPoint.Spec
