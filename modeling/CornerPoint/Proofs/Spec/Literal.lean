import CornerPoint.Proofs.Spec.Coverage
import CornerPoint.Proofs.Spec.Sentence

/-!
Decimal literals as coefficients and as constants. The two are found by different searches. Both
read digits, and a point after them, for the same number; but while a coefficient may begin with
its point, a constant begins with a digit, so that the point before it and the sign before the point
are passed over.
-/
namespace CornerPoint.Numeral

open Text

/-- A text of digits and points is read as a decimal. -/
theorem read?_of_digits {t : List Char} (hne : t ≠ []) (h : ∀ c ∈ t, c = '.' ∨ isDigit c = true) :
    read? t = decimal? false (t.map westernDigit) := by
  have hspace : ∀ c ∈ t, isWhiteSpace c = false := by
    intro c hc
    rcases h c hc with rfl | hc
    · decide
    · exact isWhiteSpace_of_isBlank (isBlank_of_isDigit hc)
  have hwestern : ∀ d ∈ t.map westernDigit, d = '.' ∨ d.isDigit = true := by
    intro d hd
    obtain ⟨c, hc, rfl⟩ := List.mem_map.mp hd
    rcases h c hc with rfl | hc
    · exact .inl (westernDigit_of_not_isDigit (by decide))
    · exact .inr (isDigit_westernDigit hc)
  have hjoin : joinDigits? false (t.map westernDigit) = some (t.map westernDigit) := by
    refine joinDigits?_eq_some (fun d hd => ?_) false
    rcases hwestern d hd with rfl | hd
    · decide
    · rintro rfl
      exact absurd hd (by decide)
  obtain ⟨d, rest, ht⟩ := List.exists_cons_of_ne_nil (l := t.map westernDigit) (by simpa using hne)
  rw [read?, trim_eq_self hspace, hjoin, Option.bind_some, ht, parse?]
  rcases hwestern d (by simp [ht]) with rfl | hd
  · rw [show splitSign ('.' :: rest) = (false, '.' :: rest) from rfl]
    simp only [word?_of_head (d := '.') (by decide) (by decide), Option.none_or]
  · simp only [splitSign_of_isDigit hd, word?_of_isDigit hd, Option.none_or]

end CornerPoint.Numeral

namespace CornerPoint.Spec

open Text

/-- Digits of any script, at least one of them, and optionally a point before, among or after
them. -/
structure Literal where
  whole : List Char
  part : Option (List Char) := none
  ne_nil : whole ++ part.getD [] ≠ []
  isDigit_of_mem : ∀ c ∈ whole ++ part.getD [], isDigit c = true

namespace Literal

def text (l : Literal) : List Char := l.whole ++ (l.part.map ('.' :: ·)).getD []

/-- All digits as one number; the point only moves it. -/
def significand (l : Literal) : Nat :=
  (l.whole ++ l.part.getD []).foldl (fun value c => 10 * value + (digitValue? c).getD 0) 0

def numeral (l : Literal) : Numeral :=
  .decimal false l.significand (-((l.part.getD []).length : Int))

variable {l : Literal} {t : List Char}

theorem mem_text {c : Char} (h : c ∈ l.text) : c = '.' ∨ isDigit c = true := by
  rcases List.mem_append.mp h with h | h
  · exact .inr (l.isDigit_of_mem c (by simp [h]))
  · cases hpart : l.part with
    | none => simp [hpart] at h
    | some part =>
      rcases List.mem_cons.mp (by simpa [hpart] using h) with rfl | h
      · exact .inl rfl
      · exact .inr (l.isDigit_of_mem c (by simp [hpart, h]))

theorem ne_of_mem_text {c d : Char} (h : c ∈ l.text) (hpoint : d ≠ '.')
    (hdigit : isDigit d = false) : c ≠ d := by
  rcases mem_text h with rfl | hc
  · exact hpoint.symm
  · exact ne_of_isDigit hc hdigit

theorem text_ne_nil (l : Literal) : l.text ≠ [] := by
  intro h
  obtain ⟨hwhole, hpart⟩ := List.append_eq_nil_iff.mp h
  refine l.ne_nil ?_
  cases hp : l.part with
  | none => simp [hwhole]
  | some part => simp [hp] at hpart

/-- A literal is read with all its digits, wherever its point stands. -/
theorem read?_text (l : Literal) : Numeral.read? l.text = some l.numeral := by
  have hdigits {t : List Char} (ht : ∀ c ∈ t, isDigit c = true) :
      ∀ c ∈ t.map westernDigit, c.isDigit = true := by
    intro c hc
    obtain ⟨d, hd, rfl⟩ := List.mem_map.mp hc
    exact isDigit_westernDigit (ht d hd)
  have hwhole := hdigits fun c hc => l.isDigit_of_mem c (List.mem_append_left _ hc)
  have hpart := hdigits fun c hc => l.isDigit_of_mem c (List.mem_append_right _ hc)
  have hvalue : Numeral.digitsValue ((l.whole ++ l.part.getD []).map westernDigit) =
      l.significand := Numeral.digitsValue_westernDigit l.isDigit_of_mem 0
  have hne : (l.whole ++ l.part.getD []).map westernDigit ≠ [] := by simpa using l.ne_nil
  have hpoint : westernDigit '.' = '.' := westernDigit_of_not_isDigit (by decide)
  rw [Numeral.read?_of_digits l.text_ne_nil fun c => mem_text, numeral]
  rw [List.map_append] at hvalue hne
  unfold text
  cases hp : l.part with
  | none =>
    simp only [hp, Option.getD_none, List.map_nil, List.append_nil] at hvalue hne
    simp only [Option.map_none, Option.getD_none, List.append_nil]
    rw [Numeral.decimal?_whole hne hwhole, hvalue]
    rfl
  | some part =>
    simp only [hp, Option.getD_some] at hvalue hne hpart
    simp only [Option.map_some, Option.getD_some, List.map_append, List.map_cons, hpoint]
    rw [Numeral.decimal?_part hne hwhole hpart, hvalue, List.length_map]

theorem stops_text {p : Char → Bool} (hpoint : p '.' = false)
    (hdigit : ∀ c, isDigit c = true → p c = false) (l : Literal) (t : List Char) :
    Stops p (l.text ++ t) := by
  obtain ⟨c, rest, htext⟩ := List.exists_cons_of_ne_nil l.text_ne_nil
  rw [htext]
  refine stops_cons ?_ (rest ++ t)
  rcases mem_text (l := l) (c := c) (by simp [htext]) with rfl | hc
  · exact hpoint
  · exact hdigit c hc

/-- The digits and the point of a coefficient take the whole literal. -/
theorem rest_coefficient (hd : Stops isDigit t) (hp : Stops (· == '.') t) :
    coefficient.rest (l.text ++ t) = t := by
  have hsign : sign.rest (l.text ++ t) = l.text ++ t := by
    refine Cut.rest_one_of_stops (l.stops_text (by decide) (fun c hc => ?_) t)
    simp [ne_of_isDigit (d := '+') hc (by decide), ne_of_isDigit (d := '-') hc (by decide)]
  have hblanks : blanks.rest (l.text ++ t) = l.text ++ t :=
    Cut.rest_many (s := []) (by simp)
      (l.stops_text (by decide) (fun c => isBlank_of_isDigit) t)
  have hwhole : ∀ c ∈ l.whole, isDigit c = true :=
    fun c hc => l.isDigit_of_mem c (List.mem_append_left _ hc)
  change digits.rest (point.rest (digits.rest (blanks.rest (sign.rest (l.text ++ t))))) = t
  rw [hsign, hblanks, text, List.append_assoc]
  cases hpart : l.part with
  | none =>
    have hdigits : digits.rest (l.whole ++ t) = t := Cut.rest_many hwhole hd
    simp only [Option.map_none, Option.getD_none, List.nil_append]
    rw [hdigits, point, Cut.rest_one_of_stops hp, rest_digits_of_stops hd]
  | some part =>
    have hdigits : digits.rest (l.whole ++ '.' :: (part ++ t)) = '.' :: (part ++ t) :=
      Cut.rest_many hwhole (stops_cons (by decide) _)
    simp only [Option.map_some, Option.getD_some, List.cons_append]
    rw [hdigits, point, Cut.rest_one (by decide)]
    exact Cut.rest_many (fun c hc => l.isDigit_of_mem c (by simp [hpart, hc])) hd

/-- Before a variable the literal is found as its coefficient, with nothing else. -/
theorem pieces_coefficient (l : Literal) {gap : List Char} (hgap : Spaces gap) :
    pieces (l.text ++ (gap ++ ['x'])) = [.term ⟨l.text, ['x']⟩] := by
  have hrest : coefficient.rest (l.text ++ (gap ++ ['x'])) = gap ++ ['x'] :=
    rest_coefficient (hgap.stops (by decide) (stops_cons (by decide) []))
      (hgap.stops (by decide) (stops_cons (by decide) []))
  have hterm := readTerm?_of_rest .x l.text gap hrest hgap (stops_nil isWord)
  rw [Variable.char] at hterm
  rw [pieces_term hterm, pieces_nil]

theorem filler_text (l : Literal) : Filler l.text := by
  intro c hc
  left
  rcases mem_text hc with rfl | hc
  · decide
  · simp [isLoose, hc]

/-- The literal as a number, which begins with a digit and ends with one. -/
def number (l : Literal) (h : l.whole ≠ []) : Number :=
  ⟨l.whole, l.part.getD [], h, l.isDigit_of_mem⟩

/-- A number has no point that ends it. -/
theorem text_cases (h : l.whole ≠ []) : l.text = (l.number h).text ∨
    (l.number h).part = [] ∧ l.text = (l.number h).text ++ ['.'] := by
  cases hpart : l.part with
  | none => simp [text, Number.text, number, hpart]
  | some part =>
    cases part with
    | nil => simp [text, Number.text, number, hpart]
    | cons d ds => simp [text, Number.text, number, hpart]

/-- After a sign the literal is found as a number, less a point that ends it. -/
theorem numbers_text (h : l.whole ≠ []) (p : Option Polarity) {gap : List Char}
    (hgap : Spaces gap) :
    numbers (signText p ++ (gap ++ l.text)) = [signText p ++ (gap ++ (l.number h).text)] := by
  rcases text_cases h with htext | ⟨hpart, htext⟩
  · have hplain := numbers_constant p (l.number h) hgap .done
    rw [List.append_nil, numbers_nil] at hplain
    rw [htext, hplain]
  · have hdigits : digits.rest ((l.number h).text ++ ['.']) = ['.'] := by
      rw [Number.rest_digits (stops_cons (by decide) []), hpart]
      rfl
    have hfraction : fraction.rest (digits.rest ((l.number h).text ++ ['.'])) = ['.'] := by
      rw [hdigits]
      decide
    have hpoint : numbers ['.'] = [] := by
      rw [numbers_skip (stops_cons (by decide) []), numbers_nil]
    rw [htext, numbers_of_rest p (l.number h) hgap hfraction, hpoint]

/-- A sign before a leading point is passed over, and so is the point. -/
theorem numbers_leading_point (p : Option Polarity) {gap : List Char} (hgap : Spaces gap)
    (t : List Char) : numbers (signText p ++ (gap ++ '.' :: t)) = numbers t := by
  have hpoint {gap : List Char} (hgap : Spaces gap) :
      Stops isDigit (blanks.rest (gap ++ '.' :: t)) := by
    rw [rest_blanks hgap (stops_cons (by decide) t)]
    exact stops_cons (by decide) t
  have hspaces : numbers (gap ++ '.' :: t) = numbers t := by
    induction gap with
    | nil => exact numbers_skip (hpoint spaces_nil)
    | cons c gap ih =>
      have hsign : sign.rest (' ' :: (gap ++ '.' :: t)) = ' ' :: (gap ++ '.' :: t) :=
        Cut.rest_one_of_stops (stops_cons (by decide) _)
      obtain rfl : c = ' ' := hgap c (by simp)
      have hskip := hpoint hgap
      rw [List.cons_append] at hskip ⊢
      rw [numbers_skip (by rwa [hsign])]
      exact ih fun d hd => hgap d (by simp [hd])
  rcases p with - | q
  · exact hspaces
  · have hsign : sign.rest (q.char :: (gap ++ '.' :: t)) = gap ++ '.' :: t := by
      cases q <;> rfl
    change numbers (q.char :: (gap ++ '.' :: t)) = numbers t
    rw [numbers_skip (by rw [hsign]; exact hpoint hgap), hspaces]

/-- The digits after a leading point, as a number of their own. -/
def digitsOnly (l : Literal) (h : l.whole = []) : Number where
  whole := l.part.getD []
  part := []
  whole_ne_nil := by simpa [h] using l.ne_nil
  isDigit_of_mem := by simpa [h] using l.isDigit_of_mem

/-- A literal that begins with its point is found without the point and without a sign. -/
theorem numbers_text_of_leading_point (h : l.whole = []) (p : Option Polarity) {gap : List Char}
    (hgap : Spaces gap) :
    numbers (signText p ++ (gap ++ l.text)) = [(l.digitsOnly h).text] := by
  have hplain := numbers_constant none (l.digitsOnly h) spaces_nil .done
  rw [List.append_nil, numbers_nil] at hplain
  cases hpart : l.part with
  | none => exact absurd l.ne_nil (by simp [h, hpart])
  | some part =>
    have htext : l.text = '.' :: (l.digitsOnly h).text := by
      simp [text, h, hpart, Number.text, digitsOnly]
    rw [htext, numbers_leading_point p hgap]
    exact hplain

end Literal

/-- After a variable and a sign the rest of an expression is searched for numbers alone. -/
theorem stretches_signed {between t : List Char} (hbetween : Spaces between) (s : Polarity)
    (ht : Filler t) (hstar : ∀ c ∈ t, c ≠ '*') :
    stretches ('x' :: (between ++ s.char :: t)) =
      .term ⟨[], ['x']⟩ :: (between ++ s.char :: t).map .other := by
  have hresumes : Resumes (between ++ s.char :: t) := .spaces hbetween (.sign s t)
  have hfiller : Filler (between ++ s.char :: t) :=
    hbetween.filler.append ((filler_signText (some s)).append ht)
  have hstars : withoutStars ('x' :: (between ++ s.char :: t)) =
      'x' :: (between ++ s.char :: t) := by
    change withoutStars (['x'] ++ (between ++ (signText (some s) ++ t))) = _
    rw [withoutStars_append, withoutStars_append, withoutStars_append, hbetween.withoutStars_eq,
      withoutStars_signText, withoutStars_eq_self hstar]
    rfl
  have hterm := readTerm?_sign none .x spaces_nil hresumes.stops_isWord
  have hothers := pieces_filler hfiller .done
  rw [List.append_nil, pieces_nil, List.append_nil] at hothers
  rw [stretches, hstars, ← hothers]
  exact pieces_term hterm

theorem numbers_signed {between : List Char} (hbetween : Spaces between) (s : Polarity)
    (t : List Char) :
    numbers (leftover (.term ⟨[], ['x']⟩ :: (between ++ s.char :: t).map .other)) =
      numbers (signText (some s) ++ t) := by
  have hspace : Spaces [' '] := by simp [Spaces]
  have hleft := leftover_other (between ++ s.char :: t)
  change numbers (' ' :: leftover _) = _
  rw [hleft]
  exact numbers_spaces (hspace.append hbetween) (.sign s t)

section Value

variable {α : Type} [Scalar α]

def Polarity.apply : Polarity → α → α
  | .plus, v => v
  | .minus, v => -v

/-- Arithmetic in which every decimal has a value, a minus before it negates that value, and a one
counts as a coefficient. -/
structure ReadsSigned (α : Type) [Scalar α] : Prop where
  decimals : ReadsDecimals α
  negated : ∀ digits exponent, (Scalar.ofNumeral? (.decimal true digits exponent) : Option α) =
    (Scalar.ofNumeral? (.decimal false digits exponent)).map Neg.neg
  one : total? [(1 : α)] = some 1

theorem readsSigned_float : ReadsSigned Float where
  decimals := readsDecimals_float
  negated _ _ := rfl
  one := by decide +kernel

theorem readsSigned_rat : ReadsSigned Rat where
  decimals := readsDecimals_rat
  negated digits exponent := by simp [Scalar.ofNumeral?, Numeral.value?]
  one := by decide +kernel

theorem LinearForm.read_signed (hα : ReadsSigned α) {between t : List Char}
    (hbetween : Spaces between) (s : Polarity) (ht : Filler t) (hstar : ∀ c ∈ t, c ≠ '*')
    {number : List Char} {v : α} (hnumber : numbers (signText (some s) ++ t) = [number])
    (hv : readScalar (withoutSpaces number) = .ok v) :
    LinearForm.read ('x' :: (between ++ s.char :: t)) =
      .ok (⟨some 1, none, sum [v]⟩ : LinearForm α) := by
  have hterms : terms (.term ⟨[], ['x']⟩ :: (between ++ s.char :: t).map .other) =
      [⟨[], ['x']⟩] := congrArg (_ :: ·) (terms_other (between ++ s.char :: t))
  have hweight : (Term.weight ⟨[], ['x']⟩ : Except Refusal (Variable × α)) = .ok (.x, 1) := rfl
  rw [LinearForm.read_eq, stretches_signed hbetween s ht hstar, hterms, numbers_signed hbetween s t,
    hnumber]
  simp only [List.mapM_cons, List.mapM_nil, hweight, hv]
  change Except.ok (⟨total? [1], none, sum [v]⟩ : LinearForm α) = _
  rw [hα.one]

namespace Literal

def value (l : Literal) : α := (Scalar.ofNumeral? l.numeral).getD 0

/-- The value of all digits without the point. -/
def digitsValue (l : Literal) : α := (Scalar.ofNumeral? (.decimal false l.significand 0)).getD 0

theorem ofNumeral?_numeral (hα : ReadsSigned α) (l : Literal) :
    Scalar.ofNumeral? l.numeral = some (l.value : α) := by
  obtain ⟨v, hv⟩ := Option.isSome_iff_exists.mp
    (hα.decimals false l.significand (-((l.part.getD []).length : Int)))
  rw [value, numeral, hv, Option.getD_some]

/-- The value of the literal as a number with a sign. -/
theorem value_number (hα : ReadsSigned α) (l : Literal) (h : l.whole ≠ []) (s : Polarity) :
    ((l.number h).value s.isMinus : α) = s.apply l.value := by
  cases s with
  | plus => rfl
  | minus =>
    have hneg : Scalar.ofNumeral? ((l.number h).numeral true) = some (-l.value : α) :=
      (hα.negated _ _).trans (congrArg (Option.map Neg.neg) (l.ofNumeral?_numeral hα))
    exact congrArg (·.getD 0) hneg

theorem value_digitsOnly (l : Literal) (h : l.whole = []) :
    ((l.digitsOnly h).value false : α) = l.digitsValue := by
  have hsignificand : (l.digitsOnly h).significand = l.significand := by
    simp [Number.significand, digitsOnly, significand, h]
  rw [Number.value, Number.numeral, hsignificand]
  rfl

theorem withoutSpaces_text (l : Literal) : withoutSpaces l.text = l.text := by
  refine withoutSpaces_eq_self fun c hc => ?_
  rcases mem_text hc with rfl | hc
  · decide
  · exact isBlank_of_isDigit hc

theorem readCoefficient_text (hα : ReadsSigned α) (l : Literal) :
    readCoefficient l.text = .ok (l.value : α) := by
  obtain ⟨c, rest, htext⟩ := List.exists_cons_of_ne_nil l.text_ne_nil
  have hc : c ∈ l.text := by simp [htext]
  rw [readCoefficient_of_mem (l.withoutSpaces_text.symm ▸ hc)
    (ne_of_mem_text hc (by decide) (by decide)) (ne_of_mem_text hc (by decide) (by decide)),
    withoutSpaces_text, readScalar, l.read?_text, Option.bind_some, l.ofNumeral?_numeral hα]

theorem read_coefficient (hα : ReadsSigned α) (l : Literal) {gap : List Char} (hgap : Spaces gap) :
    LinearForm.read (l.text ++ (gap ++ ['x'])) =
      .ok (⟨total? [l.value], none, 0⟩ : LinearForm α) := by
  have hstars : withoutStars (l.text ++ (gap ++ ['x'])) = l.text ++ (gap ++ ['x']) := by
    have htext : withoutStars l.text = l.text :=
      withoutStars_eq_self fun c hc => ne_of_mem_text hc (by decide) (by decide)
    rw [withoutStars_append, withoutStars_append, htext, hgap.withoutStars_eq]
    rfl
  have hstretches : stretches (l.text ++ (gap ++ ['x'])) = [.term ⟨l.text, ['x']⟩] := by
    rw [stretches, hstars, l.pieces_coefficient hgap]
  have hnumbers : numbers (leftover [.term ⟨l.text, ['x']⟩]) = [] := by
    rw [show leftover [.term ⟨l.text, ['x']⟩] = [' '] from rfl, numbers_space .done, numbers_nil]
  have hweight : (Term.weight ⟨l.text, ['x']⟩ : Except Refusal (Variable × α)) =
      .ok (.x, l.value) := by
    change (readCoefficient l.text).map _ = _
    rw [l.readCoefficient_text hα]
    rfl
  rw [LinearForm.read_eq, hstretches, hnumbers]
  change ([⟨l.text, ['x']⟩] : List Term).mapM Term.weight >>= _ = _
  rw [List.mapM_cons, hweight]
  rfl

/-- As a coefficient a literal stands for its value. As a constant it stands for the same value with
the sign before it if it begins with a digit; if it begins with its point then both the sign and the
point are lost. -/
theorem coefficient_and_constant_read (hα : ReadsSigned α) (l : Literal) (s : Polarity)
    {between after : List Char} (hbetween : Spaces between) (hafter : Spaces after) :
    LinearForm.read (l.text ++ (between ++ ['x'])) =
      .ok (⟨total? [l.value], none, 0⟩ : LinearForm α) ∧
    (l.whole ≠ [] → LinearForm.read ('x' :: (between ++ s.char :: (after ++ l.text))) =
      .ok (⟨some 1, none, sum [s.apply l.value]⟩ : LinearForm α)) ∧
    (l.whole = [] → LinearForm.read ('x' :: (between ++ s.char :: (after ++ l.text))) =
      .ok (⟨some 1, none, sum [l.digitsValue]⟩ : LinearForm α)) := by
  have hfiller : Filler (after ++ l.text) := hafter.filler.append l.filler_text
  have hstar : ∀ c ∈ after ++ l.text, c ≠ '*' := by
    intro c hc
    rcases List.mem_append.mp hc with hc | hc
    · rw [hafter c hc]
      decide
    · exact ne_of_mem_text hc (by decide) (by decide)
  refine ⟨l.read_coefficient hα hbetween, fun h => ?_, fun h => ?_⟩
  · refine LinearForm.read_signed hα hbetween s hfiller hstar (l.numbers_text h (some s) hafter) ?_
    rw [withoutSpaces_append, withoutSpaces_append, withoutSpaces_signText, hafter.withoutSpaces_eq,
      Number.withoutSpaces_text, List.nil_append, Number.readScalar_text hα.decimals]
    exact congrArg Except.ok (l.value_number hα h s)
  · refine LinearForm.read_signed hα hbetween s hfiller hstar
      (l.numbers_text_of_leading_point h (some s) hafter) ?_
    rw [Number.withoutSpaces_text]
    exact ((l.digitsOnly h).readScalar_text hα.decimals none).trans
      (congrArg Except.ok (l.value_digitsOnly h))

end Literal

end Value

def Literal.ofDigits (whole : List Char) (part : Option (List Char) := none)
    (hne : whole ++ part.getD [] ≠ [] := by decide)
    (h : (whole ++ part.getD []).all isDigit = true := by decide) : Literal :=
  ⟨whole, part, hne, List.all_eq_true.mp h⟩

theorem seven_and_half_read :
    LinearForm.read "7. x".toList = .ok (⟨some 7, none, 0⟩ : LinearForm Rat) ∧
    LinearForm.read "x - 7.".toList = .ok (⟨some 1, none, -7⟩ : LinearForm Rat) ∧
    LinearForm.read ".5 x".toList = .ok (⟨some 0.5, none, 0⟩ : LinearForm Float) ∧
    LinearForm.read "x - .5".toList = .ok (⟨some 1, none, 5⟩ : LinearForm Float) := by
  have hspace : Spaces [' '] := by simp [Spaces]
  obtain ⟨hseven, hminus, -⟩ := (Literal.ofDigits ['7'] (some [])).coefficient_and_constant_read
    readsSigned_rat .minus hspace hspace
  obtain ⟨hhalf, -, hdigits⟩ := (Literal.ofDigits [] (some ['5'])).coefficient_and_constant_read
    readsSigned_float .minus hspace hspace
  refine ⟨hseven.trans ?_, (hminus (by decide)).trans ?_, hhalf.trans ?_, (hdigits rfl).trans ?_⟩
  all_goals decide +kernel

/-- A constant that begins with its point loses the point and its sign. -/
theorem leading_point_lost :
    LinearForm.read ".5 x".toList = .ok (⟨some 0.5, none, 0⟩ : LinearForm Float) ∧
    LinearForm.read "x + .5".toList = .ok (⟨some 1, none, 5⟩ : LinearForm Float) ∧
    LinearForm.read "x - .5".toList = .ok (⟨some 1, none, 5⟩ : LinearForm Float) := by
  decide +kernel

end CornerPoint.Spec
