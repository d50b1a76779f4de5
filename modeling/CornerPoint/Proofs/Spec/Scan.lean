import CornerPoint.Proofs.Spec.Number

/-!
Where a search comes to a stop. Cuts end where the next character is not of their class; no term
begins before a sign that no name stands in front of; and a number takes its own sign and digits.
-/
namespace CornerPoint.Text.Cut

open Spec (Stops dropWhile_append_of_stops)

@[simp] theorem rest_append (first second : Cut) (t : List Char) :
    (first ++ second).rest t = second.rest (first.rest t) := rfl

variable {p : Char → Bool} {s t : List Char}

theorem rest_many (hs : ∀ c ∈ s, p c = true) (ht : Stops p t) : (many p).rest (s ++ t) = t :=
  dropWhile_append_of_stops hs ht

theorem rest_one_of_stops (ht : Stops p t) : (one p).rest t = t := by
  cases t with
  | nil => rfl
  | cons c t => simp [rest, one, ht c rfl]

theorem rest_one {c : Char} (hc : p c = true) (t : List Char) : (one p).rest (c :: t) = t := by
  simp [rest, one, hc]

theorem taken_eq_of_rest {cut : Cut} (h : cut.rest (s ++ t) = t) : cut.taken (s ++ t) = s := by
  have hexact := cut.taken_append_rest (s ++ t)
  rw [h] at hexact
  exact List.append_cancel_right hexact

variable {cut : Cut} {wanted : List Char → Bool}

theorem rest_onlyIf_of_wanted (h : wanted (cut.taken t) = true) :
    (cut.onlyIf wanted).rest t = cut.rest t := by
  simp [rest, onlyIf, h]

theorem rest_onlyIf_of_unwanted (h : wanted (cut.taken t) = false) :
    (cut.onlyIf wanted).rest t = t := by
  simp [rest, onlyIf, h]

end CornerPoint.Text.Cut

namespace CornerPoint.Spec

open Text

theorem Polarity.isBlank_char (p : Polarity) : isBlank p.char = false := by
  cases p
  · decide
  · decide

theorem Polarity.isDigit_char (p : Polarity) : isDigit p.char = false := by
  cases p
  · decide
  · decide

/-- After spaces the text ends or goes on with a sign. -/
inductive Resumes : List Char → Prop
  | done : Resumes []
  | sign (p : Polarity) (r : List Char) : Resumes (p.char :: r)
  | space {r : List Char} (h : Resumes r) : Resumes (' ' :: r)

namespace Resumes

variable {r : List Char}

theorem spaces {gap : List Char} (hgap : Spaces gap) (h : Resumes r) : Resumes (gap ++ r) := by
  induction gap with
  | nil => exact h
  | cons c gap ih =>
    rw [hgap c (by simp)]
    exact .space (ih fun d hd => hgap d (by simp [hd]))

theorem stops {p : Char → Bool} (h : Resumes r) (hplus : p '+' = false) (hminus : p '-' = false)
    (hspace : p ' ' = false) : Stops p r := by
  cases h with
  | done => exact stops_nil p
  | sign q r =>
    cases q with
    | plus => exact stops_cons hplus r
    | minus => exact stops_cons hminus r
  | space h => exact stops_cons hspace _

theorem stops_isDigit (h : Resumes r) : Stops isDigit r :=
  h.stops (by decide) (by decide) (by decide)

theorem stops_point (h : Resumes r) : Stops (· == '.') r :=
  h.stops (by decide) (by decide) (by decide)

theorem stops_isWord (h : Resumes r) : Stops isWord r :=
  h.stops (by decide) (by decide) (by decide)

end Resumes

/-- What a coefficient may hold after its sign. -/
def isLoose (c : Char) : Bool := isBlank c || isDigit c || c == '.'

/-- No name begins before the next sign. -/
inductive Barred : List Char → Prop
  | done : Barred []
  | sign (p : Polarity) (r : List Char) : Barred (p.char :: r)
  | loose {c : Char} {r : List Char} (hc : isLoose c = true) (h : Barred r) : Barred (c :: r)

theorem Resumes.barred {r : List Char} (h : Resumes r) : Barred r := by
  induction h with
  | done => exact .done
  | sign p r => exact .sign p r
  | space _ ih => exact .loose (by decide) ih

theorem Polarity.isLoose_char (p : Polarity) : isLoose p.char = false := by
  cases p
  · decide
  · decide

theorem isNameStart_of_isLoose {c : Char} (h : isLoose c = true) : isNameStart c = false := by
  simp only [isLoose, Bool.or_eq_true, beq_iff_eq] at h
  rcases h with (h | h) | rfl
  · exact isNameStart_of_isBlank h
  · exact isNameStart_of_isDigit h
  · decide

/-- A class of loose characters holds no sign. -/
theorem Polarity.not_of_isLoose {p : Char → Bool} (hp : ∀ c, p c = true → isLoose c = true)
    (q : Polarity) : p q.char = false := by
  by_contra hq
  have hloose := hp q.char (by simpa using hq)
  rw [q.isLoose_char] at hloose
  contradiction

namespace Barred

variable {t : List Char} {p : Char → Bool}

/-- A cut that takes nothing but loose characters comes to no name. -/
theorem rest_many (h : Barred t) (hp : ∀ c, p c = true → isLoose c = true) :
    Barred ((Cut.many p).rest t) := by
  change Barred (t.dropWhile p)
  induction h with
  | done => exact .done
  | sign q r =>
    have hq : p q.char = false := q.not_of_isLoose hp
    rw [List.dropWhile_cons_of_neg (by simp [hq])]
    exact .sign q r
  | @loose c r hc h ih =>
    by_cases hpc : p c = true
    · rw [List.dropWhile_cons_of_pos hpc]
      exact ih
    · rw [List.dropWhile_cons_of_neg hpc]
      exact .loose hc h

theorem rest_one (h : Barred t) (hp : ∀ c, p c = true → isLoose c = true) :
    Barred ((Cut.one p).rest t) := by
  cases h with
  | done => exact .done
  | sign q r =>
    have hq : p q.char = false := q.not_of_isLoose hp
    rw [Cut.rest_one_of_stops (stops_cons hq r)]
    exact .sign q r
  | @loose c r hc h =>
    by_cases hpc : p c = true
    · rw [Cut.rest_one hpc]
      exact h
    · rw [Cut.rest_one_of_stops (stops_cons (by simpa using hpc) r)]
      exact .loose hc h

theorem stops (h : Barred t) : Stops isNameStart t := by
  cases h with
  | done => exact stops_nil isNameStart
  | sign q r =>
    refine stops_cons ?_ r
    cases q
    · decide
    · decide
  | loose hc h => exact stops_cons (isNameStart_of_isLoose hc) _

end Barred

theorem readTerm?_barred {t : List Char} (h : Barred (sign.rest t)) : readTerm? t = none := by
  have hdigit : ∀ c, isDigit c = true → isLoose c = true := by simp +contextual [isLoose]
  have hblank : ∀ c, isBlank c = true → isLoose c = true := by simp +contextual [isLoose]
  have hpoint : ∀ c, (c == '.') = true → isLoose c = true := by simp +contextual [isLoose]
  have hrest : Barred (blanks.rest (coefficient.rest t)) :=
    ((((h.rest_many hblank).rest_many hdigit).rest_one hpoint).rest_many hdigit).rest_many hblank
  unfold readTerm?
  split
  · rfl
  · rename_i c rest he
    rw [he] at hrest
    simp [hrest.stops c rfl]

theorem pieces_nil : pieces [] = [] := by
  rw [pieces]
  split
  · rename_i h
    have := readTerm?_length_lt h
    simp at this
  · rfl

theorem pieces_term {t rest : List Char} {u : Term} (h : readTerm? t = some (u, rest)) :
    pieces t = .term u :: pieces rest := by
  rw [pieces]
  split
  · rename_i u' rest' h'
    rw [h] at h'
    simp only [Option.some.injEq, Prod.mk.injEq] at h'
    rw [h'.1, h'.2]
  · rename_i h'
    rw [h] at h'
    contradiction

theorem pieces_other {c : Char} {rest : List Char} (h : readTerm? (c :: rest) = none) :
    pieces (c :: rest) = .other c :: pieces rest := by
  rw [pieces]
  split
  · rename_i h'
    rw [h] at h'
    contradiction
  · rfl

/-- What the text of a constant is made of, and the gaps around it. -/
def Filler (t : List Char) : Prop := ∀ c ∈ t, isLoose c = true ∨ ∃ p : Polarity, c = p.char

theorem Barred.filler {t r : List Char} (ht : Filler t) (hr : Barred r) : Barred (t ++ r) := by
  induction t with
  | nil => exact hr
  | cons c t ih =>
    have hrest := ih fun d hd => ht d (by simp [hd])
    rcases ht c (by simp) with hc | ⟨p, rfl⟩
    · exact .loose hc hrest
    · exact .sign p (t ++ r)

theorem pieces_filler {t r : List Char} (ht : Filler t) (hr : Barred r) :
    pieces (t ++ r) = t.map .other ++ pieces r := by
  induction t with
  | nil => rfl
  | cons c t ih =>
    have hfill : Filler t := fun d hd => ht d (by simp [hd])
    have hrest : Barred (t ++ r) := .filler hfill hr
    have hnone : readTerm? (c :: (t ++ r)) = none := by
      apply readTerm?_barred
      rcases ht c (by simp) with hc | ⟨p, rfl⟩
      · have hsign : (c == '+' || c == '-') = false := by
          by_contra hne
          simp only [Bool.not_eq_false, Bool.or_eq_true, beq_iff_eq] at hne
          rcases hne with rfl | rfl
          · exact absurd hc (by decide)
          · exact absurd hc (by decide)
        rw [sign, Cut.rest_one_of_stops (stops_cons hsign _)]
        exact .loose hc hrest
      · cases p
        · exact hrest
        · exact hrest
    rw [List.cons_append, pieces_other hnone, ih hfill]
    rfl

theorem rest_sign (p : Option Polarity) {t : List Char}
    (ht : Stops (fun c => c == '+' || c == '-') t) : sign.rest (signText p ++ t) = t := by
  rcases p with - | (- | -)
  · exact Cut.rest_one_of_stops ht
  · rfl
  · rfl

theorem rest_blanks {gap t : List Char} (hgap : Spaces gap) (ht : Stops isBlank t) :
    blanks.rest (gap ++ t) = t :=
  Cut.rest_many hgap.blank ht

theorem rest_digits_of_stops {t : List Char} (ht : Stops isDigit t) : digits.rest t = t :=
  Cut.rest_many (s := []) (by simp) ht

theorem taken_digits_of_stops {t : List Char} (ht : Stops isDigit t) : digits.taken t = [] :=
  Cut.taken_eq_of_rest (s := []) (rest_digits_of_stops ht)

namespace Number

variable {n : Number} {t : List Char}

theorem isDigit_of_mem_whole {c : Char} (h : c ∈ n.whole) : isDigit c = true :=
  n.isDigit_of_mem c (by simp [h])

theorem isDigit_of_mem_part {c : Char} (h : c ∈ n.part) : isDigit c = true :=
  n.isDigit_of_mem c (by simp [h])

theorem stops_text {p : Char → Bool} (h : ∀ c, isDigit c = true → p c = false) (n : Number)
    (t : List Char) : Stops p (n.text ++ t) := by
  obtain ⟨d, rest, htext, hd⟩ := n.exists_text_eq
  rw [htext]
  exact stops_cons (h d hd) (rest ++ t)

theorem stops_text_sign (n : Number) (t : List Char) :
    Stops (fun c => c == '+' || c == '-') (n.text ++ t) := by
  refine stops_text (fun c hc => ?_) n t
  simp [ne_of_isDigit (d := '+') hc (by decide), ne_of_isDigit (d := '-') hc (by decide)]

theorem stops_text_blank (n : Number) (t : List Char) : Stops isBlank (n.text ++ t) :=
  n.word.stops t

/-- What the digits of a number leave of its text: nothing, or its point and part. -/
theorem rest_digits (ht : Stops isDigit t) :
    digits.rest (n.text ++ t) = if n.part.isEmpty then t else '.' :: (n.part ++ t) := by
  unfold text
  split
  · exact Cut.rest_many (fun _ => isDigit_of_mem_whole) ht
  · rw [List.append_assoc, List.cons_append]
    exact Cut.rest_many (fun _ => isDigit_of_mem_whole) (stops_cons (by decide) _)

theorem rest_point_digits (hd : Stops isDigit t) (hp : Stops (· == '.') t) :
    digits.rest (point.rest (digits.rest (n.text ++ t))) = t := by
  rw [rest_digits hd]
  split
  · rw [point, Cut.rest_one_of_stops hp, rest_digits_of_stops hd]
  · exact Cut.rest_many (fun _ => isDigit_of_mem_part) hd

theorem rest_fraction (hd : Stops isDigit t) (hp : Stops (· == '.') t) :
    fraction.rest (digits.rest (n.text ++ t)) = t := by
  rw [rest_digits hd]
  split
  · have htaken : (point ++ digits).taken t = [] := by
      apply Cut.taken_eq_of_rest (s := [])
      rw [List.nil_append, Cut.rest_append, point, Cut.rest_one_of_stops hp,
        rest_digits_of_stops hd]
    exact Cut.rest_onlyIf_of_unwanted (by rw [htaken]; rfl)
  · rename_i hpart
    have hrest : (point ++ digits).rest ('.' :: n.part ++ t) = t :=
      Cut.rest_many (fun _ => isDigit_of_mem_part) hd
    have htaken : (point ++ digits).taken ('.' :: (n.part ++ t)) = '.' :: n.part :=
      Cut.taken_eq_of_rest hrest
    have hlength : 2 ≤ ('.' :: n.part).length := by
      have := List.length_pos_iff.mpr (fun h => hpart (by simp [h]) : n.part ≠ [])
      simp only [List.length_cons]
      omega
    rw [fraction, Cut.rest_onlyIf_of_wanted (by rw [htaken]; exact decide_eq_true hlength)]
    exact hrest

theorem taken_digits_ne_nil (n : Number) (t : List Char) : digits.taken (n.text ++ t) ≠ [] := by
  obtain ⟨d, rest, htext, hd⟩ := n.exists_text_eq
  rw [htext]
  simp [digits, Cut.taken, Cut.many, hd]

end Number

theorem Variable.isNameStart_char (v : Variable) : isNameStart v.char = true := by
  cases v
  · decide
  · decide

theorem Variable.stops (v : Variable) {p : Char → Bool} (hx : p 'x' = false) (hy : p 'y' = false)
    (t : List Char) : Stops p (v.char :: t) := by
  cases v
  · exact stops_cons hx t
  · exact stops_cons hy t

theorem Spaces.stops {gap t : List Char} {p : Char → Bool} (hgap : Spaces gap)
    (hspace : p ' ' = false) (ht : Stops p t) : Stops p (gap ++ t) := by
  apply Stops.append _ ht
  intro c hc
  rw [hgap c hc]
  exact hspace

section Term

variable (p : Option Polarity) (n : Number) (v : Variable) {gap between r : List Char}

theorem readTerm?_of_rest (coef between : List Char)
    (h : coefficient.rest (coef ++ (between ++ v.char :: r)) = between ++ v.char :: r)
    (hbetween : Spaces between) (hr : Stops isWord r) :
    readTerm? (coef ++ (between ++ v.char :: r)) = some (⟨coef, [v.char]⟩, r) := by
  have hblanks : blanks.rest (between ++ v.char :: r) = v.char :: r :=
    rest_blanks hbetween (v.stops (by decide) (by decide) r)
  have hword : wordRest.rest r = r := Cut.rest_many (s := []) (by simp) hr
  have hname : wordRest.taken r = [] := Cut.taken_eq_of_rest (s := []) hword
  rw [readTerm?, h, hblanks]
  simp only [v.isNameStart_char, if_true, Cut.taken_eq_of_rest h, hword, hname]

/-- Without a number, the spaces before the variable are part of the coefficient. -/
theorem readTerm?_sign (hgap : Spaces gap) (hr : Stops isWord r) :
    readTerm? (signText p ++ (gap ++ v.char :: r)) = some (⟨signText p ++ gap, [v.char]⟩, r) := by
  have hdigit : Stops isDigit (v.char :: r) := v.stops (by decide) (by decide) r
  have hpoint : Stops (· == '.') (v.char :: r) := v.stops (by decide) (by decide) r
  have hblank : Stops isBlank (v.char :: r) := v.stops (by decide) (by decide) r
  have hsign : Stops (fun c => c == '+' || c == '-') (gap ++ v.char :: r) :=
    hgap.stops (by decide) (v.stops (by decide) (by decide) r)
  have hrest : coefficient.rest (signText p ++ (gap ++ v.char :: r)) = v.char :: r := by
    change digits.rest (point.rest (digits.rest (blanks.rest (sign.rest _)))) = _
    rw [rest_sign p hsign, rest_blanks hgap hblank, rest_digits_of_stops hdigit, point,
      Cut.rest_one_of_stops hpoint, rest_digits_of_stops hdigit]
  rw [← List.append_assoc] at hrest ⊢
  exact readTerm?_of_rest v (signText p ++ gap) [] hrest (by simp [Spaces]) hr

theorem readTerm?_number (hgap : Spaces gap) (hbetween : Spaces between) (hr : Stops isWord r) :
    readTerm? (signText p ++ (gap ++ (n.text ++ (between ++ v.char :: r)))) =
      some (⟨signText p ++ (gap ++ n.text), [v.char]⟩, r) := by
  have hdigit : Stops isDigit (between ++ v.char :: r) :=
    hbetween.stops (by decide) (v.stops (by decide) (by decide) r)
  have hpoint : Stops (· == '.') (between ++ v.char :: r) :=
    hbetween.stops (by decide) (v.stops (by decide) (by decide) r)
  have hrest : coefficient.rest (signText p ++ (gap ++ (n.text ++ (between ++ v.char :: r)))) =
      between ++ v.char :: r := by
    change digits.rest (point.rest (digits.rest (blanks.rest (sign.rest _)))) = _
    rw [rest_sign p (hgap.stops (by decide) (n.stops_text_sign _)),
      rest_blanks hgap (n.stops_text_blank _), Number.rest_point_digits hdigit hpoint]
  simp only [← List.append_assoc] at hrest ⊢
  rw [List.append_assoc _ between] at hrest ⊢
  exact readTerm?_of_rest v _ between hrest hbetween hr

end Term

theorem numbers_nil : numbers [] = [] := by
  rw [numbers]
  split
  · rename_i h
    have := readNumber?_length_lt h
    simp at this
  · rfl

theorem numbers_number {t number rest : List Char} (h : readNumber? t = some (number, rest)) :
    numbers t = number :: numbers rest := by
  rw [numbers]
  split
  · rename_i number' rest' h'
    rw [h] at h'
    simp only [Option.some.injEq, Prod.mk.injEq] at h'
    rw [h'.1, h'.2]
  · rename_i h'
    rw [h] at h'
    contradiction

theorem numbers_other {c : Char} {rest : List Char} (h : readNumber? (c :: rest) = none) :
    numbers (c :: rest) = numbers rest := by
  rw [numbers]
  split
  · rename_i h'
    rw [h] at h'
    contradiction
  · rfl

/-- No number begins where no digit comes after a sign and blanks, both of which may be missing. -/
theorem numbers_skip {c : Char} {rest : List Char}
    (h : Stops isDigit (blanks.rest (sign.rest (c :: rest)))) :
    numbers (c :: rest) = numbers rest := by
  apply numbers_other
  simp [readNumber?, taken_digits_of_stops h]

/-- No number begins in the spaces before a sign. -/
theorem numbers_space {r : List Char} (hr : Resumes r) : numbers (' ' :: r) = numbers r := by
  have hafter : Stops isDigit (blanks.rest (' ' :: r)) := by
    induction hr with
    | done => exact stops_nil isDigit
    | sign p r =>
      rw [show ' ' :: p.char :: r = [' '] ++ p.char :: r from rfl,
        rest_blanks (by simp [Spaces]) (stops_cons p.isBlank_char r)]
      exact stops_cons p.isDigit_char r
    | space _ ih => exact ih
  have hsign : sign.rest (' ' :: r) = ' ' :: r :=
    Cut.rest_one_of_stops (stops_cons (by decide) r)
  exact numbers_skip (by rwa [hsign])

theorem numbers_spaces {gap r : List Char} (hgap : Spaces gap) (hr : Resumes r) :
    numbers (gap ++ r) = numbers r := by
  induction gap with
  | nil => rfl
  | cons c gap ih =>
    have hrest : Spaces gap := fun d hd => hgap d (by simp [hd])
    rw [hgap c (by simp), List.cons_append, numbers_space (hr.spaces hrest), ih hrest]

/-- A number is found with its sign if neither its digits nor its fraction reach into what
follows. -/
theorem numbers_of_rest (p : Option Polarity) (n : Number) {gap t : List Char} (hgap : Spaces gap)
    (ht : fraction.rest (digits.rest (n.text ++ t)) = t) :
    numbers (signText p ++ (gap ++ (n.text ++ t))) =
      (signText p ++ (gap ++ n.text)) :: numbers t := by
  have hfront : blanks.rest (sign.rest (signText p ++ (gap ++ (n.text ++ t)))) = n.text ++ t := by
    rw [rest_sign p (hgap.stops (by decide) (n.stops_text_sign t)),
      rest_blanks hgap (n.stops_text_blank t)]
  have hrest : (sign ++ blanks ++ digits ++ fraction).rest
      ((signText p ++ (gap ++ n.text)) ++ t) = t := by
    simp only [Cut.rest_append, List.append_assoc]
    rw [hfront, ht]
  have htaken := Cut.taken_eq_of_rest hrest
  simp only [List.append_assoc] at hrest htaken
  apply numbers_number
  rw [readNumber?, Cut.rest_append, hfront, if_neg (by simp [n.taken_digits_ne_nil t])]
  exact congrArg some (Prod.ext htaken hrest)

theorem numbers_constant (p : Option Polarity) (n : Number) {gap r : List Char}
    (hgap : Spaces gap) (hr : Resumes r) :
    numbers (signText p ++ (gap ++ (n.text ++ r))) =
      (signText p ++ (gap ++ n.text)) :: numbers r :=
  numbers_of_rest p n hgap (Number.rest_fraction hr.stops_isDigit hr.stops_point)

end CornerPoint.Spec
