import CornerPoint.Proofs.Spec.Scan

/-!
Expressions are read for what they mean. The text of an item ends where the next sign begins, so the
search for terms takes each variable with its own sign and number and leaves the constants alone,
and the search of what is left over finds each constant with its own sign.
-/
namespace CornerPoint.Spec

open Text

/-- The text of an item after the stars have been removed. -/
inductive Plain : Item → List Char → Prop
  | constant {n : Number} {gap : List Char} (hgap : Spaces gap) :
      Plain (.constant n) (gap ++ n.text)
  | alone {star : Bool} {v : Variable} {gap : List Char} (hgap : Spaces gap) :
      Plain (.term none star v) (gap ++ [v.char])
  | weighted {n : Number} {star : Bool} {v : Variable} {gap between : List Char}
      (hgap : Spaces gap) (hbetween : Spaces between) :
      Plain (.term (some n) star v) (gap ++ (n.text ++ (between ++ [v.char])))

def withoutStars (t : List Char) : List Char := t.filter (· != '*')

@[simp] theorem withoutStars_append (t u : List Char) :
    withoutStars (t ++ u) = withoutStars t ++ withoutStars u :=
  List.filter_append t u

theorem withoutStars_eq_self {t : List Char} (h : ∀ c ∈ t, c ≠ '*') : withoutStars t = t := by
  apply List.filter_eq_self.mpr
  intro c hc
  simp [h c hc]

theorem Spaces.withoutStars_eq {gap : List Char} (h : Spaces gap) : withoutStars gap = gap := by
  apply withoutStars_eq_self
  intro c hc
  rw [h c hc]
  decide

theorem Number.withoutStars_text (n : Number) : withoutStars n.text = n.text := by
  apply withoutStars_eq_self
  intro c hc
  rcases Number.mem_text hc with rfl | hc
  · decide
  · exact ne_of_isDigit hc (by decide)

theorem withoutStars_signText (p : Option Polarity) : withoutStars (signText p) = signText p := by
  rcases p with - | (- | -)
  · rfl
  · rfl
  · rfl

theorem Variable.withoutStars_char (v : Variable) : withoutStars [v.char] = [v.char] := by
  cases v
  · rfl
  · rfl

theorem Variable.text_word (v : Variable) : v.word.text = [v.char] := by
  cases v
  · rfl
  · rfl

theorem Polarity.text_word (p : Polarity) : p.word.text = [p.char] := by
  cases p
  · rfl
  · rfl

/-- The text of a variable after its number, with or without a star. -/
theorem laid_star {star : Bool} {v : Variable} {t : List Char}
    (h : Laid Spaces ((if star then [.mark '*'] else []) ++ [v.word]) t) :
    ∃ gap, Spaces gap ∧ withoutStars t = gap ++ [v.char] := by
  cases star with
  | false =>
    obtain ⟨gap, rfl, hgap, -⟩ := Laid.of_singleton (w := v.word) h
    refine ⟨gap, hgap, ?_⟩
    rw [withoutStars_append, hgap.withoutStars_eq, v.text_word, v.withoutStars_char]
  | true =>
    obtain ⟨before, rest, rfl, hbefore, -, hrest⟩ := Laid.of_cons h
    obtain ⟨gap, rfl, hgap, -⟩ := hrest.of_singleton
    refine ⟨before ++ gap, hbefore.append hgap, ?_⟩
    have hstar : withoutStars (Word.mark '*').text = [] := rfl
    rw [withoutStars_append, withoutStars_append, withoutStars_append, hbefore.withoutStars_eq,
      hgap.withoutStars_eq, hstar, v.text_word, v.withoutStars_char, List.nil_append,
      List.append_assoc]

theorem plain_item {item : Item} {t : List Char} (h : Laid Spaces item.words t) :
    Plain item (withoutStars t) := by
  cases item with
  | constant n =>
    obtain ⟨gap, rfl, hgap, -⟩ := Laid.of_singleton (w := n.word) h
    rw [withoutStars_append, hgap.withoutStars_eq, Number.word, n.withoutStars_text]
    exact .constant hgap
  | term n star v =>
    cases n with
    | none =>
      obtain ⟨gap, hgap, ht⟩ := laid_star h
      rw [ht]
      exact .alone hgap
    | some n =>
      obtain ⟨gap, rest, rfl, hgap, -, hrest⟩ := Laid.of_cons (w := n.word) h
      obtain ⟨between, hbetween, ht⟩ := laid_star hrest
      rw [withoutStars_append, withoutStars_append, hgap.withoutStars_eq, Number.word,
        n.withoutStars_text, ht]
      exact .weighted hgap hbetween

/-- Before an item stand a gap and its sign, or nothing. -/
theorem plain_signed {p : Option Polarity} {item : Item} {t : List Char}
    (h : Laid Spaces (Expression.signedWords p item) t) :
    ∃ before u, withoutStars t = before ++ (signText p ++ u) ∧ Spaces before ∧
      (p = none → before = []) ∧ Plain item u := by
  cases p with
  | none => exact ⟨[], withoutStars t, rfl, spaces_nil, fun _ => rfl, plain_item h⟩
  | some q =>
    obtain ⟨before, rest, rfl, hbefore, -, hrest⟩ := Laid.of_cons (w := q.word) h
    have hsign : withoutStars [q.char] = signText (some q) := withoutStars_signText (some q)
    refine ⟨before, withoutStars rest, ?_, hbefore, by simp, plain_item hrest⟩
    rw [withoutStars_append, withoutStars_append, hbefore.withoutStars_eq, q.text_word, hsign]

@[simp] theorem withoutSpaces_append (t u : List Char) :
    withoutSpaces (t ++ u) = withoutSpaces t ++ withoutSpaces u :=
  List.filter_append t u

theorem withoutSpaces_eq_self {t : List Char} (h : ∀ c ∈ t, isBlank c = false) :
    withoutSpaces t = t := by
  apply List.filter_eq_self.mpr
  intro c hc
  have hne : c ≠ ' ' := by
    rintro rfl
    exact absurd (h ' ' hc) (by decide)
  simp [hne]

theorem Spaces.withoutSpaces_eq {gap : List Char} (h : Spaces gap) : withoutSpaces gap = [] := by
  apply List.filter_eq_nil_iff.mpr
  intro c hc
  simp [h c hc]

theorem Number.withoutSpaces_text (n : Number) : withoutSpaces n.text = n.text :=
  withoutSpaces_eq_self n.text_solid

theorem withoutSpaces_signText (p : Option Polarity) :
    withoutSpaces (signText p) = signText p := by
  rcases p with - | (- | -)
  · rfl
  · rfl
  · rfl

/-- A term up to the spaces in its coefficient. -/
def Term.spelling (t : Term) : List Char × List Char := (withoutSpaces t.coefficient, t.name)

def Item.termSpelling? (p : Option Polarity) : Item → Option (List Char × List Char)
  | constant _ => none
  | term n _ v => some (signText p ++ (n.map Number.text).getD [], [v.char])

def Item.constantSpelling? (p : Option Polarity) : Item → Option (List Char)
  | constant n => some (signText p ++ n.text)
  | term _ _ _ => none

@[simp] theorem terms_append (ps qs : List Piece) : terms (ps ++ qs) = terms ps ++ terms qs :=
  List.filterMap_append

@[simp] theorem leftover_append (ps qs : List Piece) :
    leftover (ps ++ qs) = leftover ps ++ leftover qs :=
  List.map_append

@[simp] theorem terms_other (t : List Char) : terms (t.map .other) = [] := by
  simp [terms, List.filterMap_map]

@[simp] theorem leftover_other (t : List Char) : leftover (t.map .other) = t := by
  simp [leftover, Function.comp_def]

/-- The pieces hold the terms of the items and leave their constants over, whatever follows. -/
structure Yields (items : List (Option Polarity × Item)) (ps : List Piece) : Prop where
  terms : (terms ps).map Term.spelling = items.filterMap fun (p, item) => item.termSpelling? p
  numbers : ∀ r, Resumes r → (numbers (leftover ps ++ r)).map withoutSpaces =
    (items.filterMap fun (p, item) => item.constantSpelling? p) ++ (numbers r).map withoutSpaces
  resumes : ∀ r, Resumes r → (∀ first ∈ items.head?, first.1.isSome) → Resumes (leftover ps ++ r)

theorem yields_nil : Yields [] [] where
  terms := rfl
  numbers _ _ := rfl
  resumes _ hr _ := hr

theorem Yields.append {items more : List (Option Polarity × Item)} {ps qs : List Piece}
    (h : Yields items ps) (k : Yields more qs) (hsign : ∀ i ∈ more, i.1.isSome)
    (hne : items ≠ []) : Yields (items ++ more) (ps ++ qs) := by
  have hmore : ∀ r, Resumes r → Resumes (leftover qs ++ r) := fun r hr =>
    k.resumes r hr fun first hfirst => hsign first (List.mem_of_head? hfirst)
  constructor
  · rw [terms_append, List.map_append, h.terms, k.terms, List.filterMap_append]
  · intro r hr
    rw [leftover_append, List.append_assoc, h.numbers _ (hmore r hr), k.numbers r hr,
      List.filterMap_append, List.append_assoc]
  · intro r hr hfirst
    rw [leftover_append, List.append_assoc]
    refine h.resumes _ (hmore r hr) ?_
    rwa [List.head?_append_of_ne_nil _ hne] at hfirst

theorem Spaces.filler {gap : List Char} (h : Spaces gap) : Filler gap := by
  intro c hc
  rw [h c hc]
  exact .inl (by decide)

theorem Number.filler_text (n : Number) : Filler n.text := by
  intro c hc
  left
  rcases Number.mem_text hc with rfl | hc
  · decide
  · simp [isLoose, hc]

theorem filler_signText (p : Option Polarity) : Filler (signText p) := by
  intro c hc
  rcases p with - | p
  · simp [signText] at hc
  · exact .inr ⟨p, by simpa [signText] using hc⟩

theorem Filler.append {t u : List Char} (h : Filler t) (k : Filler u) : Filler (t ++ u) := by
  intro c hc
  rcases List.mem_append.mp hc with hc | hc
  · exact h c hc
  · exact k c hc

section Signed

variable {p : Option Polarity} {before r : List Char}

/-- The gap before an item's sign holds no number of its own. -/
theorem numbers_before (hbefore : Spaces before) (hnone : p = none → before = [])
    (t : List Char) : numbers (before ++ (signText p ++ t)) = numbers (signText p ++ t) := by
  cases p with
  | none => rw [hnone rfl, List.nil_append]
  | some q => exact numbers_spaces hbefore (.sign q t)

theorem pieces_before (hbefore : Spaces before) (hnone : p = none → before = [])
    (t : List Char) :
    pieces (before ++ (signText p ++ t)) = before.map .other ++ pieces (signText p ++ t) := by
  cases p with
  | none => rw [hnone rfl, List.nil_append, List.map_nil, List.nil_append]
  | some q => exact pieces_filler hbefore.filler (.sign q t)

theorem yields_constant {n : Number} {gap : List Char} (hbefore : Spaces before)
    (hnone : p = none → before = []) (hgap : Spaces gap) :
    Yields [(p, .constant n)] ((before ++ (signText p ++ (gap ++ n.text))).map .other) := by
  constructor
  · rw [terms_other]
    rfl
  · intro r hr
    simp only [leftover_other, List.append_assoc]
    rw [numbers_before hbefore hnone, numbers_constant p n hgap hr, List.map_cons,
      withoutSpaces_append, withoutSpaces_append, withoutSpaces_signText, hgap.withoutSpaces_eq,
      n.withoutSpaces_text, List.nil_append]
    rfl
  · intro r hr hfirst
    obtain ⟨q, rfl⟩ := Option.isSome_iff_exists.mp (hfirst _ rfl)
    rw [leftover_other, List.append_assoc]
    exact .spaces hbefore (.sign q _)

theorem yields_term {n : Option Number} {star : Bool} {v : Variable} {coef : List Char}
    (hbefore : Spaces before)
    (hcoef : withoutSpaces coef = signText p ++ (n.map Number.text).getD []) :
    Yields [(p, .term n star v)] (before.map .other ++ [.term ⟨coef, [v.char]⟩]) := by
  have hleft : leftover (before.map .other ++ [.term ⟨coef, [v.char]⟩]) = before ++ [' '] := by
    rw [leftover_append, leftover_other]
    rfl
  have hspaces : Spaces (before ++ [' ']) := hbefore.append (by simp [Spaces])
  constructor
  · rw [terms_append, terms_other]
    change [(withoutSpaces coef, [v.char])] = _
    rw [hcoef]
    rfl
  · intro r hr
    rw [hleft, numbers_spaces hspaces hr]
    rfl
  · intro r hr _
    rw [hleft]
    exact hr.spaces hspaces

/-- The search for terms takes one item at a time. -/
theorem pieces_item {item : Item} {u : List Char} (hbefore : Spaces before)
    (hnone : p = none → before = []) (h : Plain item u) (hr : Resumes r) :
    ∃ ps, pieces (before ++ (signText p ++ u) ++ r) = ps ++ pieces r ∧ Yields [(p, item)] ps := by
  cases h with
  | @constant n gap hgap =>
    -- no name comes before the next sign, so the number stays behind whole
    refine ⟨_, pieces_filler ?_ hr.barred, yields_constant hbefore hnone hgap⟩
    exact hbefore.filler.append ((filler_signText p).append (hgap.filler.append n.filler_text))
  | @alone star v gap hgap =>
    refine ⟨before.map .other ++ [.term ⟨signText p ++ gap, [v.char]⟩], ?_, yields_term hbefore ?_⟩
    · simp only [List.append_assoc, List.singleton_append]
      rw [pieces_before hbefore hnone,
        pieces_term (readTerm?_sign p v hgap hr.stops_isWord)]
    · rw [withoutSpaces_append, withoutSpaces_signText, hgap.withoutSpaces_eq]
      rfl
  | @weighted n star v gap between hgap hbetween =>
    refine ⟨before.map .other ++ [.term ⟨signText p ++ (gap ++ n.text), [v.char]⟩], ?_,
      yields_term hbefore ?_⟩
    · simp only [List.append_assoc, List.singleton_append]
      rw [pieces_before hbefore hnone,
        pieces_term (readTerm?_number p n v hgap hbetween hr.stops_isWord)]
    · rw [withoutSpaces_append, withoutSpaces_append, withoutSpaces_signText,
        hgap.withoutSpaces_eq, n.withoutSpaces_text]
      rfl

end Signed

/-- The items of an expression, each with its sign if it has one. -/
def Expression.signed (e : Expression) : List (Option Polarity × Item) :=
  (e.sign, e.first) :: e.others.map fun (p, item) => (some p, item)

theorem isSome_of_mem_others (others : List (Polarity × Item)) :
    ∀ i ∈ others.map (fun (p, item) => (some p, item)), i.1.isSome := by
  intro i hi
  obtain ⟨j, -, rfl⟩ := List.mem_map.mp hi
  rfl

theorem resumes_others {others : List (Polarity × Item)} {t : List Char}
    (h : Laid Spaces (others.flatMap fun (p, item) => Expression.signedWords (some p) item) t) :
    Resumes (withoutStars t) := by
  cases others with
  | nil =>
    rw [h.of_nil]
    exact .done
  | cons first others =>
    rw [List.flatMap_cons] at h
    obtain ⟨front, back, rfl, hfront, -⟩ := h.of_append
    obtain ⟨before, u, hu, hbefore, -, -⟩ := plain_signed hfront
    rw [withoutStars_append, hu, List.append_assoc]
    exact .spaces hbefore (.sign first.1 _)

/-- The whole search is the search for one item after another. -/
theorem yields_others {others : List (Polarity × Item)} {t : List Char}
    (h : Laid Spaces (others.flatMap fun (p, item) => Expression.signedWords (some p) item) t) :
    Yields (others.map fun (p, item) => (some p, item)) (pieces (withoutStars t)) := by
  induction others generalizing t with
  | nil =>
    rw [h.of_nil]
    change Yields [] (pieces [])
    rw [pieces_nil]
    exact yields_nil
  | cons first others ih =>
    rw [List.flatMap_cons] at h
    obtain ⟨front, back, rfl, hfront, hback⟩ := h.of_append
    obtain ⟨before, u, hu, hbefore, hnone, hplain⟩ := plain_signed hfront
    obtain ⟨ps, hps, hyields⟩ := pieces_item hbefore hnone hplain (resumes_others hback)
    rw [withoutStars_append, hu, hps, List.map_cons]
    exact hyields.append (ih hback) (isSome_of_mem_others others) (by simp)

theorem Expression.yields {e : Expression} {t : List Char} (h : Laid Spaces e.words t) :
    Yields e.signed (pieces (withoutStars t)) := by
  obtain ⟨front, back, rfl, hfront, hback⟩ := h.of_append
  obtain ⟨before, u, hu, hbefore, hnone, hplain⟩ := plain_signed hfront
  obtain ⟨ps, hps, hyields⟩ := pieces_item hbefore hnone hplain (resumes_others hback)
  rw [withoutStars_append, hu, hps]
  exact hyields.append (yields_others hback) (isSome_of_mem_others e.others) (by simp)

section Value

variable {α : Type} [Scalar α]

namespace Expression

theorem items_eq_signed (e : Expression) :
    e.items = e.signed.map fun (p, item) => (p.getD .plus, item) := by
  simp [items, signed, Function.comp_def]

theorem coefficients_eq_signed (e : Expression) (v : Variable) : (e.coefficients v : List α) =
    e.signed.filterMap fun (p, item) => item.coefficient? v (p.getD .plus) := by
  rw [coefficients, items_eq_signed, List.filterMap_map]
  rfl

theorem constant_eq_signed (e : Expression) : (e.constant : α) =
    (e.signed.filterMap fun (p, item) => item.constant? (p.getD .plus)).foldl (· + ·) 0 := by
  rw [constant, items_eq_signed, List.filterMap_map]
  rfl

end Expression

namespace LinearForm

/-- The form with further summands for the coefficients of both variables. -/
def addCoefficients (f : LinearForm α) (xs ys : List α) : LinearForm α :=
  { f with x := xs.foldl addTo f.x, y := ys.foldl addTo f.y }

theorem addTerm_of_spelling (hα : ReadsDecimals α) (f : LinearForm α) {t : Term}
    {p : Option Polarity} {n : Option Number} {star : Bool} {v : Variable}
    (h : some t.spelling = (Item.term n star v).termSpelling? p) :
    f.addTerm t = .ok (f.addCoefficients
      ((Item.term n star v).coefficient? .x (p.getD .plus)).toList
      ((Item.term n star v).coefficient? .y (p.getD .plus)).toList) := by
  obtain ⟨hcoef, hname⟩ := Prod.mk.inj (Option.some.inj h)
  have hread : readCoefficient t.coefficient = .ok (n.elim (p.getD .plus).one
      fun n => (n.value (p.getD .plus).isMinus : α)) := by
    cases n with
    | none => exact readCoefficient_sign (by simpa using hcoef)
    | some n => exact readCoefficient_number hα (by simpa using hcoef)
  cases v with
  | x =>
    have hv : Variable.ofName? t.name = some .x := by rw [hname]; rfl
    simp only [addTerm, hv, hread]
    cases n <;> rfl
  | y =>
    have hv : Variable.ofName? t.name = some .y := by rw [hname]; rfl
    simp only [addTerm, hv, hread]
    cases n <;> rfl

@[simp] theorem addCoefficients_append (f : LinearForm α) (xs ys xs' ys' : List α) :
    (f.addCoefficients xs ys).addCoefficients xs' ys' =
      f.addCoefficients (xs ++ xs') (ys ++ ys') := by
  simp [addCoefficients]

theorem foldlM_addTerm (hα : ReadsDecimals α) (f : LinearForm α)
    {items : List (Option Polarity × Item)} {ts : List Term}
    (h : ts.map Term.spelling = items.filterMap fun (p, item) => item.termSpelling? p) :
    ts.foldlM addTerm f = .ok (f.addCoefficients
      (items.filterMap fun (p, item) => item.coefficient? .x (p.getD .plus))
      (items.filterMap fun (p, item) => item.coefficient? .y (p.getD .plus))) := by
  induction items generalizing ts f with
  | nil =>
    rw [List.map_eq_nil_iff.mp h]
    rfl
  | cons first items ih =>
    obtain ⟨p, item⟩ := first
    cases item with
    | constant n => exact ih f h
    | term n star v =>
      obtain ⟨t, ts, rfl, ht, hts⟩ := List.map_eq_cons_iff.mp h
      have hspelling : some t.spelling = (Item.term n star v).termSpelling? p := congrArg some ht
      have hone := addTerm_of_spelling hα f hspelling
      rw [List.foldlM_cons, hone]
      change List.foldlM addTerm _ ts = _
      rw [ih _ hts, addCoefficients_append]
      cases v with
      | x => rfl
      | y => rfl

theorem foldlM_addNumber (hα : ReadsDecimals α) (f : LinearForm α)
    {items : List (Option Polarity × Item)} {ns : List (List Char)}
    (h : ns.map withoutSpaces = items.filterMap fun (p, item) => item.constantSpelling? p) :
    ns.foldlM addNumber f = .ok ⟨f.x, f.y,
      (items.filterMap fun (p, item) => item.constant? (p.getD .plus)).foldl (· + ·)
        f.constant⟩ := by
  induction items generalizing ns f with
  | nil =>
    rw [List.map_eq_nil_iff.mp h]
    rfl
  | cons first items ih =>
    obtain ⟨p, item⟩ := first
    cases item with
    | constant n =>
      obtain ⟨number, ns, rfl, hnumber, hns⟩ := List.map_eq_cons_iff.mp h
      have hone : f.addNumber number =
          .ok { f with constant := f.constant + n.value (p.getD .plus).isMinus } := by
        rw [addNumber, hnumber, n.readScalar_text hα]
        rfl
      rw [List.foldlM_cons, hone]
      exact ih _ hns
    | term n star v => exact ih f h

theorem foldl_addTo_some (a : α) (values : List α) :
    values.foldl addTo (some a) = some (values.foldl (· + ·) a) := by
  induction values generalizing a with
  | nil => rfl
  | cons v values ih => exact ih (a + v)

theorem filter_foldl_addTo (values : List α) :
    (values.foldl addTo none).filter (fun v => negligible < Scalar.abs v) = total? values := by
  cases values with
  | nil => rfl
  | cons v values =>
    have hsum : (v :: values).foldl addTo none = some (sum (v :: values)) :=
      foldl_addTo_some (0 + v) values
    rw [hsum]
    by_cases hbig : 1e-12 < Scalar.abs (sum (v :: values))
    · simp [total?, negligible, hbig]
    · simp [total?, negligible, hbig]

/-- An expression is read for what it means. -/
theorem read_laid (hα : ReadsDecimals α) {e : Expression} {t : List Char}
    (h : Laid Spaces e.words t) :
    read t = .ok (⟨e.weight? .x, e.weight? .y, e.constant⟩ : LinearForm α) := by
  have hyields := e.yields h
  have hnumbers := hyields.numbers [] .done
  rw [List.append_nil, numbers_nil, List.map_nil, List.append_nil] at hnumbers
  have hterms := foldlM_addTerm hα zero hyields.terms
  rw [read]
  change (List.foldlM addTerm zero (terms (pieces (withoutStars t))) >>= _) = _
  rw [hterms]
  change (List.foldlM addNumber _ (numbers (leftover (pieces (withoutStars t)))) >>= _) = _
  rw [foldlM_addNumber hα _ hnumbers]
  have hx := filter_foldl_addTo (e.coefficients .x : List α)
  have hy := filter_foldl_addTo (e.coefficients .y : List α)
  rw [Expression.coefficients_eq_signed] at hx hy
  change Except.ok (prune _) = _
  rw [Expression.constant_eq_signed, Expression.weight?, Expression.weight?,
    Expression.coefficients_eq_signed, Expression.coefficients_eq_signed, ← hx, ← hy]
  rfl

end LinearForm

end Value

end CornerPoint.Spec
