import CornerPoint.Proofs.Spec.Comparison

/-!
Writing out shared bounds. A shared bound is found where one begins and nowhere else, since in a
comparison no variable stands before a comma; what is written in its place are the comparisons it
stands for.
-/
namespace CornerPoint.Spec

open Text

theorem Variable.isVariable_char (v : Variable) : isVariable v.char = true := by
  cases v
  · decide
  · decide

theorem nextVariable?_of_stops {t : List Char} (h : Stops (· == ',') (blanks.rest t)) :
    nextVariable? t = none := by
  unfold nextVariable?
  split
  · rename_i he
    rw [he] at h
    exact absurd (h ',' rfl) (by decide)
  · rfl

theorem nextVariable?_variable (v : Variable) {gap more : List Char} (hgap : Spaces gap)
    (hmore : Spaces more) (rest : List Char) :
    nextVariable? (gap ++ ',' :: (more ++ v.char :: rest)) = some (v.char, rest) := by
  have hv : Stops isBlank (v.char :: rest) := v.stops (by decide) (by decide) rest
  rw [nextVariable?, rest_blanks hgap (stops_cons (by decide) _)]
  simp only [rest_blanks hmore hv, v.isVariable_char, if_true]

theorem moreVariables_none {t : List Char} (h : nextVariable? t = none) :
    moreVariables t = ([], t) := by
  rw [moreVariables]
  split
  · rename_i h'
    rw [h] at h'
    contradiction
  · rfl

theorem moreVariables_some {t rest : List Char} {c : Char}
    (h : nextVariable? t = some (c, rest)) :
    moreVariables t = (c :: (moreVariables rest).1, (moreVariables rest).2) := by
  rw [moreVariables]
  split
  · rename_i c' rest' h'
    rw [h] at h'
    simp only [Option.some.injEq, Prod.mk.injEq] at h'
    rw [h'.1, h'.2]
  · rename_i h'
    rw [h] at h'
    contradiction

/-- All further variables of a shared bound are found. -/
theorem moreVariables_laid {others : List Variable} {t rest : List Char}
    (h : Laid Spaces (others.flatMap fun v => [.mark ',', v.word]) t)
    (hrest : nextVariable? rest = none) :
    moreVariables (t ++ rest) = (others.map Variable.char, rest) := by
  induction others generalizing t with
  | nil =>
    rw [h.of_nil]
    exact moreVariables_none hrest
  | cons v others ih =>
    obtain ⟨gap, t, rfl, hgap, -, h⟩ := h.of_cons
    obtain ⟨more, t, rfl, hmore, -, h⟩ := h.of_cons
    have hnext := nextVariable?_variable v hgap hmore (t ++ rest)
    have htext : gap ++ ((Word.mark ',').text ++ (more ++ (v.word.text ++ t))) ++ rest =
        gap ++ ',' :: (more ++ v.char :: (t ++ rest)) := by
      rw [v.text_word]
      simp [Word.mark]
    rw [htext, moreVariables_some hnext, ih h]
    rfl

theorem boundSign?_side (side : Side) (rest : List Char) :
    boundSign? (side.comparator.text ++ rest) = some (side.comparator.text, rest) := by
  cases side
  · rfl
  · rfl

theorem boundNumber?_text (b : Bound) {rest : List Char} (hd : Stops isDigit rest)
    (hp : Stops (· == '.') rest) : boundNumber? (b.text ++ rest) = some (b.text, rest) := by
  have hminus : minus.rest (b.text ++ rest) = b.number.text ++ rest := by
    unfold Bound.text
    split
    · rfl
    · refine Cut.rest_one_of_stops (b.number.stops_text (fun c hc => ?_) rest)
      simpa using ne_of_isDigit hc (by decide)
  have hrest : (minus ++ digits ++ fraction).rest (b.text ++ rest) = rest := by
    rw [Cut.rest_append, Cut.rest_append, hminus, Number.rest_fraction hd hp]
  rw [boundNumber?, hminus, if_neg (by simp [b.number.taken_digits_ne_nil rest])]
  exact congrArg some (Prod.ext (Cut.taken_eq_of_rest hrest) hrest)

namespace SharedBound

theorem read?_of_not_isVariable {c : Char} (h : isVariable c = false) (rest : List Char) :
    read? (c :: rest) = none := by
  simp [read?, h]

theorem read?_of_nextVariable? {rest : List Char} (h : nextVariable? rest = none) (c : Char) :
    read? (c :: rest) = none := by
  simp [read?, moreVariables_none h]

/-- After the variables and the comparator of a shared bound, its number decides. -/
theorem read?_of_laid (first : Variable) {others : List Variable} (hothers : others ≠ [])
    (side : Side) {t : List Char} (h : Laid Spaces ((others.flatMap fun v =>
      [.mark ',', v.word]) ++ [side.comparator.word]) t) (rest : List Char) :
    read? (first.char :: (t ++ rest)) = (boundNumber? (blanks.rest rest)).map fun (number, last) =>
      (⟨(first :: others).map Variable.char, side.comparator.text, number⟩, last) := by
  obtain ⟨front, back, rfl, hfront, hback⟩ := h.of_append
  obtain ⟨gap, rfl, hgap, -⟩ := hback.of_singleton
  have hblanks : blanks.rest (gap ++ (side.comparator.text ++ rest)) =
      side.comparator.text ++ rest :=
    rest_blanks hgap (side.comparator.word.stops _)
  have hnone : nextVariable? (gap ++ (side.comparator.text ++ rest)) = none := by
    apply nextVariable?_of_stops
    rw [hblanks]
    cases side
    · exact stops_cons (by decide) _
    · exact stops_cons (by decide) _
  have htext : front ++ (gap ++ side.comparator.word.text) ++ rest =
      front ++ (gap ++ (side.comparator.text ++ rest)) := by
    simp [Comparator.word]
  have hmany := moreVariables_laid hfront hnone
  have hmore : (others.map Variable.char).isEmpty = false := by simpa using hothers
  rw [htext, read?]
  simp only [hmany, hmore, hblanks, boundSign?_side, first.isVariable_char]
  cases boundNumber? (blanks.rest rest) with
  | none => rfl
  | some found => rfl

theorem read?_laid (first second : Variable) (others : List Variable) (side : Side) (b : Bound)
    {t rest : List Char} (h : Laid Spaces (((second :: others).flatMap fun v =>
      [.mark ',', v.word]) ++ [side.comparator.word, b.word]) t)
    (hd : Stops isDigit rest) (hp : Stops (· == '.') rest) :
    read? (first.char :: (t ++ rest)) = some (⟨(first :: second :: others).map Variable.char,
      side.comparator.text, b.text⟩, rest) := by
  rw [← List.singleton_append (l := [b.word]), ← List.append_assoc] at h
  obtain ⟨front, back, rfl, hfront, hback⟩ := h.of_append
  obtain ⟨gap, rfl, hgap, -⟩ := hback.of_singleton
  have hnumber : blanks.rest (gap ++ (b.text ++ rest)) = b.text ++ rest :=
    rest_blanks hgap (b.word.stops rest)
  have htext : front ++ (gap ++ b.word.text) ++ rest = front ++ (gap ++ (b.text ++ rest)) := by
    simp [Bound.word]
  rw [htext, read?_of_laid first (by simp) side hfront, hnumber, boundNumber?_text b hd hp]
  rfl

end SharedBound

theorem expandFrom_of_none {afterWord : Bool} {c : Char} {rest : List Char}
    (h : sharedBoundAt? afterWord (c :: rest) = none) :
    expandFrom afterWord (c :: rest) = c :: expandFrom (isWord c) rest := by
  rw [expandFrom]
  split
  · rename_i h'
    rw [h] at h'
    contradiction
  · rfl

theorem expandFrom_copy {c : Char} {rest : List Char} (h : SharedBound.read? (c :: rest) = none)
    (afterWord : Bool) :
    expandFrom afterWord (c :: rest) = c :: expandFrom (isWord c) rest := by
  apply expandFrom_of_none
  unfold sharedBoundAt?
  split
  · rfl
  · exact h

theorem expandFrom_nil (afterWord : Bool) : expandFrom afterWord [] = [] := by
  rw [expandFrom]
  split
  · rename_i h'
    simp [sharedBoundAt?, SharedBound.read?] at h'
  · rfl

theorem expandFrom_shared {t rest : List Char} {b : SharedBound}
    (h : SharedBound.read? t = some (b, rest)) :
    expandFrom false t = b.written ++ expandFrom true rest := by
  rw [expandFrom]
  split
  · rename_i b' rest' h'
    have he : some (b, rest) = some (b', rest') := h.symm.trans h'
    simp only [Option.some.injEq, Prod.mk.injEq] at he
    rw [he.1, he.2]
  · rename_i h'
    have he : SharedBound.read? t = none := h'
    rw [h] at he
    contradiction

/-- Whether a text ends in a word character, or what is said of the place before it. -/
def endsWord (afterWord : Bool) (t : List Char) : Bool := t.foldl (fun _ c => isWord c) afterWord

theorem Spaces.endsWord_false {gap : List Char} (h : Spaces gap) : endsWord false gap = false := by
  induction gap with
  | nil => rfl
  | cons c gap ih =>
    have hc : isWord c = false := by
      rw [h c (by simp)]
      decide
    rw [endsWord, List.foldl_cons, hc]
    exact ih fun d hd => h d (by simp [hd])

/-- A gap that is not empty ends in no word. -/
theorem Spaces.endsWord_of_ne_nil {gap : List Char} (h : Spaces gap) (hne : gap ≠ [])
    (afterWord : Bool) : endsWord afterWord gap = false := by
  obtain ⟨c, gap, rfl⟩ := List.exists_cons_of_ne_nil hne
  exact h.endsWord_false

theorem expandFrom_append {t : List Char} (h : ∀ c ∈ t, isVariable c = false) (afterWord : Bool)
    (rest : List Char) :
    expandFrom afterWord (t ++ rest) = t ++ expandFrom (endsWord afterWord t) rest := by
  induction t generalizing afterWord with
  | nil => rfl
  | cons c t ih =>
    have hc := SharedBound.read?_of_not_isVariable (h c (by simp)) (t ++ rest)
    rw [List.cons_append, expandFrom_copy hc, ih fun d hd => h d (by simp [hd])]
    rfl

theorem Spaces.not_isVariable {gap : List Char} (h : Spaces gap) :
    ∀ c ∈ gap, isVariable c = false := by
  intro c hc
  rw [h c hc]
  decide

/-- A word that stands for itself before any word but a comma. -/
def Copied (w : Word) : Prop :=
  Stops (· == ',') w.text ∧
    ((∃ v : Variable, w.text = [v.char]) ∨ ∀ c ∈ w.text, isVariable c = false)

theorem Laid.nextVariable?_eq_none {ws : List Word} {t rest : List Char} (h : Laid Spaces ws t)
    (hws : ∀ w ∈ ws, Copied w) (hrest : nextVariable? rest = none) :
    nextVariable? (t ++ rest) = none := by
  cases h with
  | nil => exact hrest
  | @cons gap w ws t hgap _ _ =>
    apply nextVariable?_of_stops
    rw [List.append_assoc, List.append_assoc, rest_blanks hgap (w.stops _)]
    exact (hws w (by simp)).1.append_of_ne_nil w.ne_nil _

/-- No shared bound begins within words that are copied. -/
theorem Laid.expandFrom_append {ws : List Word} {t rest : List Char} (h : Laid Spaces ws t)
    (hws : ∀ w ∈ ws, Copied w) (hrest : nextVariable? rest = none) (afterWord : Bool) :
    ∃ flag, expandFrom afterWord (t ++ rest) = t ++ expandFrom flag rest := by
  induction h generalizing afterWord with
  | nil => exact ⟨afterWord, rfl⟩
  | @cons gap w ws t hgap _ ht ih =>
    have hrestWords : ∀ v ∈ ws, Copied v := fun v hv => hws v (by simp [hv])
    rw [List.append_assoc, List.append_assoc, Spec.expandFrom_append hgap.not_isVariable]
    rcases (hws w (by simp)).2 with ⟨v, hv⟩ | hv
    · -- a variable could begin a shared bound, but what comes next is no comma
      obtain ⟨flag, hflag⟩ := ih hrestWords (isWord v.char)
      have hnone := ht.nextVariable?_eq_none hrestWords hrest
      refine ⟨flag, ?_⟩
      rw [hv, List.singleton_append, expandFrom_copy (SharedBound.read?_of_nextVariable? hnone _),
        hflag]
      simp
    · obtain ⟨flag, hflag⟩ := ih hrestWords (endsWord (endsWord afterWord gap) w.text)
      refine ⟨flag, ?_⟩
      rw [Spec.expandFrom_append hv, hflag]
      simp

theorem Expression.copied (e : Expression) : ∀ w ∈ e.words, Copied w := by
  have hsingle : ∀ {c : Char} {w : Word}, w.text = [c] → c ≠ ',' → isVariable c = false →
      Copied w := by
    intro c w hw hcomma hc
    refine ⟨?_, .inr ?_⟩
    · rw [hw]
      exact stops_cons (by simpa using hcomma) []
    · rw [hw]
      simpa using hc
  refine e.forall_words (P := Copied) ?_ ?_ ?_ ?_
  · intro p
    cases p
    · exact hsingle rfl (by decide) (by decide)
    · exact hsingle rfl (by decide) (by decide)
  · intro n
    refine ⟨?_, .inr fun c hc => ?_⟩
    · have hstop := n.stops_text (p := (· == ',')) (fun c hc => by
        simpa using ne_of_isDigit hc (by decide)) []
      rwa [List.append_nil] at hstop
    · rcases Number.mem_text hc with rfl | hc
      · decide
      · simp [isVariable, ne_of_isDigit (d := 'x') hc (by decide),
          ne_of_isDigit (d := 'y') hc (by decide)]
  · exact hsingle rfl (by decide) (by decide)
  · intro v
    refine ⟨?_, .inl ⟨v, v.text_word⟩⟩
    rw [v.text_word]
    exact v.stops (by decide) (by decide) []

theorem Comparator.copied (c : Comparator) : Copied c.word := by
  cases c
  · exact ⟨stops_cons (by decide) _, .inr (eq_false_of_any (by decide))⟩
  · exact ⟨stops_cons (by decide) _, .inr (eq_false_of_any (by decide))⟩
  · exact ⟨stops_cons (by decide) _, .inr (eq_false_of_any (by decide))⟩
  · exact ⟨stops_cons (by decide) _, .inr (eq_false_of_any (by decide))⟩

theorem Bound.not_isVariable (b : Bound) : ∀ c ∈ b.text, isVariable c = false := by
  intro c hc
  rcases Bound.mem_text hc with rfl | rfl | hc
  · decide
  · decide
  · simp [isVariable, ne_of_isDigit (d := 'x') hc (by decide),
      ne_of_isDigit (d := 'y') hc (by decide)]

/-- A comparison is left as it is. -/
theorem Comparison.expandFrom_append {c : Comparison} {t : List Char}
    (h : Laid Spaces c.words t) (afterWord : Bool) (rest : List Char) :
    ∃ flag, expandFrom afterWord (t ++ rest) = t ++ expandFrom flag rest := by
  have hwords : c.words = (c.lhs.words ++ [c.comparator.word]) ++ [c.bound.word] := by
    simp [words]
  rw [hwords] at h
  obtain ⟨front, back, rfl, hfront, hback⟩ := h.of_append
  obtain ⟨gap, rfl, hgap, -⟩ := hback.of_singleton
  have hcopied : ∀ w ∈ c.lhs.words ++ [c.comparator.word], Copied w := by
    intro w hw
    rcases List.mem_append.mp hw with hw | hw
    · exact c.lhs.copied w hw
    · rw [List.mem_singleton.mp hw]
      exact c.comparator.copied
  have hnone : nextVariable? (gap ++ (c.bound.text ++ rest)) = none := by
    apply nextVariable?_of_stops
    have hsolid : Stops isBlank (c.bound.text ++ rest) := c.bound.word.stops rest
    rw [rest_blanks hgap hsolid]
    have hstops : Stops (· == ',') c.bound.text :=
      c.bound.stops (by decide) fun d hd => by simpa using ne_of_isDigit hd (by decide)
    exact hstops.append_of_ne_nil c.bound.word.ne_nil rest
  -- the bound is kept apart: a comma may follow it, but it holds no variable
  obtain ⟨flag, hflag⟩ := hfront.expandFrom_append hcopied hnone afterWord
  refine ⟨endsWord (endsWord flag gap) c.bound.text, ?_⟩
  rw [List.append_assoc, List.append_assoc]
  change expandFrom afterWord (front ++ (gap ++ (c.bound.text ++ rest))) = _
  rw [hflag, Spec.expandFrom_append hgap.not_isVariable,
    Spec.expandFrom_append c.bound.not_isVariable]
  simp [Bound.word]

namespace Segment

def opening : Segment → Comparison
  | single c => c
  | shared first _ _ side bound => ⟨.ofVariable first, side.comparator, bound⟩

def further : Segment → List Comparison
  | single _ => []
  | shared _ second others side bound =>
    (second :: others).map fun v => ⟨.ofVariable v, side.comparator, bound⟩

theorem comparisons_eq (s : Segment) : s.comparisons = s.opening :: s.further := by
  cases s
  · rfl
  · rfl

/-- The words of a segment once its shared bound, if it is one, has been written out. -/
def openedWords (s : Segment) : List Word :=
  s.opening.words ++ s.further.flatMap fun c => Separator.semicolon.wordsBefore c.words

end Segment

theorem laid_written_one (v : Variable) (side : Side) (b : Bound) :
    Laid Spaces (Comparison.mk (.ofVariable v) side.comparator b).words
      (v.char :: ' ' :: side.comparator.text ++ ' ' :: b.text) := by
  have hspace : Spaces [' '] := by simp [Spaces]
  have h : Laid Spaces [v.word, side.comparator.word, b.word]
      ([] ++ (v.word.text ++ ([' '] ++ (side.comparator.text ++ ([' '] ++ (b.text ++ [])))))) :=
    .cons spaces_nil (by cases v <;> simp [Variable.word, Word.mark])
      (.cons hspace (by simp) (.cons hspace (by simp) .nil))
  rw [v.text_word] at h
  simp only [List.nil_append, List.append_nil, List.singleton_append] at h
  exact h

/-- What stands in place of a shared bound. -/
theorem SharedBound.laid_written (first : Variable) (others : List Variable) (side : Side)
    (b : Bound) :
    Laid Spaces ((Comparison.mk (.ofVariable first) side.comparator b).words ++
        (others.map fun v => Comparison.mk (.ofVariable v) side.comparator b).flatMap fun c =>
          .mark ';' :: c.words)
      (written ⟨(first :: others).map Variable.char, side.comparator.text, b.text⟩) := by
  induction others generalizing first with
  | nil => simpa [written] using laid_written_one first side b
  | cons second others ih =>
    have hspace : Spaces [' '] := by simp [Spaces]
    have hsemicolon : Laid Spaces [.mark ';'] ([] ++ ([';'] ++ [])) :=
      .cons spaces_nil (by simp [Word.mark]) .nil
    have hstarts := (Comparison.mk (.ofVariable second) side.comparator b).starts.append
        ((others.map fun v => Comparison.mk (.ofVariable v) side.comparator b).flatMap fun c =>
          .mark ';' :: c.words)
    have hall := (laid_written_one first side b).append
      (hsemicolon.append ((ih second).prepend hstarts hspace))
    simp only [written, List.map_cons, List.intercalate_cons_cons] at hall ⊢
    simpa using hall

namespace Segment

theorem starts (s : Segment) : Starts s.words := by
  cases s with
  | single c => exact c.starts
  | shared first second others side b =>
    exact ⟨first.word, _, rfl, by cases first <;> rfl⟩

theorem starts_openedWords (s : Segment) : Starts s.openedWords :=
  s.opening.starts.append _

/-- A segment is written out, whatever follows that does not belong to its last number. -/
theorem expandFrom_laid {s : Segment} {t rest : List Char} (h : Laid Spaces s.words t)
    (hd : Stops isDigit rest) (hp : Stops (· == '.') rest) :
    ∃ u flag, expandFrom false (t ++ rest) = u ++ expandFrom flag rest ∧
      Laid Spaces s.openedWords u := by
  cases s with
  | single c =>
    obtain ⟨flag, hflag⟩ := Comparison.expandFrom_append (c := c) h false rest
    refine ⟨t, flag, hflag, ?_⟩
    rw [openedWords, further, List.flatMap_nil, List.append_nil]
    exact h
  | shared first second others side b =>
    obtain ⟨gap, t, rfl, hgap, -, h⟩ := Laid.of_cons (w := first.word) h
    have hread := SharedBound.read?_laid first second others side b h hd hp
    have hwritten := SharedBound.laid_written first (second :: others) side b
    have hstarts : Starts (shared first second others side b).openedWords := starts_openedWords _
    refine ⟨gap ++ SharedBound.written ⟨(first :: second :: others).map Variable.char,
      side.comparator.text, b.text⟩, true, ?_, hwritten.prepend hstarts hgap⟩
    rw [List.append_assoc, expandFrom_append hgap.not_isVariable, hgap.endsWord_false,
      first.text_word, List.singleton_append, List.cons_append, expandFrom_shared hread,
      List.append_assoc]

end Segment

/-- The text of a separator with the gaps that belong to it. -/
inductive Lead : Separator → List Char → Prop
  | comma {gap : List Char} (hgap : Spaces gap) : Lead .comma (gap ++ [','])
  | semicolon {gap : List Char} (hgap : Spaces gap) : Lead .semicolon (gap ++ [';'])
  | conjunction {gap text more : List Char} {h : Spells "and".toList text} (hgap : Spaces gap)
      (hne : gap ≠ []) (hmore : Spaces more) (hmore' : more ≠ []) :
      Lead (.conjunction text h) (gap ++ (text ++ more))

theorem Laid.of_spaced {ws : List Word} {t : List Char} (hws : Starts ws)
    (h : Laid Spaces (spaced ws) t) :
    ∃ gap u, t = gap ++ u ∧ Spaces gap ∧ gap ≠ [] ∧ Laid Spaces ws u := by
  obtain ⟨w, rest, rfl, hw⟩ := hws
  obtain ⟨gap, u, rfl, hgap, hne, hu⟩ := Laid.of_cons h
  have hword : Laid Spaces (w :: rest) ([] ++ (w.text ++ u)) := .cons spaces_nil (by simp [hw]) hu
  exact ⟨gap, w.text ++ u, rfl, hgap, hne rfl, hword⟩

theorem Laid.spaced {ws : List Word} {gap t : List Char} (hws : Starts ws)
    (h : Laid Spaces ws t) (hgap : Spaces gap) (hne : gap ≠ []) :
    Laid Spaces (Spec.spaced ws) (gap ++ t) := by
  obtain ⟨w, rest, rfl, -⟩ := hws
  obtain ⟨more, u, rfl, hmore, -, hu⟩ := h.of_cons
  rw [← List.append_assoc]
  exact .cons (w := { w with apart := true }) (hgap.append hmore) (by simp [hne]) hu

namespace Lead

variable {separator : Separator} {lead t : List Char} {ws : List Word}

theorem of_laid (hws : Starts ws) (h : Laid Spaces (separator.wordsBefore ws) t) :
    ∃ lead u, t = lead ++ u ∧ Lead separator lead ∧ Laid Spaces ws u := by
  cases separator with
  | comma =>
    obtain ⟨gap, u, rfl, hgap, -, hu⟩ := Laid.of_cons h
    exact ⟨gap ++ [','], u, by simp [Word.mark], .comma hgap, hu⟩
  | semicolon =>
    obtain ⟨gap, u, rfl, hgap, -, hu⟩ := Laid.of_cons h
    exact ⟨gap ++ [';'], u, by simp [Word.mark], .semicolon hgap, hu⟩
  | conjunction text hand =>
    obtain ⟨gap, rest, rfl, hgap, hne, hrest⟩ := Laid.of_cons h
    obtain ⟨more, u, rfl, hmore, hmore', hu⟩ := hrest.of_spaced hws
    exact ⟨gap ++ (text ++ more), u, by simp [Word.spelled],
      .conjunction hgap (hne rfl) hmore hmore', hu⟩

theorem laid (h : Lead separator lead) (hws : Starts ws) (ht : Laid Spaces ws t) :
    Laid Spaces (separator.wordsBefore ws) (lead ++ t) := by
  cases h with
  | comma hgap =>
    rw [List.append_assoc]
    exact .cons (w := .mark ',') hgap (by simp [Word.mark]) ht
  | semicolon hgap =>
    rw [List.append_assoc]
    exact .cons (w := .mark ';') hgap (by simp [Word.mark]) ht
  | conjunction hgap hne hmore hmore' =>
    rw [List.append_assoc, List.append_assoc]
    exact .cons hgap (fun _ => hne) (ht.spaced hws hmore hmore')

theorem stops {p : Char → Bool} (h : Lead separator lead) (hspace : p ' ' = false)
    (hcomma : p ',' = false) (hsemicolon : p ';' = false) (t : List Char) :
    Stops p (lead ++ t) := by
  cases h with
  | comma hgap =>
    rw [List.append_assoc]
    exact hgap.stops hspace (stops_cons hcomma t)
  | semicolon hgap =>
    rw [List.append_assoc]
    exact hgap.stops hspace (stops_cons hsemicolon t)
  | @conjunction gap text more _ hgap hne _ _ =>
    obtain ⟨c, gap, rfl⟩ := List.exists_cons_of_ne_nil hne
    rw [hgap c (by simp)]
    exact stops_cons hspace _

/-- A separator is left as it is, and no word ends with it. -/
theorem expandFrom_append (h : Lead separator lead) (afterWord : Bool) (rest : List Char) :
    expandFrom afterWord (lead ++ rest) = lead ++ expandFrom false rest := by
  cases h with
  | comma hgap =>
    have hplain : ∀ c ∈ [','], isVariable c = false := eq_false_of_any (by decide)
    rw [List.append_assoc, Spec.expandFrom_append hgap.not_isVariable,
      Spec.expandFrom_append hplain, List.append_assoc]
    rfl
  | semicolon hgap =>
    have hplain : ∀ c ∈ [';'], isVariable c = false := eq_false_of_any (by decide)
    rw [List.append_assoc, Spec.expandFrom_append hgap.not_isVariable,
      Spec.expandFrom_append hplain, List.append_assoc]
    rfl
  | @conjunction gap text more hand hgap _ hmore hmore' =>
    have hplain : ∀ c ∈ text, isVariable c = false := by
      intro c hc
      have hlower : c.toLower ∈ "and".toList := by
        rw [← hand]
        exact List.mem_map_of_mem hc
      by_contra hv
      simp only [isVariable, Bool.not_eq_false, Bool.or_eq_true, beq_iff_eq] at hv
      rcases hv with rfl | rfl
      · exact absurd hlower (by decide)
      · exact absurd hlower (by decide)
    rw [List.append_assoc, List.append_assoc, Spec.expandFrom_append hgap.not_isVariable,
      Spec.expandFrom_append hplain, Spec.expandFrom_append hmore.not_isVariable,
      hmore.endsWord_of_ne_nil hmore', List.append_assoc, List.append_assoc]

end Lead

/-- The words of segments, each after its separator. -/
def wordsAfter (words : Segment → List Word) (others : List (Separator × Segment)) : List Word :=
  others.flatMap fun (separator, s) => separator.wordsBefore (words s)

theorem stops_others {others : List (Separator × Segment)} {t : List Char} {p : Char → Bool}
    (h : Laid Spaces (wordsAfter Segment.words others) t) (hspace : p ' ' = false)
    (hcomma : p ',' = false) (hsemicolon : p ';' = false) : Stops p t := by
  cases others with
  | nil =>
    rw [h.of_nil]
    exact stops_nil p
  | cons first others =>
    obtain ⟨front, back, rfl, hfront, -⟩ := Laid.of_append h
    obtain ⟨lead, u, rfl, hlead, -⟩ := Lead.of_laid first.2.starts hfront
    rw [List.append_assoc]
    exact hlead.stops hspace hcomma hsemicolon _

/-- One segment after another is written out. -/
theorem expandFrom_others {others : List (Separator × Segment)} {t : List Char}
    (h : Laid Spaces (wordsAfter Segment.words others) t) (afterWord : Bool) :
    Laid Spaces (wordsAfter Segment.openedWords others) (expandFrom afterWord t) := by
  induction others generalizing t afterWord with
  | nil =>
    rw [h.of_nil, expandFrom_nil]
    exact .nil
  | cons first others ih =>
    obtain ⟨front, back, rfl, hfront, hback⟩ := Laid.of_append h
    obtain ⟨lead, u, rfl, hlead, hu⟩ := Lead.of_laid first.2.starts hfront
    obtain ⟨v, flag, hv, hlaid⟩ := Segment.expandFrom_laid hu
      (stops_others hback (by decide) (by decide) (by decide))
      (stops_others hback (by decide) (by decide) (by decide))
    rw [List.append_assoc, hlead.expandFrom_append, hv, ← List.append_assoc]
    exact (hlead.laid first.2.starts_openedWords hlaid).append (ih hback flag)

theorem expand_laid {c : Conditions} {t : List Char} (h : Laid Spaces c.segmentWords t) :
    Laid Spaces (c.first.openedWords ++ wordsAfter Segment.openedWords c.others) (expand t) := by
  obtain ⟨front, back, rfl, hfront, hback⟩ := h.of_append
  obtain ⟨u, flag, hu, hlaid⟩ := Segment.expandFrom_laid hfront
    (stops_others hback (by decide) (by decide) (by decide))
    (stops_others hback (by decide) (by decide) (by decide))
  rw [expand, hu]
  exact hlaid.append (expandFrom_others hback flag)

end CornerPoint.Spec
