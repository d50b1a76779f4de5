import CornerPoint.Proofs.Spec.Keyword
import CornerPoint.Scalar.Binary64
import CornerPoint.Scalar.Exact

/-!
Every sentence of the language is read as the problem it means, however its words are spelled and
laid out.
-/
namespace CornerPoint.Spec

open Text

/-- Clauses add rows in their order and numbered, and switch on what they ask for. -/
theorem foldl_addClause {α : Type} (cs : List (Clause α)) (p : Problem α) :
    cs.foldl addClause p = { p with
      constraints := p.constraints ++ (cs.filterMap Clause.row?).mapIdx fun i r =>
        { r with name := some ("c" ++ toString (p.constraints.length + i + 1)) }
      nonnegX := p.nonnegX || cs.any (Clause.isNonnegative .x)
      nonnegY := p.nonnegY || cs.any (Clause.isNonnegative .y) } := by
  induction cs generalizing p with
  | nil => simp
  | cons c cs ih =>
    rw [List.foldl_cons, ih]
    cases c with
    | nonnegative v =>
      have hskip : (Clause.nonnegative v :: cs).filterMap Clause.row? = cs.filterMap Clause.row? :=
        List.filterMap_cons_none rfl
      cases v
      · simp [addClause, hskip, Clause.isNonnegative]
      · simp [addClause, hskip, Clause.isNonnegative]
    | row a b sign c =>
      simp [addClause, Clause.row?, Clause.isNonnegative, List.mapIdx_cons, Nat.add_assoc,
        Nat.add_comm 1]

section Value

variable {α : Type} [Scalar α]

theorem readObjective_laid (hα : ReadsDecimals α) (k : Keyword) {e : Expression}
    {t gap : List Char} (h : Laid Single e.words t) (hgap : Single gap) :
    readObjective (Text.strip (k.text ++ t ++ gap)) =
      .ok (k.sense, (⟨e.weight .x, e.weight .y⟩ : Objective α)) := by
  have hall : Laid Single (k.word :: e.words) ([] ++ (k.word.text ++ t)) :=
    .cons single_nil (by simp [Keyword.word, Word.spelled]) h
  have hstrip := hall.strip_eq single_nil.spaces.blank hgap.spaces.blank
  rw [List.nil_append] at hstrip
  have hspaces : Laid Spaces e.words t := h.mono fun _ hgap => hgap.spaces
  have hstops : Stops (fun c => fold c == 'i') t := by
    intro c hc
    have hfold := hspaces.forall_expression (P := (fold · ∉ ['a', 'i', 's'])) (by decide)
      (fun _ hc => hc.fold_not_mem) c (List.mem_of_head? hc)
    simp only [List.mem_cons, List.not_mem_nil, or_false, not_or] at hfold
    simpa using hfold.2.1
  have hrest := hspaces.strip_spaces e.starts spaces_nil
  rw [List.append_nil] at hrest
  have hne : (Text.strip t).isEmpty = false := by simpa using hrest.ne_nil e.starts
  have hword : k.word.text = k.text := rfl
  rw [hword] at hstrip
  rw [readObjective, hstrip, k.readSense?_append hstops]
  simp only [hne, Bool.false_eq_true, if_false]
  rw [LinearForm.read_laid hα hrest]
  rfl

theorem foldlM_clauses (hα : ReadsDecimals α) {cs : List Comparison} {ts : List (List Char)}
    (h : List.Forall₂ (fun c t => Laid Spaces c.words t) cs ts) (p : Problem α) :
    ts.foldlM (fun p segment => addClause p <$> Clause.read segment) p =
      .ok ((cs.map Comparison.clause).foldl addClause p) := by
  induction h generalizing p with
  | nil => rfl
  | cons hc _ ih =>
    rw [List.foldlM_cons, Clause.read_laid hα hc]
    exact ih _

theorem Conditions.comparisons_eq (c : Conditions) :
    c.segments.flatMap Segment.comparisons = c.first.opening :: c.pairs.map Prod.snd := by
  simp [segments, pairs, Segment.comparisons_eq, List.flatMap_map, List.map_flatMap,
    Function.comp_def]

/-- The part after the marker is cut into the comparisons that the conditions stand for. -/
theorem constraintSegments_laid {c : Conditions} {t : List Char}
    (h : Laid Single c.segmentWords t) :
    List.Forall₂ (fun c t => Laid Spaces c.words t) (c.segments.flatMap Segment.comparisons)
      (constraintSegments (some t)) := by
  have hspaces : Laid Spaces c.segmentWords t := h.mono fun _ hgap => hgap.spaces
  have hstrip := hspaces.strip_spaces c.starts spaces_nil
  have hexpand := expand_laid hstrip
  rw [List.append_nil, c.pairWords_pairs] at hexpand
  rw [constraintSegments, Option.getD_some, splitMarker_eq_self (h.fold_ne c.fold_ne),
    c.comparisons_eq]
  exact segments_laid hexpand

theorem constraintSegments_none : constraintSegments none = [] := by
  change segments (expandFrom false []) = []
  rw [expandFrom_nil, segments, cut_nil]
  rfl

theorem Expression.fold_ne (e : Expression) : ∀ w ∈ e.words, ∀ d ∈ w.text, fold d ≠ 's' :=
  fun w hw d hd => (e.isExpressionChar w hw d hd).quiet.fold_ne

/-- Where the marker parts a collapsed text. -/
theorem splitMarker_sentence (s : Sentence) {t : List Char}
    (h : Laid Single (s.objective.words ++ (s.conditions.map Conditions.words).getD []) t) :
    ∃ front gap after, splitMarker (s.keyword.text ++ t) = (s.keyword.text ++ front ++ gap, after) ∧
      Laid Single s.objective.words front ∧ Single gap ∧
      List.Forall₂ (fun c t => Laid Spaces c.words t)
        (((s.conditions.map Conditions.segments).getD []).flatMap Segment.comparisons)
        (constraintSegments after) := by
  obtain ⟨front, back, rfl, hfront, hback⟩ := h.of_append
  have hbefore : ∀ c ∈ s.keyword.text ++ front, fold c ≠ 's' := by
    intro c hc
    rcases List.mem_append.mp hc with hc | hc
    · exact s.keyword.fold_ne c hc
    · exact hfront.fold_ne s.objective.fold_ne c hc
  cases hc : s.conditions with
  | none =>
    rw [hc] at hback
    rw [hback.of_nil, List.append_nil, splitMarker_eq_self hbefore]
    refine ⟨front, [], none, by rw [List.append_nil], hfront, single_nil, ?_⟩
    rw [constraintSegments_none]
    exact .nil
  | some c =>
    rw [hc] at hback
    obtain ⟨gap, m, rest, rfl, hgap, hm, hrest⟩ := Marker.of_laid hback
    have hspace : ∀ d ∈ gap, fold d ≠ 's' := by
      intro d hd
      rw [hgap.spaces d hd]
      decide
    refine ⟨front, gap, some rest, ?_, hfront, hgap, constraintSegments_laid hrest⟩
    rw [← List.append_assoc, splitMarker_append hbefore, splitMarker_append hspace,
      splitMarker_marker hm, List.append_nil]

theorem read_of_written (hα : ReadsDecimals α) (s : Sentence) {text : List Char}
    (h : s.Written text) : read text = .ok (s.problem : Problem α) := by
  obtain ⟨body, last, rfl, hbody, hlast⟩ := h
  obtain ⟨gap, rest, rfl, hgap, -, hrest⟩ := hbody.of_cons
  have hcollapse : collapse (gap ++ (s.keyword.word.text ++ rest) ++ last) =
      s.keyword.text ++ collapseFrom true false (rest ++ last) := by
    rw [List.append_assoc, List.append_assoc, collapse_word hgap]
    rfl
  -- the gap before the keyword is lost; all other words keep theirs, as a space or as nothing
  obtain ⟨front, space, after, hsplit, hfront, hspace, hafter⟩ :=
    splitMarker_sentence s (hrest.collapseFrom hlast)
  have hne : (s.keyword.text ++ collapseFrom true false (rest ++ last)).isEmpty = false := by
    have hword : s.keyword.text ≠ [] := s.keyword.word.ne_nil
    simp [hword]
  rw [read, hcollapse]
  simp only [hne, Bool.false_eq_true, if_false, hsplit]
  rw [readObjective_laid hα s.keyword hfront hspace]
  change List.foldlM _ _ (constraintSegments after) = _
  rw [foldlM_clauses hα hafter, foldl_addClause]
  simp [Sentence.problem, Sentence.clauses]

end Value

theorem readsDecimals_rat : ReadsDecimals Rat := fun _ _ _ => rfl

theorem readsDecimals_float : ReadsDecimals Float := fun _ _ _ => rfl

/-- Every sentence, however it is spelled and laid out, is read as the problem it means: with the
numbers of the machine, and with exact ones. -/
theorem Sentence.read_eq_problem (s : Sentence) {text : List Char} (h : s.Written text) :
    read text = .ok (s.problem : Problem Float) ∧ read text = .ok (s.problem : Problem Rat) :=
  ⟨read_of_written readsDecimals_float s h, read_of_written readsDecimals_rat s h⟩

def Number.ofDigits (whole : List Char) (part : List Char := []) (hne : whole ≠ [] := by decide)
    (h : (whole ++ part).all isDigit = true := by decide) : Number :=
  ⟨whole, part, hne, List.all_eq_true.mp h⟩

/-- A sentence with a sum in its objective, a constant on the left of a comparison, and a shared
bound between two rows. -/
def blend : Sentence where
  keyword := ⟨.max, false, "MAX".toList, by decide⟩
  objective := ⟨none, .term (some (.ofDigits ['2'])) true .x,
    [(.minus, .term (some (.ofDigits ['0'] ['5'])) false .y),
      (.plus, .term (some (.ofDigits ['1'] ['5'])) false .x)]⟩
  conditions := some {
    marker := .subjectTo "Subject".toList "to".toList (by decide) (by decide)
    first := .single ⟨⟨none, .term none false .x, [(.plus, .constant (.ofDigits ['4'])),
      (.minus, .term none false .y), (.minus, .constant (.ofDigits ['1']))]⟩, .atMost,
      ⟨false, .ofDigits ['1', '0'] ['5']⟩⟩
    others := [(.conjunction "and".toList (by decide),
        .shared .x .y [] .below ⟨false, .ofDigits ['0']⟩),
      (.semicolon, .single ⟨⟨none, .constant (.ofDigits ['3']),
        [(.minus, .term (some (.ofDigits ['2'])) false .x)]⟩, .doubleEqual,
        ⟨true, .ofDigits ['1']⟩⟩)] }

def blendGaps : List (List Char) :=
  [[], [' '], [], [], [' '], [' '], [], [' '], [' '], [' '],
   [' '], [' ', ' '], [' '], [' '], [' '], [' '], [' '], [' '], [' '], [' '], [' '],
   ['\n'], [' '], [], [], [' '], [' '], [], [' '], [' '], [' '], [], [' '], [' ']]

def blendText : List Char :=
  "MAX 2*x - 0.5y + 1.5 x Subject  to x + 4 - y - 1 <= 10.5\nand x,y >= 0; 3 - 2x == -1".toList

theorem blend_read : blend.Written blendText ∧
    read blendText = .ok ({
      name := "parsed"
      sense := .max
      objective := ⟨7 / 2, -1 / 2⟩
      constraints := [⟨1, -1, .le, 15 / 2, some "c1"⟩, ⟨-2, 0, .eq, -4, some "c2"⟩]
      nonnegX := true
      nonnegY := true } : Problem Rat) := by
  have hgaps : ∀ p ∈ blendGaps.zip blend.words,
      Blank p.1 ∧ (p.2.apart = true → p.1 ≠ []) := by
    decide
  have hwords : (blendGaps.zip blend.words).map Prod.snd = blend.words := rfl
  have hwritten : blend.Written blendText := by
    refine ⟨laidOut (blendGaps.zip blend.words), [], by decide, ?_, by simp [Blank]⟩
    rw [← hwords]
    exact laid_laidOut hgaps
  refine ⟨hwritten, (blend.read_eq_problem hwritten).2.trans (congrArg Except.ok ?_)⟩
  decide +kernel

end CornerPoint.Spec
