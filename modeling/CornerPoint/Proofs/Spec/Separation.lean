import CornerPoint.Proofs.Spec.Expansion

/-!
Cutting at separators. In a written-out text each cut falls between two comparisons, and what is cut
out is one comparison with gaps around it.
-/
namespace CornerPoint.Spec

open Text

theorem IsExpressionChar.fold_not_mem {c : Char} (h : IsExpressionChar c) :
    fold c ∉ ['a', 'i', 's'] := by
  rcases h with h | h
  · have hall :
        ['+', '-', '*', '.', 'x', 'y'].any (['a', 'i', 's'].contains <| fold ·) = false := by
      decide
    simpa using eq_false_of_any hall c h
  · rw [fold_of_isDigit h]
    exact IsExpressionChar.not_mem (.inr h) (by decide)

/-- A character with which no separator, marker or longer keyword begins or goes on. -/
structure Quiet (c : Char) : Prop where
  not_mark : c ∉ [',', ';']
  fold_not_mem : fold c ∉ ['a', 'i', 's']

theorem quiet_space : Quiet ' ' := ⟨by decide, by decide⟩

theorem IsExpressionChar.quiet {c : Char} (h : IsExpressionChar c) : Quiet c :=
  ⟨h.not_mem (by decide), h.fold_not_mem⟩

theorem Bound.quiet {b : Bound} {c : Char} (h : c ∈ b.text) : Quiet c := by
  rcases Bound.mem_text h with rfl | rfl | h
  · exact ⟨by decide, by decide⟩
  · exact ⟨by decide, by decide⟩
  · exact IsExpressionChar.quiet (.inr h)

theorem Comparator.quiet {c : Comparator} : ∀ d ∈ c.text, Quiet d := by
  have hmark : c.text.any ([',', ';'].contains ·) = false := by
    cases c <;> decide
  have hfold : c.text.any (['a', 'i', 's'].contains <| fold ·) = false := by
    cases c <;> decide
  intro d hd
  exact ⟨by simpa using eq_false_of_any hmark d hd, by simpa using eq_false_of_any hfold d hd⟩

theorem Comparison.quiet {c : Comparison} {t : List Char} (h : Laid Spaces c.words t) :
    ∀ d ∈ t, Quiet d := by
  refine h.forall_mem (fun gap hgap d hd => ?_) fun w hw d hd => ?_
  · rw [hgap d hd]
    exact quiet_space
  · rcases List.mem_append.mp hw with hw | hw
    · exact (c.lhs.isExpressionChar w hw d hd).quiet
    · simp only [List.mem_cons, List.not_mem_nil, or_false] at hw
      rcases hw with rfl | rfl
      · exact Comparator.quiet d hd
      · exact Bound.quiet hd

theorem separator?_eq_none {c : Char} {rest : List Char} (hmark : c ∉ [',', ';'])
    (hand : ¬['a', 'n', 'd'] <+: (c :: rest).map fold) (afterWord : Bool) :
    separator? afterWord (c :: rest) = none := by
  simp only [List.mem_cons, List.not_mem_nil, or_false, not_or] at hmark
  unfold separator?
  split
  · rename_i he
    exact absurd (List.cons.inj he).1 hmark.1
  · rename_i he
    exact absurd (List.cons.inj he).1 hmark.2
  · rw [afterFolded?_eq_none hand]

theorem separator?_quiet {c : Char} (h : Quiet c) (afterWord : Bool) (rest : List Char) :
    separator? afterWord (c :: rest) = none := by
  refine separator?_eq_none h.not_mark (fun hand => ?_) afterWord
  exact h.fold_not_mem (by simp [← (List.cons_prefix_cons.mp hand).1])

theorem cut_nil (afterWord : Bool) : cut afterWord [] = ([], []) := by
  rw [cut]
  split
  · rename_i h
    have := separator?_length_lt h
    simp at this
  · rfl

theorem cut_separator {afterWord flag : Bool} {t rest : List Char}
    (h : separator? afterWord t = some (flag, rest)) :
    cut afterWord t = ([], (cut flag rest).1 :: (cut flag rest).2) := by
  rw [cut]
  split
  · rename_i flag' rest' h'
    rw [h] at h'
    simp only [Option.some.injEq, Prod.mk.injEq] at h'
    rw [h'.1, h'.2]
  · rename_i h'
    rw [h] at h'
    contradiction

theorem cut_char {afterWord : Bool} {c : Char} {rest : List Char}
    (h : separator? afterWord (c :: rest) = none) :
    cut afterWord (c :: rest) = (c :: (cut (isWord c) rest).1, (cut (isWord c) rest).2) := by
  rw [cut]
  split
  · rename_i h'
    rw [h] at h'
    contradiction
  · rfl

theorem cut_append {t : List Char} (h : ∀ c ∈ t, Quiet c) (afterWord : Bool)
    (rest : List Char) :
    cut afterWord (t ++ rest) = (t ++ (cut (endsWord afterWord t) rest).1,
      (cut (endsWord afterWord t) rest).2) := by
  induction t generalizing afterWord with
  | nil => rfl
  | cons c t ih =>
    rw [List.cons_append, cut_char (separator?_quiet (h c (by simp)) afterWord _),
      ih fun d hd => h d (by simp [hd])]
    rfl

theorem Spaces.quiet {gap : List Char} (h : Spaces gap) : ∀ c ∈ gap, Quiet c := by
  intro c hc
  rw [h c hc]
  exact quiet_space

/-- A separator ends one stretch and begins the next; the gaps around it go to either side. -/
theorem Lead.cut_append {separator : Separator} {lead : List Char} (h : Lead separator lead)
    (afterWord : Bool) :
    ∃ gap more flag, Spaces gap ∧ Spaces more ∧ ∀ rest, cut afterWord (lead ++ rest) =
      (gap, (more ++ (cut flag rest).1) :: (cut flag rest).2) := by
  cases h with
  | @comma gap hgap =>
    refine ⟨gap, [], false, hgap, spaces_nil, fun rest => ?_⟩
    have hseparator : ∀ b, separator? b (',' :: rest) = some (false, rest) := fun _ => rfl
    rw [List.append_assoc, Spec.cut_append hgap.quiet, List.singleton_append,
      cut_separator (hseparator _), List.append_nil]
    rfl
  | @semicolon gap hgap =>
    refine ⟨gap, [], false, hgap, spaces_nil, fun rest => ?_⟩
    have hseparator : ∀ b, separator? b (';' :: rest) = some (false, rest) := fun _ => rfl
    rw [List.append_assoc, Spec.cut_append hgap.quiet, List.singleton_append,
      cut_separator (hseparator _), List.append_nil]
    rfl
  | @conjunction gap text more hand hgap hne hmore hmore' =>
    refine ⟨gap, more, false, hgap, hmore, fun rest => ?_⟩
    have hafter : afterFolded? ['a', 'n', 'd'] (text ++ (more ++ rest)) = some (more ++ rest) :=
      afterFolded?_append (hand.fold (by decide)) _
    have hhead : (more ++ rest).head?.any isWord = false := by
      obtain ⟨c, more, rfl⟩ := List.exists_cons_of_ne_nil hmore'
      have hc : isWord c = false := by
        rw [hmore c (by simp)]
        decide
      exact hc
    have hseparator : separator? false (text ++ (more ++ rest)) = some (true, more ++ rest) := by
      unfold separator?
      split
      · rename_i he
        rw [he] at hafter
        simp [afterFolded?, fold] at hafter
      · rename_i he
        rw [he] at hafter
        simp [afterFolded?, fold] at hafter
      · rw [hafter]
        change (if (false || (more ++ rest).head?.any isWord) = true then none else _) = _
        rw [hhead]
        rfl
    rw [List.append_assoc, List.append_assoc, Spec.cut_append hgap.quiet,
      hgap.endsWord_of_ne_nil hne, cut_separator hseparator, Spec.cut_append hmore.quiet,
      hmore.endsWord_of_ne_nil hmore', List.append_nil]

/-- The comparisons of a written-out text after the first one, with what stands before each. -/
def Conditions.pairs (c : Conditions) : List (Separator × Comparison) :=
  c.first.further.map (Separator.semicolon, ·) ++ c.others.flatMap fun (separator, s) =>
    (separator, s.opening) :: s.further.map (Separator.semicolon, ·)

def pairWords (pairs : List (Separator × Comparison)) : List Word :=
  pairs.flatMap fun (separator, c) => separator.wordsBefore c.words

theorem pairWords_semicolon (cs : List Comparison) :
    pairWords (cs.map (Separator.semicolon, ·)) =
      cs.flatMap fun c => Separator.semicolon.wordsBefore c.words := by
  rw [pairWords, List.flatMap_map]

theorem Separator.wordsBefore_append (separator : Separator) {ws : List Word} (hws : Starts ws)
    (vs : List Word) : separator.wordsBefore (ws ++ vs) = separator.wordsBefore ws ++ vs := by
  obtain ⟨w, rest, rfl, -⟩ := hws
  cases separator
  · rfl
  · rfl
  · rfl

theorem Conditions.pairWords_pairs (c : Conditions) :
    c.first.openedWords ++ wordsAfter Segment.openedWords c.others =
      c.first.opening.words ++ pairWords c.pairs := by
  have hothers : wordsAfter Segment.openedWords c.others = pairWords (c.others.flatMap
      fun (separator, s) => (separator, s.opening) :: s.further.map (Separator.semicolon, ·)) := by
    rw [wordsAfter, pairWords, List.flatMap_assoc]
    apply List.flatMap_congr
    rintro ⟨separator, s⟩ -
    change separator.wordsBefore s.openedWords =
      separator.wordsBefore s.opening.words ++ pairWords (s.further.map (Separator.semicolon, ·))
    rw [Segment.openedWords, separator.wordsBefore_append s.opening.starts,
      ← pairWords_semicolon]
  rw [hothers, Segment.openedWords, ← pairWords_semicolon, List.append_assoc, pairs, pairWords,
    pairWords, pairWords, List.flatMap_append]

/-- The text of a comparison with a gap after it. -/
def Loose (c : Comparison) (t : List Char) : Prop :=
  ∃ u last, t = u ++ last ∧ Laid Spaces c.words u ∧ Spaces last

/-- The cuts of a text fall between its comparisons. -/
theorem cut_pairs {pairs : List (Separator × Comparison)} {t : List Char}
    (h : Laid Spaces (pairWords pairs) t) (afterWord : Bool) :
    Spaces (cut afterWord t).1 ∧
      List.Forall₂ Loose (pairs.map Prod.snd) (cut afterWord t).2 := by
  induction pairs generalizing t afterWord with
  | nil =>
    rw [h.of_nil, cut_nil]
    exact ⟨spaces_nil, .nil⟩
  | cons first pairs ih =>
    obtain ⟨front, back, rfl, hfront, hback⟩ := Laid.of_append h
    have hstarts := first.2.starts
    obtain ⟨lead, u, rfl, hlead, hu⟩ := Lead.of_laid hstarts hfront
    obtain ⟨gap, more, flag, hgap, hmore, hcut⟩ := hlead.cut_append afterWord
    -- the gap before the next separator is still part of this stretch
    obtain ⟨hlast, hrest⟩ := ih hback (endsWord flag u)
    rw [List.append_assoc, hcut, cut_append (Comparison.quiet hu)]
    refine ⟨hgap, .cons ⟨more ++ u, _, ?_, hu.prepend hstarts hmore, hlast⟩ hrest⟩
    rw [List.append_assoc]

theorem Loose.strip {c : Comparison} {t : List Char} (h : Loose c t) :
    Laid Spaces c.words (Text.strip t) := by
  obtain ⟨u, last, rfl, hu, hlast⟩ := h
  exact hu.strip_spaces c.starts hlast

theorem strip_all {cs : List Comparison} {ts : List (List Char)} (h : List.Forall₂ Loose cs ts) :
    List.Forall₂ (fun c t => Laid Spaces c.words t) cs
      ((ts.map Text.strip).filter (!·.isEmpty)) := by
  induction h with
  | nil => exact .nil
  | @cons c t cs ts hc _ ih =>
    have hstrip := hc.strip
    have hne : (!(Text.strip t).isEmpty) = true := by
      simpa using hstrip.ne_nil c.starts
    have hkeep : ((t :: ts).map Text.strip).filter (!·.isEmpty) =
        Text.strip t :: (ts.map Text.strip).filter (!·.isEmpty) :=
      List.filter_cons_of_pos hne
    rw [hkeep]
    exact .cons hstrip ih

theorem segments_laid {first : Comparison} {pairs : List (Separator × Comparison)}
    {t : List Char} (h : Laid Spaces (first.words ++ pairWords pairs) t) :
    List.Forall₂ (fun c t => Laid Spaces c.words t) (first :: pairs.map Prod.snd) (segments t) := by
  obtain ⟨front, back, rfl, hfront, hback⟩ := h.of_append
  obtain ⟨hlast, hrest⟩ := cut_pairs hback (endsWord false front)
  have hloose : List.Forall₂ Loose (first :: pairs.map Prod.snd)
      ((cut false (front ++ back)).1 :: (cut false (front ++ back)).2) := by
    rw [cut_append (Comparison.quiet hfront)]
    exact .cons ⟨front, _, rfl, hfront, hlast⟩ hrest
  exact strip_all hloose

end CornerPoint.Spec
