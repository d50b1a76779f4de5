import CornerPoint.Proofs.Spec.Separation

/-!
Keywords and markers. Once gaps are collapsed a marker of two words has one space in it, and no
marker begins anywhere else in a sentence, since nothing but markers holds an s.
-/
namespace CornerPoint.Text

/-- The letters of a spelled word fold to those of the word. -/
theorem Spells.fold_mem {word text : List Char} (h : Spells word text)
    (hword : word.any (['\u017f', '\u0131', '\u0130'].contains ·) = false) {c : Char}
    (hc : c ∈ text) : Text.fold c ∈ word := by
  rw [← h.fold hword]
  exact List.mem_map_of_mem hc

end CornerPoint.Text

namespace CornerPoint.Spec

open Text

theorem afterMarker?_of_fold {c : Char} (h : fold c ≠ 's') (rest : List Char) :
    afterMarker? (c :: rest) = none := by
  simp [afterMarker?, markers, afterFolded?, h]

theorem splitMarker_append {t : List Char} (h : ∀ c ∈ t, fold c ≠ 's') (rest : List Char) :
    splitMarker (t ++ rest) = (t ++ (splitMarker rest).1, (splitMarker rest).2) := by
  induction t with
  | nil => rfl
  | cons c t ih =>
    rw [List.cons_append, splitMarker, afterMarker?_of_fold (h c (by simp)),
      ih fun d hd => h d (by simp [hd])]
    rfl

theorem splitMarker_eq_self {t : List Char} (h : ∀ c ∈ t, fold c ≠ 's') :
    splitMarker t = (t, none) := by
  have hsplit := splitMarker_append h []
  rw [List.append_nil] at hsplit
  rw [hsplit, splitMarker, List.append_nil]

theorem findSome?_of_unique {f : List Char → Option (List Char)} {word rest : List Char}
    {words : List (List Char)} (hmem : word ∈ words) (hfound : f word = some rest)
    (hnone : ∀ w ∈ words, word ≠ w → f w = none) : words.findSome? f = some rest := by
  induction words with
  | nil => simp at hmem
  | cons w words ih =>
    by_cases hw : word = w
    · rw [List.findSome?_cons, ← hw, hfound]
    · rw [List.findSome?_cons, hnone w (by simp) hw]
      exact ih (by simpa [hw] using hmem) fun v hv => hnone v (by simp [hv])

/-- No marker begins with another one, so the marker that is found is the one that stands there. -/
theorem afterMarker?_append {m : List Char} (h : m.map fold ∈ markers) (rest : List Char) :
    afterMarker? (m ++ rest) = some rest := by
  have hfree : ∀ w ∈ markers, ∀ v ∈ markers, w <+: v ∨ v <+: w → w = v := by decide
  apply findSome?_of_unique h (afterFolded?_append rfl rest)
  intro w hw hne
  apply afterFolded?_eq_none
  intro hpre
  rw [List.map_append] at hpre
  have hboth := List.prefix_or_prefix_of_prefix hpre (List.prefix_append (m.map fold) _)
  exact hne (hfree w hw _ h hboth).symm

/-- The text of a marker, with one space where it has two words. -/
theorem Marker.of_laid {marker : Marker} {ws : List Word} {t : List Char}
    (h : Laid Single (marker.words ++ ws) t) :
    ∃ gap m rest, t = gap ++ (m ++ rest) ∧ Single gap ∧ m.map fold ∈ markers ∧
      Laid Single ws rest := by
  obtain ⟨front, rest, rfl, hfront, hrest⟩ := h.of_append
  -- two words that belong together have exactly one space between them once gaps are collapsed
  have hpair : ∀ {w v : Word} {t : List Char}, Laid Single (w :: spaced [v]) t →
      ∃ gap, t = gap ++ (w.text ++ ' ' :: v.text) ∧ Single gap := by
    intro w v t h
    obtain ⟨gap, u, rfl, hgap, -, hu⟩ := h.of_cons
    obtain ⟨space, rfl, hspace, hne⟩ := Laid.of_singleton (w := { v with apart := true }) hu
    have hone : space = [' '] := hspace.resolve_left (hne rfl)
    exact ⟨gap, by simp [hone], hgap⟩
  cases marker with
  | subjectTo first second hf hs =>
    obtain ⟨gap, rfl, hgap⟩ := hpair hfront
    refine ⟨gap, first ++ ' ' :: second, rest, by simp [Word.spelled], hgap, ?_, hrest⟩
    rw [List.map_append, List.map_cons, hf.fold (by decide), hs.fold (by decide)]
    decide
  | suchThat first second hf hs =>
    obtain ⟨gap, rfl, hgap⟩ := hpair hfront
    refine ⟨gap, first ++ ' ' :: second, rest, by simp [Word.spelled], hgap, ?_, hrest⟩
    rw [List.map_append, List.map_cons, hf.fold (by decide), hs.fold (by decide)]
    decide
  | abbreviated text hm =>
    obtain ⟨gap, rfl, hgap, -⟩ := hfront.of_singleton
    refine ⟨gap, text, rest, by simp [Word.spelled], hgap, ?_, hrest⟩
    rw [hm.fold (by decide)]
    decide

theorem splitMarker_marker {m : List Char} (h : m.map fold ∈ markers) (rest : List Char) :
    splitMarker (m ++ rest) = ([], some rest) := by
  have hafter := afterMarker?_append h rest
  cases m with
  | nil => exact absurd h (by decide)
  | cons c m =>
    rw [List.cons_append] at hafter ⊢
    rw [splitMarker, hafter]

/-- No marker begins within a text whose gaps and words hold no s. -/
theorem Laid.fold_ne {ws : List Word} {t : List Char} (h : Laid Single ws t)
    (hws : ∀ w ∈ ws, ∀ c ∈ w.text, fold c ≠ 's') : ∀ c ∈ t, fold c ≠ 's' := by
  refine h.forall_mem (fun gap hgap c hc => ?_) hws
  rw [hgap.spaces c hc]
  decide

theorem Quiet.fold_ne {c : Char} (h : Quiet c) : fold c ≠ 's' := by
  have hfold := h.fold_not_mem
  simp only [List.mem_cons, List.not_mem_nil, or_false, not_or] at hfold
  exact hfold.2.2

theorem Comparison.fold_ne (c : Comparison) : ∀ w ∈ c.words, ∀ d ∈ w.text, fold d ≠ 's' := by
  intro w hw d hd
  rcases List.mem_append.mp hw with hw | hw
  · exact (c.lhs.isExpressionChar w hw d hd).quiet.fold_ne
  · simp only [List.mem_cons, List.not_mem_nil, or_false] at hw
    rcases hw with rfl | rfl
    · exact (Comparator.quiet d hd).fold_ne
    · exact (Bound.quiet hd).fold_ne

theorem Variable.fold_ne (v : Variable) : ∀ d ∈ v.word.text, fold d ≠ 's' := by
  intro d hd
  rw [v.text_word, List.mem_singleton] at hd
  subst hd
  cases v
  · decide
  · decide

theorem Segment.fold_ne (s : Segment) : ∀ w ∈ s.words, ∀ d ∈ w.text, fold d ≠ 's' := by
  intro w hw d hd
  cases s with
  | single c => exact c.fold_ne w hw d hd
  | shared first second others side b =>
    simp only [words, List.cons_append, List.mem_cons, List.mem_append, List.mem_flatMap,
      List.not_mem_nil, or_false] at hw
    rcases hw with rfl | ⟨v, -, rfl | rfl⟩ | rfl | rfl
    · exact first.fold_ne d hd
    · rw [List.mem_singleton.mp hd]
      decide
    · exact v.fold_ne d hd
    · exact (Comparator.quiet d hd).fold_ne
    · exact (Bound.quiet hd).fold_ne

theorem text_mem_spaced {ws : List Word} {w : Word} (hw : w ∈ spaced ws) :
    ∃ v ∈ ws, v.text = w.text := by
  cases ws with
  | nil => simp [spaced] at hw
  | cons v ws =>
    rcases List.mem_cons.mp hw with rfl | hw
    · exact ⟨v, by simp, rfl⟩
    · exact ⟨w, by simp [hw], rfl⟩

theorem Separator.fold_ne (separator : Separator) {ws : List Word}
    (hws : ∀ w ∈ ws, ∀ d ∈ w.text, fold d ≠ 's') :
    ∀ w ∈ separator.wordsBefore ws, ∀ d ∈ w.text, fold d ≠ 's' := by
  intro w hw d hd
  cases separator with
  | comma =>
    rcases List.mem_cons.mp hw with rfl | hw
    · rw [List.mem_singleton.mp hd]
      decide
    · exact hws w hw d hd
  | semicolon =>
    rcases List.mem_cons.mp hw with rfl | hw
    · rw [List.mem_singleton.mp hd]
      decide
    · exact hws w hw d hd
  | conjunction text hand =>
    rcases List.mem_cons.mp hw with rfl | hw
    · have hmem := hand.fold_mem (by decide) hd
      intro he
      rw [he] at hmem
      exact absurd hmem (by decide)
    · obtain ⟨v, hv, htext⟩ := text_mem_spaced hw
      rw [← htext] at hd
      exact hws v hv d hd

theorem Conditions.fold_ne (c : Conditions) :
    ∀ w ∈ c.segmentWords, ∀ d ∈ w.text, fold d ≠ 's' := by
  intro w hw
  rcases List.mem_append.mp hw with hw | hw
  · exact c.first.fold_ne w hw
  · obtain ⟨⟨separator, s⟩, -, hw⟩ := List.mem_flatMap.mp hw
    exact separator.fold_ne s.fold_ne w hw

theorem Conditions.starts (c : Conditions) : Starts c.segmentWords := c.first.starts.append _

namespace Keyword

theorem fold_text (k : Keyword) : k.text.map fold = letters k.sense k.long := by
  apply k.spelled.fold
  cases k.sense
  · cases k.long
    · decide
    · decide
  · cases k.long
    · decide
    · decide

theorem fold_ne (k : Keyword) : ∀ c ∈ k.text, fold c ≠ 's' := by
  intro c hc
  have hmem : fold c ∈ k.text.map fold := List.mem_map_of_mem hc
  rw [k.fold_text] at hmem
  intro he
  rw [he] at hmem
  revert hmem
  cases k.sense
  · cases k.long
    · decide
    · decide
  · cases k.long
    · decide
    · decide

theorem letters_eq (sense : Sense) (long : Bool) : letters sense long =
    'm' :: (if sense = .max then ['a', 'x'] else ['i', 'n']) ++
      (if long then ['i', 'm', 'i', 'z', 'e'] else []) := by
  cases sense
  · cases long
    · decide
    · decide
  · cases long
    · decide
    · decide

theorem senseWords_eq : senseWords = [(letters .max true, .max), (letters .min true, .min),
    (letters .max false, .max), (letters .min false, .min)] := rfl

theorem afterFolded?_of_sense_ne (k : Keyword) {sense : Sense} (h : sense ≠ k.sense)
    (long : Bool) (t : List Char) : afterFolded? (letters sense long) (k.text ++ t) = none := by
  apply afterFolded?_eq_none
  rw [List.map_append, k.fold_text, letters_eq, letters_eq]
  cases sense with
  | max =>
    have hmin : k.sense ≠ .max := fun he => h he.symm
    simp [hmin]
  | min =>
    have hmax : k.sense = .max := by
      cases hk : k.sense with
      | max => rfl
      | min => exact absurd hk.symm h
    simp [hmax]

/-- Nothing in an expression makes a short keyword longer. -/
theorem afterFolded?_long (k : Keyword) (hshort : k.long = false) {t : List Char}
    (h : Stops (fun c => fold c == 'i') t) :
    afterFolded? (letters k.sense true) (k.text ++ t) = none := by
  have hlonger : ∀ rest, ¬ ('i' :: rest <+: t.map fold) := by
    intro rest hpre
    cases t with
    | nil => simp at hpre
    | cons c t =>
      rw [List.map_cons, List.cons_prefix_cons] at hpre
      have hc : (fold c == 'i') = false := h c rfl
      rw [← hpre.1] at hc
      exact absurd hc (by decide)
  apply afterFolded?_eq_none
  rw [List.map_append, k.fold_text, hshort, letters_eq, letters_eq]
  cases k.sense
  · simp [hlonger]
  · simp [hlonger]

/-- Of two keywords that fit, the longer is tried first. -/
theorem readSense?_append (k : Keyword) {t : List Char} (h : Stops (fun c => fold c == 'i') t) :
    readSense? (k.text ++ t) = some (k.sense, t) := by
  have hafter := afterFolded?_append k.fold_text t
  have hother : ∀ sense, sense ≠ k.sense → ∀ long,
      afterFolded? (letters sense long) (k.text ++ t) = none :=
    fun sense hne long => k.afterFolded?_of_sense_ne hne long t
  have hlong : k.long = false → afterFolded? (letters k.sense true) (k.text ++ t) = none :=
    fun hshort => k.afterFolded?_long hshort h
  rw [readSense?, senseWords_eq]
  simp only [List.findSome?_cons]
  generalize k.text ++ t = text at hafter hother hlong ⊢
  cases hs : k.sense with
  | max =>
    rw [hs] at hafter hother hlong
    cases hl : k.long with
    | true =>
      rw [hl] at hafter
      rw [hafter]
      rfl
    | false =>
      rw [hl] at hafter
      rw [hlong hl, hother .min (by decide), hafter]
      rfl
  | min =>
    rw [hs] at hafter hother hlong
    cases hl : k.long with
    | true =>
      rw [hl] at hafter
      rw [hother .max (by decide), hafter]
      rfl
    | false =>
      rw [hl] at hafter
      rw [hother .max (by decide), hlong hl, hother .max (by decide), hafter]
      rfl

end Keyword

end CornerPoint.Spec
