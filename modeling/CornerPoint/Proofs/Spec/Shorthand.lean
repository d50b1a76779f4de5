import CornerPoint.Proofs.Spec.Retention

/-!
Bounds that several variables share, with any number on their right-hand side. What is written out
for the variables is the longest plain number in front of the right-hand side, and whatever follows
it stays with the last variable. So a shared bound means one bound for each variable only where that
plain number is as much as the whole right-hand side.
-/
namespace CornerPoint.Spec

open Text

section Cutting

/-- A text that no separator begins in, even with a semicolon after it. -/
def Uncut (t : List Char) : Prop := ∀ c ∈ t, c ∉ [',', ';'] ∧ fold c ≠ 'd'

theorem Uncut.not_and {t rest : List Char} (h : Uncut t) (hrest : Stops (· != ';') rest) :
    ¬['a', 'n', 'd'] <+: (t ++ rest).map fold := by
  have hletter : 'd' ∉ t.map fold := by
    intro hd
    obtain ⟨c, hc, hfold⟩ := List.mem_map.mp hd
    exact (h c hc).2 hfold
  intro hand
  cases rest with
  | nil =>
    rw [List.append_nil] at hand
    exact hletter (hand.subset (by decide))
  | cons mark rest =>
    obtain rfl : mark = ';' := by simpa using hrest mark rfl
    have hfront : t.map fold ++ [';'] <+: (t ++ ';' :: rest).map fold := by
      refine ⟨rest.map fold, ?_⟩
      rw [List.map_append, List.append_assoc]
      rfl
    rcases List.prefix_or_prefix_of_prefix hand hfront with hshort | hlong
    · have hd := hshort.subset (show 'd' ∈ ['a', 'n', 'd'] by decide)
      rcases List.mem_append.mp hd with hd | hd
      · exact hletter hd
      · exact absurd hd (by decide)
    · exact absurd (hlong.subset (show ';' ∈ t.map fold ++ [';'] by simp)) (by decide)

theorem Uncut.cut_append {t rest : List Char} (h : Uncut t) (hrest : Stops (· != ';') rest)
    (afterWord : Bool) : cut afterWord (t ++ rest) =
      (t ++ (cut (endsWord afterWord t) rest).1, (cut (endsWord afterWord t) rest).2) := by
  induction t generalizing afterWord with
  | nil => rfl
  | cons c t ih =>
    have hnone : separator? afterWord (c :: (t ++ rest)) = none :=
      separator?_eq_none (h c (by simp)).1 (h.not_and hrest) afterWord
    rw [List.cons_append, cut_char hnone, ih fun d hd => h d (by simp [hd])]
    rfl

/-- Stretches with semicolons between them are cut apart again. -/
theorem cut_intercalate {t : List Char} {ts : List (List Char)} (h : ∀ u ∈ t :: ts, Uncut u)
    (afterWord : Bool) :
    cut afterWord ([';', ' '].intercalate (t :: ts)) = (t, ts.map (' ' :: ·)) := by
  induction ts generalizing t afterWord with
  | nil =>
    have hcut := (h t (by simp)).cut_append (stops_nil _) afterWord
    rw [List.append_nil, cut_nil, List.append_nil] at hcut
    rw [List.intercalate_singleton, hcut]
    rfl
  | cons u us ih =>
    have hspaced : ∀ v ∈ (' ' :: u) :: us, Uncut v := by
      intro v hv
      rcases List.mem_cons.mp hv with rfl | hv
      · intro c hc
        rcases List.mem_cons.mp hc with rfl | hc
        · exact ⟨by decide, by decide⟩
        · exact h u (by simp) c hc
      · exact h v (by simp [hv])
    have hnext : ' ' :: [';', ' '].intercalate (u :: us) =
        [';', ' '].intercalate ((' ' :: u) :: us) := by
      cases us with
      | nil => simp
      | cons v vs => simp [List.intercalate_cons_cons]
    have hsemicolon (flag : Bool) (rest : List Char) :
        separator? flag (';' :: rest) = some (false, rest) := rfl
    rw [List.intercalate_cons_cons, List.append_assoc, List.cons_append, List.singleton_append,
      (h t (by simp)).cut_append (stops_cons (by decide) _), cut_separator (hsemicolon _ _), hnext,
      ih hspaced]
    simp

theorem mem_of_mem_intercalate {s : List Char} {ts : List (List Char)} {c : Char}
    (h : c ∈ s.intercalate ts) : c ∈ s ∨ ∃ t ∈ ts, c ∈ t := by
  induction ts with
  | nil => simp at h
  | cons t ts ih =>
    cases ts with
    | nil => exact .inr ⟨t, by simp, by simpa using h⟩
    | cons u us =>
      rw [List.intercalate_cons_cons, List.mem_append, List.mem_append] at h
      rcases h with (h | h) | h
      · exact .inr ⟨t, by simp, h⟩
      · exact .inl h
      · rcases ih h with h | ⟨v, hv, hc⟩
        · exact .inl h
        · exact .inr ⟨v, List.mem_cons_of_mem t hv, hc⟩

theorem intercalate_concat_append (s : List Char) (ts : List (List Char)) (t rest : List Char) :
    s.intercalate (ts ++ [t]) ++ rest = s.intercalate (ts ++ [t ++ rest]) := by
  induction ts with
  | nil => simp
  | cons u us ih =>
    rw [List.cons_append, List.cons_append, List.intercalate_cons_of_ne_nil (by simp),
      List.intercalate_cons_of_ne_nil (by simp), List.append_assoc, ih]

/-- Without a comma there is no shared bound. -/
theorem expandFrom_of_not_mem {t : List Char} (h : ',' ∉ t) (afterWord : Bool) :
    expandFrom afterWord t = t := by
  induction t generalizing afterWord with
  | nil => exact expandFrom_nil afterWord
  | cons c t ih =>
    have ht : ',' ∉ t := fun hmem => h (List.mem_cons_of_mem c hmem)
    have hstops : Stops (· == ',') (blanks.rest t) := by
      intro d hd
      have hmem : d ∈ t := List.dropWhile_subset isBlank (List.mem_of_head? hd)
      rw [beq_eq_false_iff_ne]
      rintro rfl
      exact ht hmem
    have hnone := SharedBound.read?_of_nextVariable? (nextVariable?_of_stops hstops) c
    rw [expandFrom_copy hnone, ih ht]

theorem expand_intercalate {ts : List (List Char)} (h : ∀ t ∈ ts, Uncut t) :
    expand ([';', ' '].intercalate ts) = [';', ' '].intercalate ts := by
  refine expandFrom_of_not_mem (fun hmem => ?_) false
  rcases mem_of_mem_intercalate hmem with hmem | ⟨t, ht, hmem⟩
  · exact absurd hmem (by decide)
  · exact (h t ht _ hmem).1 (by decide)

/-- A variable before a comma stands alone, unless a shared bound begins with it. -/
theorem mem_segments_of_comma (v : Variable) {gap rest : List Char} (hgap : Spaces gap)
    (h : SharedBound.read? (v.char :: (gap ++ ',' :: rest)) = none) :
    [v.char] ∈ segments (expand (v.char :: (gap ++ ',' :: rest))) := by
  have hcopied : ∀ c ∈ gap ++ [','], isVariable c = false := by
    intro c hc
    rcases List.mem_append.mp hc with hc | hc
    · exact hgap.not_isVariable c hc
    · rw [List.mem_singleton.mp hc]
      decide
  have hquiet : ∀ c ∈ v.char :: gap, Quiet c := by
    intro c hc
    rcases List.mem_cons.mp hc with rfl | hc
    · exact v.quiet
    · exact hgap.quiet c hc
  have hcomma (flag : Bool) (t : List Char) : separator? flag (',' :: t) = some (false, t) := rfl
  have hexpand : ∃ t, expand (v.char :: (gap ++ ',' :: rest)) = v.char :: gap ++ ',' :: t := by
    refine ⟨expandFrom (endsWord (isWord v.char) (gap ++ [','])) rest, ?_⟩
    rw [expand, expandFrom_copy h, show gap ++ ',' :: rest = (gap ++ [',']) ++ rest by simp,
      expandFrom_append hcopied, List.append_assoc]
    rfl
  have hstrip : strip (v.char :: gap) = [v.char] := by
    rw [← List.singleton_append, strip_back hgap.blank]
    cases v
    · rfl
    · rfl
  obtain ⟨t, ht⟩ := hexpand
  unfold segments
  rw [ht, cut_append hquiet, cut_separator (hcomma _ _), List.append_nil]
  simp [hstrip]

end Cutting

section Reading

variable {α : Type} [Scalar α]

/-- Stretches with semicolons between them are read one by one. -/
theorem readClauses_intercalate {ts : List (List Char)} {clauses : List (Clause α)} (hne : ts ≠ [])
    (huncut : ∀ t ∈ ts, Uncut t) (h : List.Forall₂ Reads ts clauses) :
    readClauses ([';', ' '].intercalate ts) = .ok clauses := by
  have hall : (ts.map strip).mapM Clause.read = .ok clauses :=
    mapM_of_forall₂ (List.forall₂_map_left_iff.mpr h)
  have hkept : ∀ t ∈ ts.map strip, (!t.isEmpty) = true := by
    intro t ht
    rcases mapM_cases (Clause.read (α := α)) (ts.map strip) with ⟨_, -, hread⟩ | ⟨e, he, -⟩
    · obtain ⟨c, hc⟩ := hread t ht
      have hne : t ≠ [] := by
        rintro rfl
        cases hc
      simpa using hne
    · rw [hall] at he
      cases he
  have hsegments : segments ([';', ' '].intercalate ts) = ts.map strip := by
    obtain ⟨t, ts, rfl⟩ := List.exists_cons_of_ne_nil hne
    have hspace : Blank [' '] := by decide
    have hstrip : (ts.map (' ' :: ·)).map strip = ts.map strip := by
      rw [List.map_map]
      exact List.map_congr_left fun u _ => strip_front hspace u
    unfold segments
    rw [cut_intercalate huncut]
    change (strip t :: (ts.map (' ' :: ·)).map strip).filter (!·.isEmpty) = _
    rw [hstrip]
    exact List.filter_eq_self.mpr hkept
  rw [readClauses, hsegments, hall]

end Reading

section Longhand

/-- A variable compared with a right-hand side. -/
def entry (side : Side) (v : Variable) (rhs : List Char) : List Char :=
  v.char :: ' ' :: side.comparator.text ++ ' ' :: rhs

/-- A bound that at least two variables share, with any text on its right-hand side. -/
structure Shorthand where
  first : Variable
  middle : List Variable
  last : Variable
  side : Side
  rhs : List Char

namespace Shorthand

/-- The text consists of the variables, with commas between them, the comparator and the right-hand
side. -/
def Entered (b : Shorthand) (text : List Char) : Prop :=
  ∃ front gap, text = b.first.char :: (front ++ (gap ++ b.rhs)) ∧
    Laid Spaces (((b.middle ++ [b.last]).flatMap fun v => Separator.comma.wordsBefore [v.word]) ++
      [b.side.comparator.word]) front ∧ Spaces gap

/-- One comparison for each variable, with semicolons between them. The last one has the right-hand
side, and the others have a copy of it. -/
def longhand (b : Shorthand) (copy : List Char) : List Char :=
  [';', ' '].intercalate ((b.first :: b.middle).map (entry b.side · copy) ++
    [entry b.side b.last b.rhs])

end Shorthand

variable {α : Type} [Scalar α]

/-- The clause that a bound for one variable is read for. -/
def boundClause (side : Side) (c : α) (v : Variable) : Clause α :=
  Clause.ofForm ⟨(Expression.ofVariable v).weight? .x, (Expression.ofVariable v).weight? .y,
    (Expression.ofVariable v).constant⟩ side.comparator.sign c

theorem not_mem_of_readBound_strip {rhs : List Char} {v : α} {c : Char}
    (h : readBound (strip rhs) = .ok v) (hc : c ∈ ['=', ',', ';', 'd', 'D']) : c ∉ rhs := by
  intro hmem
  have hsolid : ∀ d ∈ ['=', ',', ';', 'd', 'D'], isBlank d = false := eq_false_of_any (by decide)
  exact not_mem_of_readBound (Numeral.foreign_of_mem hc) h (mem_trim (hsolid c hc) hmem)

theorem uncut_entry {rhs : List Char} {c : α} (h : readBound (strip rhs) = .ok c) (side : Side)
    (v : Variable) : Uncut (entry side v rhs) := by
  have hnot {d : Char} := not_mem_of_readBound_strip (c := d) h
  have hmark : (v.char :: ' ' :: side.comparator.text ++ [' ']).any
      ([',', ';'].contains ·) = false := by
    cases v <;> cases side <;> decide
  have hletter : (v.char :: ' ' :: side.comparator.text ++ [' ']).any (fold · == 'd') = false := by
    cases v <;> cases side <;> decide
  intro d hd
  rw [entry, ← List.singleton_append (l := rhs), ← List.append_assoc] at hd
  rcases List.mem_append.mp hd with hd | hd
  · exact ⟨by simpa using eq_false_of_any hmark d hd, by simpa using eq_false_of_any hletter d hd⟩
  · have hmarks : [',', ';'] ⊆ ['=', ',', ';', 'd', 'D'] := by decide
    have hletters : ['d', 'D'] ⊆ ['=', ',', ';', 'd', 'D'] := by decide
    exact ⟨fun hmark => hnot (hmarks hmark) hd,
      fun hfold => hnot (hletters (mem_of_fold_eq hfold)) hd⟩

theorem reads_entry (hα : ReadsDecimals α) {rhs : List Char} {c : α}
    (h : readBound (strip rhs) = .ok c) (side : Side) (v : Variable) :
    Reads (entry side v rhs) (boundClause side c v) := by
  have hspace : Blank [' '] := by decide
  have hequals : Stops (· == '=') (' ' :: rhs) := stops_cons (by decide) rhs
  have hsplit : splitComparator? (entry side v rhs) =
      some ([v.char, ' '], side.comparator.sign, ' ' :: rhs) :=
    splitComparator?_append (v.not_comparing hspace) side.comparator hequals
  have hname : strip [v.char, ' '] = [v.char] := by
    cases v <;> rfl
  have hlaid : Laid Spaces (Expression.ofVariable v).words ([] ++ (v.word.text ++ [])) :=
    .cons spaces_nil (by cases v <;> simp [Variable.word, Word.mark]) .nil
  rw [v.text_word] at hlaid
  have hrhs : strip (' ' :: rhs) = strip rhs := strip_front hspace rhs
  refine reads_iff.mpr ⟨_, _, _, _, c, hsplit, ?_, ?_, ?_, by rw [hrhs, h], rfl⟩
  · simp [hname]
  · rw [hrhs]
    intro hnil
    rw [hnil] at h
    cases h
  · rw [hname]
    exact LinearForm.read_laid hα hlaid

namespace Shorthand

section Copy

variable (b : Shorthand) {copy : List Char} {n c : α}

theorem uncut_entries (hcopy : readBound (strip copy) = .ok n)
    (hrhs : readBound (strip b.rhs) = .ok c) : ∀ t ∈ (b.first :: b.middle).map
      (entry b.side · copy) ++ [entry b.side b.last b.rhs], Uncut t := by
  intro t ht
  rcases List.mem_append.mp ht with ht | ht
  · obtain ⟨v, -, rfl⟩ := List.mem_map.mp ht
    exact uncut_entry hcopy b.side v
  · rw [List.mem_singleton.mp ht]
    exact uncut_entry hrhs b.side b.last

theorem expand_longhand (hcopy : readBound (strip copy) = .ok n)
    (hrhs : readBound (strip b.rhs) = .ok c) : expand (b.longhand copy) = b.longhand copy :=
  expand_intercalate (b.uncut_entries hcopy hrhs)

/-- The clauses of the longhand depend on the copy and the right-hand side by their values only. -/
theorem readClauses_longhand (hα : ReadsDecimals α) (hcopy : readBound (strip copy) = .ok n)
    (hrhs : readBound (strip b.rhs) = .ok c) : readClauses (b.longhand copy) =
      .ok ((b.first :: b.middle).map (boundClause b.side n) ++ [boundClause b.side c b.last]) := by
  refine readClauses_intercalate (by simp) (b.uncut_entries hcopy hrhs) ?_
  refine List.rel_append ?_ (.cons (reads_entry hα hrhs b.side b.last) .nil)
  rw [List.forall₂_map_left_iff, List.forall₂_map_right_iff, List.forall₂_same]
  exact fun v _ => reads_entry hα hcopy b.side v

end Copy

theorem read?_entered {b : Shorthand} {front gap : List Char}
    (hfront : Laid Spaces (((b.middle ++ [b.last]).flatMap fun v =>
      Separator.comma.wordsBefore [v.word]) ++ [b.side.comparator.word]) front)
    (hgap : Spaces gap) :
    SharedBound.read? (b.first.char :: (front ++ (gap ++ b.rhs))) =
      (boundNumber? (blanks.rest b.rhs)).map fun (number, rest) =>
        (⟨(b.first :: (b.middle ++ [b.last])).map Variable.char, b.side.comparator.text, number⟩,
          rest) := by
  have hblanks : blanks.rest (gap ++ b.rhs) = blanks.rest b.rhs :=
    List.dropWhile_append_of_pos hgap.blank
  rw [SharedBound.read?_of_laid b.first (by simp) b.side hfront, hblanks]

/-- What is written out in place of a shared bound, if a number stands in front of its right-hand
side: the number for all variables, and after the last one whatever follows. -/
theorem expand_entered {b : Shorthand} {text number rest : List Char} (h : b.Entered text)
    (hcomma : ',' ∉ b.rhs) (hnumber : boundNumber? (blanks.rest b.rhs) = some (number, rest)) :
    expand text = { b with rhs := number ++ rest }.longhand number := by
  obtain ⟨front, gap, rfl, hfront, hgap⟩ := h
  have hread := read?_entered hfront hgap
  rw [hnumber] at hread
  obtain ⟨-, -, htext⟩ := exists_of_boundNumber? hnumber
  have hrest : ',' ∉ rest := by
    intro hmem
    have hmem' : ',' ∈ blanks.rest b.rhs := by
      rw [htext]
      exact List.mem_append_right number hmem
    exact hcomma (List.dropWhile_subset isBlank hmem')
  have hwritten : SharedBound.written
      ⟨(b.first :: (b.middle ++ [b.last])).map Variable.char, b.side.comparator.text, number⟩ =
        [';', ' '].intercalate ((b.first :: b.middle).map (entry b.side · number) ++
          [entry b.side b.last number]) := by
    simp [SharedBound.written, entry, Function.comp_def]
  have hlast : entry b.side b.last number ++ rest = entry b.side b.last (number ++ rest) := by
    simp [entry]
  rw [expand, expandFrom_shared hread, expandFrom_of_not_mem hrest, hwritten,
    intercalate_concat_append, hlast]
  rfl

/-- Without a number in front of the right-hand side the commas part the variables, and the first
one stands alone. -/
theorem exists_error_of_entered {b : Shorthand} {text : List Char} (h : b.Entered text)
    (hnumber : boundNumber? (blanks.rest b.rhs) = none) :
    ∃ e, (readClauses (expand text) : Except Refusal (List (Clause α))) = .error e := by
  obtain ⟨front, gap, rfl, hfront, hgap⟩ := h
  have hread := read?_entered hfront hgap
  rw [hnumber] at hread
  obtain ⟨v, vs, hvs⟩ := List.exists_cons_of_ne_nil (l := b.middle ++ [b.last]) (by simp)
  rw [hvs, List.flatMap_cons, List.append_assoc] at hfront
  obtain ⟨before, after, rfl, hbefore, -, -⟩ := Laid.of_cons (w := .mark ',') hfront
  have htext : b.first.char :: (before ++ ((Word.mark ',').text ++ after) ++ (gap ++ b.rhs)) =
      b.first.char :: (before ++ ',' :: (after ++ (gap ++ b.rhs))) := by
    simp [Word.mark]
  rw [htext] at hread ⊢
  have halone := mem_segments_of_comma b.first hbefore hread
  have hrefused : Clause.read [b.first.char] =
      (.error (.noComparator [b.first.char]) : Except Refusal (Clause α)) := by
    cases b.first <;> rfl
  rcases mapM_cases (Clause.read (α := α)) (segments (expand (b.first.char ::
      (before ++ ',' :: (after ++ (gap ++ b.rhs)))))) with ⟨_, -, hall⟩ | ⟨e, he, -⟩
  · obtain ⟨c, hc⟩ := hall _ halone
    rw [hrefused] at hc
    cases hc
  · exact ⟨e, he⟩

theorem Entered.ne_nil {b : Shorthand} {text : List Char} (h : b.Entered text) : text ≠ [] := by
  obtain ⟨front, gap, rfl, -, -⟩ := h
  simp

theorem longhand_ne_nil (b : Shorthand) (copy : List Char) : b.longhand copy ≠ [] := by
  rw [longhand, List.map_cons, List.cons_append, List.intercalate_cons_of_ne_nil (by simp)]
  simp [entry]

end Shorthand

end Longhand

section Meaning

variable {α : Type} [Scalar α]

/-- A shared bound is refused if no plain number stands in front of its right-hand side. If one
does then the text is read as if the bound had been written out with that number for all variables
but the last, which keeps the whole right-hand side. So the shared bound means the same bound for
each variable if the number and the right-hand side have the same value. -/
theorem Shorthand.read_by_leading_number (hα : ReadsDecimals α) (b : Shorthand) {s : List Char}
    {c : α} (hs : b.Entered (constraintText s)) (hrhs : readBound (strip b.rhs) = .ok c) :
    (boundNumber? (blanks.rest b.rhs) = none →
      ∃ e, (read s : Except Refusal (Problem α)) = .error e) ∧
    ∀ number rest, boundNumber? (blanks.rest b.rhs) = some (number, rest) →
      ∃ n : α, readBound number = .ok n ∧
        ∀ t, objectiveText t = objectiveText s →
          (constraintText t = b.longhand number →
            (read t : Except Refusal (Problem α)) = read s) ∧
          (n = c → constraintText t = b.longhand b.rhs →
            (read t : Except Refusal (Problem α)) = read s) := by
  have hcomma : ',' ∉ b.rhs := not_mem_of_readBound_strip hrhs (by decide)
  refine ⟨fun hnumber => ?_, fun number rest hnumber => ?_⟩
  · obtain ⟨e, he⟩ := exists_error_of_entered (α := α) hs hnumber
    rw [read_eq (collapse_ne_nil hs.ne_nil), he]
    cases (readObjective (objectiveText s) : Except Refusal (Sense × Objective α)) with
    | error refusal => exact ⟨refusal, rfl⟩
    | ok _ => exact ⟨e, rfl⟩
  · obtain ⟨bound, rfl, htext⟩ := exists_of_boundNumber? hnumber
    have hbound : readBound bound.text = .ok (bound.value : α) :=
      readBound_text hα bound (withoutSpaces_eq_self bound.text_solid)
    have hstrip : strip bound.text = bound.text := trim_eq_self bound.text_solid
    have hsame : strip (bound.text ++ rest) = strip b.rhs := by
      have hfront : Blank (blanks.taken b.rhs) := fun c => Cut.of_mem_taken_many
      rw [← htext, ← strip_front hfront, blanks.taken_append_rest]
    have hread {copy t : List Char} (hcopy : readBound (strip copy) = .ok (bound.value : α))
        (hobjective : objectiveText t = objectiveText s)
        (ht : constraintText t = b.longhand copy) :
        (read t : Except Refusal (Problem α)) = read s := by
      have hlong := b.readClauses_longhand hα hcopy hrhs
      have hshort := { b with rhs := bound.text ++ rest }.readClauses_longhand hα
        (hstrip.symm ▸ hbound) (hsame.symm ▸ hrhs)
      rw [read_eq (collapse_ne_nil hs.ne_nil),
        read_eq (collapse_ne_nil (ht ▸ b.longhand_ne_nil copy)), hobjective, ht,
        b.expand_longhand hcopy hrhs, expand_entered hs hcomma hnumber, hlong, hshort]
    refine ⟨bound.value, hbound, fun t hobjective => ⟨fun ht => ?_, fun hvalue ht => ?_⟩⟩
    · exact hread (hstrip.symm ▸ hbound) hobjective ht
    · exact hread (hvalue ▸ hrhs) hobjective ht

end Meaning

/-- The same upper bound for both variables. -/
def capped (rhs : List Char) : Shorthand := ⟨.x, [], .y, .above, rhs⟩

theorem capped_entered (rhs : List Char) : (capped rhs).Entered ("x,y <= ".toList ++ rhs) := by
  have hspace : Spaces [' '] := by simp [Spaces]
  have hlaid : Laid Spaces [.mark ',', Variable.y.word, Comparator.atMost.word]
      ([] ++ ([','] ++ ([] ++ (['y'] ++ ([' '] ++ (['<', '='] ++ [])))))) :=
    .cons spaces_nil (by simp [Word.mark])
      (.cons spaces_nil (by simp [Variable.word, Word.mark]) (.cons hspace (by simp) .nil))
  exact ⟨_, [' '], rfl, hlaid, hspace⟩

theorem capped_read :
    (read "max x + y s.t. x <= 1; y <= 1e2".toList : Except Refusal (Problem Float)) =
      read "max x + y s.t. x,y <= 1e2".toList ∧
    (read "max x + y s.t. x <= 5.; y <= 5.".toList : Except Refusal (Problem Float)) =
      read "max x + y s.t. x,y <= 5.".toList := by
  have hconstraint (rhs : List Char) (h : constraintText ("max x + y s.t. x,y <= ".toList ++ rhs) =
      "x,y <= ".toList ++ rhs) :
      (capped rhs).Entered (constraintText ("max x + y s.t. x,y <= ".toList ++ rhs)) :=
    h.symm ▸ capped_entered rhs
  have hexponent := (capped "1e2".toList).read_by_leading_number readsDecimals_float
    (c := 100) (hconstraint _ (by decide +kernel)) (by decide +kernel)
  have hpoint := (capped "5.".toList).read_by_leading_number readsDecimals_float
    (c := 5) (hconstraint _ (by decide +kernel)) (by decide +kernel)
  obtain ⟨n, -, hread⟩ := hexponent.2 "1".toList "e2".toList (by decide)
  obtain ⟨m, hm, hread'⟩ := hpoint.2 "5".toList ".".toList (by decide)
  have hfive : m = 5 := by
    rw [show readBound "5".toList = .ok (5 : Float) by decide +kernel] at hm
    exact (Except.ok.inj hm).symm
  exact ⟨(hread _ (by decide +kernel)).1 (by decide +kernel),
    (hread' _ (by decide +kernel)).2 hfive (by decide +kernel)⟩

/-- The exponent of a shared bound reaches the last variable only. -/
theorem shared_exponent_lost :
    readBound "1e2".toList = .ok (100 : Float) ∧
    read "maximize x + y subject to x,y <= 1e2".toList = .ok ({
      name := "parsed", sense := .max, objective := ⟨1, 1⟩
      constraints := [⟨1, 0, .le, 1, some "c1"⟩, ⟨0, 1, .le, 100, some "c2"⟩] } : Problem Float) ∧
    read "maximize x + y subject to x <= 1e2; y <= 1e2".toList = .ok ({
      name := "parsed", sense := .max, objective := ⟨1, 1⟩
      constraints := [⟨1, 0, .le, 100, some "c1"⟩, ⟨0, 1, .le, 100, some "c2"⟩] } :
        Problem Float) := by
  decide +kernel

end CornerPoint.Spec
