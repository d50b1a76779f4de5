import CornerPoint.Proofs.Spec.Expression

/-!
A comparison is read as the clause it means: the comparator parts its text, and neither side holds
another one.
-/
namespace CornerPoint.Spec

open Text

/-- The characters of an expression. -/
def IsExpressionChar (c : Char) : Prop :=
  c ∈ ['+', '-', '*', '.', 'x', 'y'] ∨ isDigit c = true

theorem IsExpressionChar.not_mem {c : Char} (h : IsExpressionChar c) {l : List Char}
    (hl : l.any (fun d => ['+', '-', '*', '.', 'x', 'y'].contains d || isDigit d) = false) :
    c ∉ l := by
  intro hc
  have hne := Bool.or_eq_false_iff.mp (eq_false_of_any hl c hc)
  rcases h with h | h
  · have hmem := List.contains_iff_mem.mpr h
    rw [hne.1] at hmem
    contradiction
  · exact ne_of_isDigit h hne.2 rfl

theorem Number.isExpressionChar {n : Number} {c : Char} (h : c ∈ n.text) : IsExpressionChar c := by
  rcases Number.mem_text h with rfl | h
  · exact .inl (by decide)
  · exact .inr h

theorem Expression.isExpressionChar (e : Expression) :
    ∀ w ∈ e.words, ∀ c ∈ w.text, IsExpressionChar c := by
  refine e.forall_words (P := (∀ c ∈ ·.text, IsExpressionChar c)) ?_ ?_ ?_ ?_
  · intro p c hc
    rw [p.text_word, List.mem_singleton] at hc
    subst hc
    cases p
    · exact .inl (by decide)
    · exact .inl (by decide)
  · exact fun n c hc => Number.isExpressionChar hc
  · intro c hc
    rw [List.mem_singleton.mp hc]
    exact .inl (by decide)
  · intro v c hc
    rw [v.text_word, List.mem_singleton] at hc
    subst hc
    cases v
    · exact .inl (by decide)
    · exact .inl (by decide)

/-- A property of the space and of every character of an expression holds throughout its text. -/
theorem Laid.forall_expression {e : Expression} {t : List Char} {P : Char → Prop}
    (h : Laid Spaces e.words t) (hspace : P ' ') (hchar : ∀ c, IsExpressionChar c → P c) :
    ∀ c ∈ t, P c := by
  refine h.forall_mem (fun gap hgap c hc => ?_) fun w hw c hc => ?_
  · rw [hgap c hc]
    exact hspace
  · exact hchar c (e.isExpressionChar w hw c hc)

theorem splitComparator?_append {t : List Char} (h : ∀ c ∈ t, c ∉ ['<', '>', '='])
    (c : Comparator) {rest : List Char} (hrest : Stops (· == '=') rest) :
    splitComparator? (t ++ (c.text ++ rest)) = some (t, c.sign, rest) := by
  induction t with
  | nil =>
    cases c with
    | atMost => rfl
    | atLeast => rfl
    | doubleEqual => rfl
    | equal =>
      change splitComparator? ('=' :: rest) = _
      unfold splitComparator?
      split
      · rename_i he
        simp at he
      · rename_i he
        simp at he
      · rename_i he
        simp at he
      · rename_i he
        obtain ⟨-, rfl⟩ := List.cons.inj he
        exact absurd (hrest '=' rfl) (by decide)
      · rename_i he
        obtain ⟨-, rfl⟩ := List.cons.inj he
        rfl
      · rename_i hne he
        obtain ⟨rfl, rfl⟩ := List.cons.inj he
        exact (hne rfl).elim
  | cons d t ih =>
    have hd := h d (by simp)
    simp only [List.mem_cons, List.not_mem_nil, or_false, not_or] at hd
    rw [List.cons_append, splitComparator?, ih fun e he => h e (by simp [he])]
    · rfl
    · exact fun _ he => absurd he hd.1
    · exact fun _ he => absurd he hd.2.1
    · exact fun _ he => absurd he hd.2.2
    · exact hd.2.2

section Value

variable {α : Type} [Scalar α]

theorem Bound.text_eq (b : Bound) :
    b.text = signText (if b.isMinus then some .minus else none) ++ b.number.text := by
  unfold Bound.text
  split
  · rfl
  · rfl

theorem Bound.stops (b : Bound) {p : Char → Bool} (hminus : p '-' = false)
    (hdigit : ∀ c, isDigit c = true → p c = false) : Stops p b.text := by
  have hnumber : Stops p b.number.text := by
    obtain ⟨d, rest, htext, hd⟩ := b.number.exists_text_eq
    rw [htext]
    exact stops_cons (hdigit d hd) rest
  unfold Bound.text
  split
  · exact stops_cons hminus _
  · exact hnumber

theorem readBound_text (hα : ReadsDecimals α) (b : Bound) {t : List Char}
    (h : withoutSpaces t = b.text) : readBound t = .ok (b.value : α) := by
  rw [readBound, h, b.text_eq, b.number.read?_text, Option.bind_some,
    b.number.ofNumeral?_numeral hα, Bound.value]
  cases b.isMinus
  · rfl
  · rfl

/-- The reader and the meaning agree on which comparisons are about a sign. -/
theorem Comparison.ofForm_eq_clause (c : Comparison) :
    Clause.ofForm ⟨c.lhs.weight? .x, c.lhs.weight? .y, c.lhs.constant⟩ c.comparator.sign
      c.bound.value = (c.clause : Clause α) := by
  have hx : c.keepsNonnegative α .x = (c.comparator.sign = .ge && (c.bound.value : α) == 0 &&
      ((c.lhs.weight? .x : Option α).any (· == 1) && (c.lhs.weight? .y : Option α).isNone &&
        (c.lhs.constant : α) == 0)) := rfl
  have hy : c.keepsNonnegative α .y = (c.comparator.sign = .ge && (c.bound.value : α) == 0 &&
      ((c.lhs.weight? .y : Option α).any (· == 1) && (c.lhs.weight? .x : Option α).isNone &&
        (c.lhs.constant : α) == 0)) := rfl
  rw [Clause.ofForm, nonnegative?, clause, hx, hy, Expression.weight, Expression.weight]
  generalize (c.lhs.weight? .x : Option α) = a
  generalize (c.lhs.weight? .y : Option α) = b
  generalize ((c.bound.value : α) == 0) = hasZeroBound
  generalize ((c.lhs.constant : α) == 0) = hasNoConstant
  by_cases hsign : c.comparator.sign = .ge
  · cases hasZeroBound with
    | false => simp
    | true =>
      cases hasNoConstant with
      | false => simp
      | true =>
        cases a with
        | none =>
          cases b with
          | none => simp
          | some b =>
            generalize hb : (b == 1) = isOne
            cases isOne with
            | false => simp [hb]
            | true => simp [hsign, hb]
        | some a =>
          cases b with
          | none =>
            generalize ha : (a == 1) = isOne
            cases isOne with
            | false => simp [ha]
            | true => simp [hsign, ha]
          | some b => simp
  · simp [hsign]

theorem Laid.strip_spaces {ws : List Word} {t last : List Char} (h : Laid Spaces ws t)
    (hws : Starts ws) (hlast : Spaces last) : Laid Spaces ws (Text.strip (t ++ last)) :=
  h.strip hws spaces_nil (fun _ hgap => hgap.blank) hlast.blank

theorem Clause.read_laid (hα : ReadsDecimals α) {c : Comparison} {t : List Char}
    (h : Laid Spaces c.words t) : Clause.read t = .ok (c.clause : Clause α) := by
  obtain ⟨front, back, rfl, hfront, hback⟩ := h.of_append
  obtain ⟨gap, rest, rfl, hgap, -, hrest⟩ := hback.of_cons
  have hlhs := hfront.strip_spaces c.lhs.starts hgap
  have hrhs := hrest.strip_spaces ⟨c.bound.word, [], rfl, rfl⟩ spaces_nil
  rw [List.append_nil] at hrhs
  have hleft : ∀ d ∈ front ++ gap, d ∉ ['<', '>', '='] := by
    intro d hd
    rcases List.mem_append.mp hd with hd | hd
    · exact hfront.forall_expression (P := (· ∉ ['<', '>', '='])) (by decide)
        (fun _ h => h.not_mem (by decide)) d hd
    · rw [hgap d hd]
      decide
  have hright : Stops (· == '=') rest := by
    obtain ⟨gap', rfl, hgap', -⟩ := hrest.of_singleton
    refine hgap'.stops (by decide) (c.bound.stops (by decide) fun d hd => ?_)
    simpa using ne_of_isDigit hd (by decide)
  have hbound : withoutSpaces (Text.strip rest) = c.bound.text := by
    obtain ⟨gap', ht, hgap', -⟩ := hrhs.of_singleton
    rw [ht, withoutSpaces_append, hgap'.withoutSpaces_eq]
    exact withoutSpaces_eq_self c.bound.text_solid
  have hsplit := splitComparator?_append hleft c.comparator hright
  rw [List.append_assoc] at hsplit
  have hnil : (Text.strip (front ++ gap)).isEmpty = false := by
    simpa using hlhs.ne_nil c.lhs.starts
  have hnil' : (Text.strip rest).isEmpty = false := by
    simpa using hrhs.ne_nil ⟨c.bound.word, [], rfl, rfl⟩
  rw [Clause.read, Comparator.word, hsplit]
  simp only [hnil, hnil', Bool.or_self, Bool.false_eq_true, if_false]
  rw [LinearForm.read_laid hα hlhs]
  change (readBound (Text.strip rest) >>= _) = _
  rw [readBound_text hα c.bound hbound]
  exact congrArg Except.ok c.ofForm_eq_clause

end Value

end CornerPoint.Spec
