import CornerPoint.Proofs.Spec.Coverage
import CornerPoint.Proofs.Spec.Sentence
import CornerPoint.Proofs.Spec.Stretch

/-!
No comparison between the first marker and the second is lost. Writing out shared bounds moves text
about, but a stretch between separators that holds a comparator is still read, and for the same
clause: of the stretches that a shared bound runs through, only the last one holds its comparator,
and a comparator before its first variable makes the text unreadable.
-/
namespace CornerPoint.Spec

open Text

section SharedBound

theorem exists_variable {c : Char} (h : isVariable c = true) : ∃ v : Variable, c = v.char := by
  simp only [isVariable, Bool.or_eq_true, beq_iff_eq] at h
  rcases h with rfl | rfl
  · exact ⟨.x, rfl⟩
  · exact ⟨.y, rfl⟩

theorem exists_of_nextVariable? {t rest : List Char} {c : Char}
    (h : nextVariable? t = some (c, rest)) :
    ∃ (gap more : List Char) (v : Variable), Blank gap ∧ Blank more ∧ c = v.char ∧
      t = gap ++ ',' :: (more ++ v.char :: rest) := by
  have hsplit (u : List Char) : u = blanks.taken u ++ blanks.rest u :=
    (blanks.taken_append_rest u).symm
  unfold nextVariable? at h
  split at h
  · rename_i after hafter
    split at h
    · rename_i d u hu
      split at h
      · rename_i hd
        simp only [Option.some.injEq, Prod.mk.injEq] at h
        obtain ⟨rfl, rfl⟩ := h
        obtain ⟨v, rfl⟩ := exists_variable hd
        refine ⟨blanks.taken t, blanks.taken after, v, fun c => Cut.of_mem_taken_many,
          fun c => Cut.of_mem_taken_many, rfl, ?_⟩
        rw [← hu, ← hsplit after, ← hafter, ← hsplit t]
      · cases h
    · cases h
  · cases h

theorem exists_of_boundSign? {t sign rest : List Char} (h : boundSign? t = some (sign, rest)) :
    ∃ side : Side, sign = side.comparator.text ∧ t = sign ++ rest := by
  unfold boundSign? at h
  split at h
  · simp only [Option.some.injEq, Prod.mk.injEq] at h
    obtain ⟨rfl, rfl⟩ := h
    exact ⟨.above, rfl, rfl⟩
  · simp only [Option.some.injEq, Prod.mk.injEq] at h
    obtain ⟨rfl, rfl⟩ := h
    exact ⟨.below, rfl, rfl⟩
  · cases h

theorem exists_of_boundNumber? {t number rest : List Char}
    (h : boundNumber? t = some (number, rest)) :
    ∃ b : Bound, number = b.text ∧ t = number ++ rest := by
  unfold boundNumber? at h
  simp only [Option.ite_none_left_eq_some, List.isEmpty_iff, Option.some.injEq] at h
  obtain ⟨hdigits, hrun⟩ := h
  obtain ⟨n, hn⟩ := exists_number_taken hdigits
  have htaken : number = minus.taken t ++ n.text := by
    rw [← hn, ← List.append_assoc]
    exact (congrArg Prod.fst hrun).symm
  have htext : t = number ++ rest := by
    have hexact := (minus ++ digits ++ fraction).exact t
    rw [hrun] at hexact
    exact hexact.symm
  rcases Cut.taken_one_cases (· == '-') t with hminus | ⟨c, hc, hminus⟩
  · refine ⟨⟨false, n⟩, ?_, htext⟩
    rw [htaken, show minus.taken t = [] from hminus]
    rfl
  · obtain rfl := beq_iff_eq.mp hc
    refine ⟨⟨true, n⟩, ?_, htext⟩
    rw [htaken, show minus.taken t = ['-'] from hminus]
    rfl

theorem SharedBound.exists_of_read? {t rest : List Char} {b : SharedBound}
    (h : read? t = some (b, rest)) :
    ∃ (v : Variable) (u others after gap more : List Char) (side : Side) (bound : Bound),
      t = v.char :: u ∧ moreVariables u = (others, after) ∧ others ≠ [] ∧ Blank gap ∧ Blank more ∧
      after = gap ++ (side.comparator.text ++ (more ++ (bound.text ++ rest))) ∧
      b = ⟨v.char :: others, side.comparator.text, bound.text⟩ := by
  have hsplit (u : List Char) : u = blanks.taken u ++ blanks.rest u :=
    (blanks.taken_append_rest u).symm
  have hblank (u : List Char) : Blank (blanks.taken u) := fun c => Cut.of_mem_taken_many
  unfold read? at h
  split at h
  · cases h
  rename_i c u
  rcases hmany : moreVariables u with ⟨others, after⟩
  simp only [hmany] at h
  split at h
  · cases h
  rename_i hstart
  simp only [Bool.or_eq_true, Bool.not_eq_true', List.isEmpty_iff, not_or, Bool.not_eq_false]
    at hstart
  obtain ⟨v, rfl⟩ := exists_variable hstart.1
  split at h
  · cases h
  rename_i sign afterSign hsign
  obtain ⟨side, rfl, hside⟩ := exists_of_boundSign? hsign
  split at h
  · cases h
  rename_i number last hnumber
  obtain ⟨bound, rfl, hbound⟩ := exists_of_boundNumber? hnumber
  simp only [Option.some.injEq, Prod.mk.injEq] at h
  obtain ⟨rfl, rfl⟩ := h
  refine ⟨v, u, others, after, _, _, side, bound, rfl, hmany, hstart.2, hblank after,
    hblank afterSign, ?_, rfl⟩
  rw [← hbound, ← hsplit afterSign, ← hside, ← hsplit after]

/-- What is written after each variable of a shared bound. -/
def boundText (side : Side) (b : Bound) : List Char :=
  ' ' :: (side.comparator.text ++ ' ' :: b.text)

theorem SharedBound.written_eq (c : Char) (others : List Char) (side : Side) (b : Bound) :
    written ⟨c :: others, side.comparator.text, b.text⟩ =
      c :: (boundText side b ++ others.flatMap fun d => ';' :: ' ' :: d :: boundText side b) := by
  induction others generalizing c with
  | nil => simp [written, boundText]
  | cons d others ih =>
    have hd := ih d
    simp only [written, List.map_cons, List.intercalate_cons_cons] at hd ⊢
    rw [hd]
    simp [boundText]

theorem Number.exists_last (n : Number) : ∃ s d, n.text = s ++ [d] ∧ isDigit d = true := by
  unfold text
  split
  · obtain ⟨s, d, hs⟩ := (List.eq_nil_or_concat n.whole).resolve_left n.whole_ne_nil
    exact ⟨s, d, by simpa using hs, n.isDigit_of_mem d (by simp [hs])⟩
  · rename_i hpart
    obtain ⟨s, d, hs⟩ := (List.eq_nil_or_concat n.part).resolve_left (by simpa using hpart)
    exact ⟨n.whole ++ '.' :: s, d, by simp [hs], n.isDigit_of_mem d (by simp [hs])⟩

theorem Bound.endsWord_text (b : Bound) (t : List Char) (afterWord : Bool) :
    endsWord afterWord (t ++ b.text) = true := by
  obtain ⟨s, d, hs, hd⟩ := b.number.exists_last
  rw [Bound.text, hs, ← List.append_assoc, ← List.append_assoc, endsWord, List.foldl_append]
  exact isWord_of_isDigit hd

theorem Blank.quiet {gap : List Char} (h : Blank gap) : ∀ c ∈ gap, Quiet c := by
  intro c hc
  have hne {d : Char} (hd : isBlank d = false) : c ≠ d := by
    rintro rfl
    rw [h c hc] at hd
    cases hd
  have hupper : ¬(65 ≤ c.toNat ∧ c.toNat ≤ 90) := by
    have hblank := h c hc
    simp only [isBlank, isWhiteSpace, Bool.or_eq_true, Bool.and_eq_true, decide_eq_true_eq,
      beq_iff_eq] at hblank
    omega
  have hfold : fold c = c := by
    simp [fold, hne (d := '\u017f') (by decide), hne (d := '\u0131') (by decide),
      hne (d := '\u0130') (by decide), toLower_eq_self hupper]
  refine ⟨?_, ?_⟩
  · simp [hne (d := ',') (by decide), hne (d := ';') (by decide)]
  · simp [hfold, hne (d := 'a') (by decide), hne (d := 'i') (by decide),
      hne (d := 's') (by decide)]

theorem Variable.quiet (v : Variable) : Quiet v.char := by
  cases v
  · exact ⟨by decide, by decide⟩
  · exact ⟨by decide, by decide⟩

theorem quiet_boundText (side : Side) (b : Bound) : ∀ c ∈ boundText side b, Quiet c := by
  intro c hc
  simp only [boundText, List.mem_cons, List.mem_append] at hc
  rcases hc with rfl | hc | rfl | hc
  · exact quiet_space
  · exact Comparator.quiet c hc
  · exact quiet_space
  · exact Bound.quiet hc

/-- The text up to the end of a bound is one stretch with what follows. -/
theorem cut_bound {t : List Char} (ht : ∀ c ∈ t, Quiet c) (b : Bound) (afterWord : Bool)
    (rest : List Char) : cut afterWord (t ++ (b.text ++ rest)) =
      (t ++ (b.text ++ (cut true rest).1), (cut true rest).2) := by
  have hquiet : ∀ c ∈ t ++ b.text, Quiet c := by
    intro c hc
    exact (List.mem_append.mp hc).elim (ht c) Bound.quiet
  rw [← List.append_assoc, cut_append hquiet, b.endsWord_text, List.append_assoc]

theorem cut_boundText (side : Side) (b : Bound) (afterWord : Bool) (rest : List Char) :
    cut afterWord (boundText side b ++ rest) =
      (boundText side b ++ (cut true rest).1, (cut true rest).2) := by
  have htext (t : List Char) : boundText side b ++ t =
      (' ' :: (side.comparator.text ++ [' '])) ++ (b.text ++ t) := by
    simp [boundText]
  have hquiet : ∀ c ∈ ' ' :: (side.comparator.text ++ [' ']), Quiet c := by
    intro c hc
    refine quiet_boundText side b c ?_
    simp only [boundText, List.mem_cons, List.mem_append, List.not_mem_nil, or_false] at hc ⊢
    tauto
  rw [htext, htext, cut_bound hquiet]

/-- A mark ends a stretch, and the next one begins with the blanks and the variable after it. -/
theorem cut_mark {mark : Char} (hmark : mark = ',' ∨ mark = ';') {front more : List Char}
    (hfront : ∀ c ∈ front, Quiet c) (hmore : Blank more) (v : Variable) (afterWord : Bool)
    (rest : List Char) : cut afterWord (front ++ mark :: (more ++ v.char :: rest)) =
      (front, (more ++ v.char :: (cut true rest).1) :: (cut true rest).2) := by
  have hseparator (flag : Bool) (t : List Char) :
      separator? flag (mark :: t) = some (false, t) := by
    rcases hmark with rfl | rfl
    · rfl
    · rfl
  have hquiet : ∀ c ∈ more ++ [v.char], Quiet c := by
    intro c hc
    rcases List.mem_append.mp hc with hc | hc
    · exact hmore.quiet c hc
    · rw [List.mem_singleton.mp hc]
      exact v.quiet
  have hends : endsWord false (more ++ [v.char]) = true := by
    rw [endsWord, List.foldl_append]
    change isWord v.char = true
    cases v
    · decide
    · decide
  have htext : more ++ v.char :: rest = (more ++ [v.char]) ++ rest := by simp
  rw [cut_append hfront, cut_separator (hseparator _ _), htext, cut_append hquiet, hends]
  simp

theorem moreVariables_nil {t after : List Char} (h : moreVariables t = ([], after)) :
    after = t := by
  cases hnext : nextVariable? t with
  | none =>
    rw [moreVariables_none hnext] at h
    exact (congrArg Prod.snd h).symm
  | some found =>
    obtain ⟨c, rest⟩ := found
    rw [moreVariables_some hnext] at h
    cases h

theorem moreVariables_cons {t after others : List Char} {c : Char}
    (h : moreVariables t = (c :: others, after)) :
    ∃ rest, nextVariable? t = some (c, rest) ∧ moreVariables rest = (others, after) := by
  cases hnext : nextVariable? t with
  | none =>
    rw [moreVariables_none hnext] at h
    cases h
  | some found =>
    obtain ⟨d, rest⟩ := found
    rw [moreVariables_some hnext] at h
    obtain ⟨hd, hafter⟩ := Prod.mk.inj h
    obtain ⟨rfl, hothers⟩ := List.cons.inj hd
    exact ⟨rest, rfl, Prod.ext hothers hafter⟩

theorem Variable.not_comparing (v : Variable) {gap : List Char} (hgap : Blank gap) :
    ∀ c ∈ v.char :: gap, c ∉ ['<', '>', '='] := by
  intro c hc
  rcases List.mem_cons.mp hc with rfl | hc
  · cases v
    · decide
    · decide
  · exact hgap.not_comparing c hc

section Keeping

variable {α : Type} [Scalar α] {a a' gap more : List Char}

/-- A comparator before the first variable of a shared bound would make the text unreadable. -/
theorem keeps_before_bound (h : Alike α a a') (hgap : Blank gap) (v : Variable) (side : Side)
    (b : Bound) : Keeps α (a ++ v.char :: gap) (a' ++ v.char :: boundText side b) := by
  intro hcompares
  have hfront := v.not_comparing hgap
  obtain ⟨hcompares', -⟩ := h _ hcompares
  cases hsplit : splitComparator? a' with
  | none =>
    rw [compares, splitComparator?_append_of_none hsplit hfront] at hcompares'
    cases hcompares'
  | some found =>
    obtain ⟨l, sign, r⟩ := found
    have hwhole : splitComparator? (a' ++ v.char :: boundText side b) =
        some (l, sign, r ++ v.char :: boundText side b) :=
      splitComparator?_append_of_some hsplit (v.stops (by decide) (by decide) _)
    refine ⟨by rw [compares, hwhole]; rfl, fun c hc => ?_⟩
    refine absurd ?_ (not_mem_of_reads hc hwhole)
    cases side
    · simp [boundText, Side.comparator, Comparator.text]
    · simp [boundText, Side.comparator, Comparator.text]

/-- The spacing within a bound does not matter. -/
theorem alike_bound (h : Alike α a a') (ha : Blank a') (hgap : Blank gap) (hmore : Blank more)
    (v : Variable) (side : Side) (b : Bound) :
    Alike α (a ++ v.char :: (gap ++ (side.comparator.text ++ (more ++ b.text))))
      (a' ++ v.char :: boundText side b) := by
  refine (h.append _).trans fun rest => ?_
  have hsplit {front middle : List Char} (hfront : Blank front) (hmiddle : Blank middle) :
      splitComparator? (a' ++ v.char :: (front ++ (side.comparator.text ++
        (middle ++ (b.text ++ rest))))) =
        some (a' ++ v.char :: front, side.comparator.sign, middle ++ (b.text ++ rest)) := by
    have hleft : ∀ c ∈ a' ++ v.char :: front, c ∉ ['<', '>', '='] := by
      intro c hc
      rcases List.mem_append.mp hc with hc | hc
      · exact ha.not_comparing c hc
      · exact v.not_comparing hfront c hc
    have hright : Stops (· == '=') (middle ++ (b.text ++ rest)) := by
      refine Stops.append (fun c hc => ?_) ?_
      · have hne := hmiddle.not_comparing c hc
        simp only [List.mem_cons, List.not_mem_nil, or_false, not_or] at hne
        simpa using hne.2.2
      · refine Stops.append_of_ne_nil ?_ b.word.ne_nil rest
        exact b.stops (by decide) fun c hc => by simpa using ne_of_isDigit hc (by decide)
    have happend := splitComparator?_append hleft side.comparator hright
    rwa [List.append_assoc, List.cons_append] at happend
  have hspace : Blank [' '] := by decide
  have hleft {front : List Char} (hfront : Blank front) :
      strip (a' ++ v.char :: front) = strip [v.char] := by
    rw [strip_front ha]
    exact strip_back hfront [v.char]
  have hentered : a' ++ v.char :: (gap ++ (side.comparator.text ++ (more ++ b.text))) ++ rest =
      a' ++ v.char :: (gap ++ (side.comparator.text ++ (more ++ (b.text ++ rest)))) := by
    simp
  have hwritten : a' ++ v.char :: boundText side b ++ rest =
      a' ++ v.char :: ([' '] ++ (side.comparator.text ++ ([' '] ++ (b.text ++ rest)))) := by
    simp [boundText]
  rw [hentered, hwritten]
  refine keeps_of_split (hsplit hgap hmore) (hsplit hspace hspace) ?_ ?_
  · rw [hleft hgap, hleft hspace]
  · rw [strip_front hmore, strip_front hspace]

theorem keeps_shared {side : Side} {b : Bound} {rest expanded : List Char} (hgap : Blank gap)
    (hmore : Blank more)
    (hrest : ∀ {a a' : List Char}, Alike α a a' →
      List.Forall₂ (Keeps α) ((a ++ (cut true rest).1) :: (cut true rest).2)
        ((a' ++ (cut true expanded).1) :: (cut true expanded).2))
    {others u : List Char} (hmany : moreVariables u =
      (others, gap ++ (side.comparator.text ++ (more ++ (b.text ++ rest)))))
    (v : Variable) (h : Alike α a a') (hlast : others = [] → Blank a') :
    List.Forall₂ (Keeps α) ((a ++ v.char :: (cut true u).1) :: (cut true u).2)
      ((a' ++ v.char :: (cut true (boundText side b ++ (others.flatMap
          (fun d => ';' :: ' ' :: d :: boundText side b) ++ expanded))).1) ::
        (cut true (boundText side b ++ (others.flatMap
          (fun d => ';' :: ' ' :: d :: boundText side b) ++ expanded))).2) := by
  induction others generalizing u v a a' with
  | nil =>
    have hu := moreVariables_nil hmany
    have hquiet : ∀ c ∈ gap ++ (side.comparator.text ++ more), Quiet c := by
      intro c hc
      simp only [List.mem_append] at hc
      rcases hc with hc | hc | hc
      · exact hgap.quiet c hc
      · exact Comparator.quiet c hc
      · exact hmore.quiet c hc
    have htext : u = (gap ++ (side.comparator.text ++ more)) ++ (b.text ++ rest) := by
      rw [← hu]
      simp
    have hkept := hrest (alike_bound h (hlast rfl) hgap hmore v side b)
    rw [htext, cut_bound hquiet, List.flatMap_nil, List.nil_append, cut_boundText]
    simpa using hkept
  | cons c others ih =>
    obtain ⟨u', hnext, hmany'⟩ := moreVariables_cons hmany
    obtain ⟨before, after, w, hbefore, hafter, rfl, rfl⟩ := exists_of_nextVariable? hnext
    have hspace : Blank [' '] := by decide
    have hwritten := cut_mark (.inr rfl) (quiet_boundText side b) hspace w true
      (boundText side b ++ (others.flatMap
        (fun d => ';' :: ' ' :: d :: boundText side b) ++ expanded))
    rw [cut_mark (.inl rfl) hbefore.quiet hafter w true u', List.flatMap_cons]
    simp only [List.cons_append, List.append_assoc, List.nil_append] at hwritten ⊢
    rw [hwritten]
    refine .cons (keeps_before_bound h hbefore v side b) ?_
    exact ih hmany' w (alike_blank hafter hspace) fun _ => hspace

end Keeping

end SharedBound

section Cutting

theorem expandFrom_true_cons (c : Char) (rest : List Char) :
    expandFrom true (c :: rest) = c :: expandFrom (isWord c) rest :=
  expandFrom_of_none rfl

theorem head?_expandFrom_true (t : List Char) : (expandFrom true t).head? = t.head? := by
  cases t with
  | nil => rw [expandFrom_nil]
  | cons c rest => rw [expandFrom_true_cons]; rfl

/-- The letters of a word are copied, since no shared bound begins after a word character. -/
theorem afterFolded?_expandFrom {word t : List Char} (hword : ∀ w ∈ word, w ∈ ['a', 'n', 'd']) :
    afterFolded? word (expandFrom true t) = (afterFolded? word t).map (expandFrom true) := by
  induction word generalizing t with
  | nil => simp [afterFolded?]
  | cons w word ih =>
    cases t with
    | nil => simp [expandFrom_nil, afterFolded?]
    | cons c rest =>
      rw [expandFrom_true_cons, afterFolded?, afterFolded?]
      split
      · rename_i hc
        have hc' : isWord c = true :=
          isWord_of_fold (by rw [beq_iff_eq.mp hc]; exact hword w (by simp))
        rw [hc', ih fun v hv => hword v (by simp [hv])]
      · rfl

/-- Writing out shared bounds neither makes nor breaks a separator. -/
theorem separator?_expandFrom (afterWord : Bool) (c : Char) (rest : List Char) :
    separator? afterWord (c :: expandFrom (isWord c) rest) =
      (separator? afterWord (c :: rest)).map fun (flag, after) =>
        (flag, expandFrom flag after) := by
  have hafter : afterFolded? ['a', 'n', 'd'] (expandFrom true (c :: rest)) =
      (afterFolded? ['a', 'n', 'd'] (c :: rest)).map (expandFrom true) :=
    afterFolded?_expandFrom (by simp)
  rw [expandFrom_true_cons] at hafter
  by_cases hcomma : c = ','
  · subst hcomma
    rfl
  by_cases hsemicolon : c = ';'
  · subst hsemicolon
    rfl
  have hplain (t : List Char) : separator? afterWord (c :: t) =
      (afterFolded? ['a', 'n', 'd'] (c :: t)).bind fun rest =>
        if afterWord || rest.head?.any isWord then none else some (true, rest) := by
    unfold separator?
    split
    · rename_i he
      exact absurd (List.cons.inj he).1 hcomma
    · rename_i he
      exact absurd (List.cons.inj he).1 hsemicolon
    · split
      · rename_i hword
        rw [hword]
        rfl
      · rename_i hword
        rw [hword]
        rfl
  rw [hplain, hplain, hafter]
  cases afterFolded? ['a', 'n', 'd'] (c :: rest) with
  | none => rfl
  | some after =>
    simp only [Option.map_some, Option.bind_some, head?_expandFrom_true]
    split
    · rfl
    · rfl

variable {α : Type} [Scalar α]

theorem sharedBoundAt?_eq_some {afterWord : Bool} {t rest : List Char} {b : SharedBound}
    (h : sharedBoundAt? afterWord t = some (b, rest)) :
    afterWord = false ∧ SharedBound.read? t = some (b, rest) := by
  unfold sharedBoundAt? at h
  split at h
  · cases h
  · rename_i hflag
    exact ⟨by simpa using hflag, h⟩

/-- Stretch by stretch, the text keeps its comparisons when shared bounds are written out. -/
theorem cut_keeps (afterWord : Bool) (t : List Char) {a a' : List Char} (h : Alike α a a') :
    List.Forall₂ (Keeps α) ((a ++ (cut afterWord t).1) :: (cut afterWord t).2)
      ((a' ++ (cut afterWord (expandFrom afterWord t)).1) ::
        (cut afterWord (expandFrom afterWord t)).2) := by
  induction hn : t.length using Nat.strong_induction_on generalizing t afterWord a a' with
  | h n ih =>
    subst hn
    cases hshared : sharedBoundAt? afterWord t with
    | some found =>
      obtain ⟨b, rest⟩ := found
      obtain ⟨rfl, hread⟩ := sharedBoundAt?_eq_some hshared
      have hlength := SharedBound.read?_length_lt hread
      rw [expandFrom_shared hread]
      obtain ⟨v, u, others, after, gap, more, side, bound, rfl, hmany, hothers, hgap, hmore, rfl,
        rfl⟩ := SharedBound.exists_of_read? hread
      have hvariable (s : List Char) : cut false (v.char :: s) =
          (v.char :: (cut true s).1, (cut true s).2) := by
        rw [cut_char (separator?_quiet v.quiet false s)]
        cases v
        · rfl
        · rfl
      rw [SharedBound.written_eq, List.cons_append, List.append_assoc, hvariable, hvariable]
      exact keeps_shared hgap hmore (fun hrest => ih _ hlength true rest hrest rfl) hmany v h
        fun hnil => absurd hnil hothers
    | none =>
      cases t with
      | nil =>
        rw [expandFrom_nil, cut_nil]
        exact .cons (h []) .nil
      | cons c rest =>
        have hsep := separator?_expandFrom afterWord c rest
        rw [expandFrom_of_none hshared]
        cases hfound : separator? afterWord (c :: rest) with
        | some found =>
          obtain ⟨flag, after⟩ := found
          rw [hfound] at hsep
          rw [cut_separator hfound, cut_separator hsep]
          exact .cons (h [])
            (ih _ (separator?_length_lt hfound) flag after (Alike.refl []) rfl)
        | none =>
          rw [hfound] at hsep
          rw [cut_char hfound, cut_char hsep]
          have hrest := ih _ (by simp) (isWord c) rest (h.append [c]) rfl
          simpa using hrest

/-- Of the stretches of a text that is read, those with a comparator are read in their order. -/
theorem exists_kept {ts us : List (List Char)} (h : List.Forall₂ (Keeps α) ts us)
    {clauses : List (Clause α)}
    (hread : List.Forall₂ (fun s c => Clause.read s = .ok c)
      ((us.map strip).filter (!·.isEmpty)) clauses) :
    ∃ kept, List.Forall₂ (fun s c => Clause.read s = .ok c)
        (((ts.map strip).filter (!·.isEmpty)).filter compares) kept ∧
      kept.Sublist clauses := by
  induction h generalizing clauses with
  | nil =>
    cases hread
    exact ⟨[], .nil, .slnil⟩
  | @cons t u ts us htu _ ih =>
    have hskip (ht : compares t = false) : (((t :: ts).map strip).filter (!·.isEmpty)).filter
        compares = ((ts.map strip).filter (!·.isEmpty)).filter compares := by
      rw [List.map_cons, List.filter_cons]
      split
      · rw [List.filter_cons_of_neg (by simp [compares_strip, ht])]
      · rfl
    by_cases hblank : strip u = []
    · have ht : compares t = false := by
        by_contra ht
        have hu := (htu (by simpa using ht)).1
        rw [← compares_strip, hblank] at hu
        cases hu
      rw [List.map_cons, List.filter_cons_of_neg (by simp [hblank])] at hread
      rw [hskip ht]
      exact ih hread
    · rw [List.map_cons, List.filter_cons_of_pos (by simp [hblank])] at hread
      cases hread with
      | @cons _ c _ clauses hc hrest =>
        obtain ⟨kept, hkept, hsub⟩ := ih hrest
        cases ht : compares t with
        | false =>
          rw [hskip ht]
          exact ⟨kept, hkept, hsub.cons c⟩
        | true =>
          have hne : strip t ≠ [] := by
            intro hnil
            rw [← compares_strip, hnil] at ht
            cases ht
          rw [List.map_cons, List.filter_cons_of_pos (by simp [hne]),
            List.filter_cons_of_pos (by rw [compares_strip, ht])]
          exact ⟨c :: kept, .cons ((htu ht).2 c hc) hkept, hsub.cons_cons c⟩

end Cutting

section Reading

variable {α : Type} [Scalar α]

/-- The text that constraints are read from: what follows after the first marker, up to the second
or to the end. -/
def constraintText (spec : List Char) : List Char :=
  strip (splitMarker ((splitMarker (collapse spec)).2.getD [])).1

theorem splitMarker_of_none {t : List Char} (h : (splitMarker t).2 = none) :
    (splitMarker t).1 = t := by
  induction t with
  | nil => rfl
  | cons c rest ih =>
    unfold splitMarker at h ⊢
    cases hmarker : afterMarker? (c :: rest) with
    | some after =>
      rw [hmarker] at h
      cases h
    | none =>
      rw [hmarker] at h
      exact congrArg (c :: ·) (ih h)

theorem constraintText_of_none {spec after : List Char}
    (hafter : (splitMarker (collapse spec)).2 = some after)
    (hsecond : (splitMarker after).2 = none) : constraintText spec = strip after := by
  rw [constraintText, hafter, Option.getD_some, splitMarker_of_none hsecond]

theorem collapse_ne_nil {spec : List Char} (h : constraintText spec ≠ []) : collapse spec ≠ [] := by
  intro hnil
  rw [constraintText, hnil] at h
  exact h rfl

/-- The text that the objective is read from: what stands before the first marker. -/
def objectiveText (spec : List Char) : List Char := strip (splitMarker (collapse spec)).1

/-- The clauses that a text is read for once its shared bounds have been written out. -/
def readClauses (text : List Char) : Except Refusal (List (Clause α)) :=
  (segments text).mapM Clause.read

theorem read_eq {spec : List Char} (h : collapse spec ≠ []) :
    (read spec : Except Refusal (Problem α)) =
      readObjective (objectiveText spec) >>= fun (sense, objective) =>
        (readClauses (expand (constraintText spec))).map fun clauses =>
          clauses.foldl addClause { name := "parsed", sense, objective } := by
  have hne : (collapse spec).isEmpty = false := by simpa using h
  unfold read
  simp only [hne, Bool.false_eq_true, if_false]
  refine congrArg (readObjective (objectiveText spec) >>= ·) (funext fun ⟨sense, objective⟩ => ?_)
  exact foldlM_map_eq Clause.read addClause _ _

/-- A text that is read is read clause by clause. -/
theorem exists_clauses_of_read {spec : List Char} {p : Problem α} (h : read spec = .ok p) :
    ∃ (sense : Sense) (objective : Objective α) (clauses : List (Clause α)),
      List.Forall₂ (fun s c => Clause.read s = .ok c) (segments (expand (constraintText spec)))
        clauses ∧
      p = clauses.foldl addClause { name := "parsed", sense, objective } := by
  have hne : collapse spec ≠ [] := by
    intro hnil
    rw [read, hnil] at h
    cases h
  rw [read_eq hne] at h
  obtain ⟨⟨sense, objective⟩, -, h⟩ := exists_of_bind_eq_ok h
  obtain ⟨clauses, hclauses, hp⟩ := exists_of_bind_eq_ok h
  exact ⟨sense, objective, clauses, forall₂_of_mapM hclauses, (Except.ok.inj hp).symm⟩

/-- Every stretch of the constraint text that holds a comparator is read, in its order, for a clause
of the result: a row of it, or a variable that it asks not to be negative. If there is no second
marker then the constraint text is all that follows after the first. -/
theorem read_keeps_comparisons {spec : List Char} {p : Problem α} (h : read spec = .ok p) :
    ∃ clauses kept : List (Clause α),
      List.Forall₂ (fun s c => Clause.read s = .ok c)
        ((segments (constraintText spec)).filter compares) kept ∧
      kept.Sublist clauses ∧
      p.constraints = (clauses.filterMap Clause.row?).mapIdx (fun i r =>
        { r with name := some ("c" ++ toString (i + 1)) }) ∧
      p.nonnegX = clauses.any (Clause.isNonnegative .x) ∧
      p.nonnegY = clauses.any (Clause.isNonnegative .y) ∧
      ∀ after, (splitMarker (collapse spec)).2 = some after → (splitMarker after).2 = none →
        constraintText spec = strip after := by
  obtain ⟨sense, objective, clauses, hread, rfl⟩ := exists_clauses_of_read h
  obtain ⟨kept, hkept, hsub⟩ :=
    exists_kept (cut_keeps false (constraintText spec) (Alike.refl [])) hread
  refine ⟨clauses, kept, hkept, hsub, ?_, ?_, ?_, fun after => constraintText_of_none⟩
  · rw [foldl_addClause]
    simp
  · rw [foldl_addClause]
    simp
  · rw [foldl_addClause]
    simp

end Reading

theorem shared_bound_kept :
    read "maximize x + y subject to x + 2y <= 4, x, y >= 0".toList = .ok ({
      name := "parsed", sense := .max, objective := ⟨1, 1⟩
      constraints := [⟨1, 2, .le, 4, some "c1"⟩]
      nonnegX := true, nonnegY := true } : Problem Rat) ∧
    ∃ clauses kept : List (Clause Rat),
      List.Forall₂ (fun s c => Clause.read s = .ok c)
        ["x + 2y <= 4".toList, "y >= 0".toList] kept ∧
      kept.Sublist clauses := by
  have hsegments : (segments (constraintText
      "maximize x + y subject to x + 2y <= 4, x, y >= 0".toList)).filter compares =
        ["x + 2y <= 4".toList, "y >= 0".toList] := by
    decide +kernel
  have hread : read "maximize x + y subject to x + 2y <= 4, x, y >= 0".toList = .ok ({
      name := "parsed", sense := .max, objective := ⟨1, 1⟩
      constraints := [⟨1, 2, .le, 4, some "c1"⟩]
      nonnegX := true, nonnegY := true } : Problem Rat) := by
    decide +kernel
  obtain ⟨clauses, kept, hkept, hsub, -⟩ := read_keeps_comparisons hread
  rw [hsegments] at hkept
  exact ⟨hread, clauses, kept, hkept, hsub⟩

/-- What follows after a second marker is not looked at. -/
theorem clause_after_second_marker_lost :
    let spec := "maximize x + y subject to x <= 1 such that y <= 2, x + y <= 2".toList
    (splitMarker (collapse spec)).2 = some " x <= 1 such that y <= 2, x + y <= 2".toList ∧
    (segments " x <= 1 such that y <= 2, x + y <= 2".toList).filter compares =
      ["x <= 1 such that y <= 2".toList, "x + y <= 2".toList] ∧
    Clause.read "x + y <= 2".toList = .ok (.row 1 1 .le 2 : Clause Float) ∧
    read spec = .ok ({
      name := "parsed", sense := .max, objective := ⟨1, 1⟩
      constraints := [⟨1, 0, .le, 1, some "c1"⟩] } : Problem Float) := by
  decide +kernel

end CornerPoint.Spec
