import CornerPoint.Spec.Lexeme
import Mathlib.Data.List.Basic

/-!
Texts as words with gaps between them. Collapsing and stripping change the gaps of a text and keep
its words, and every cut of the words is a cut of the text.
-/
namespace CornerPoint.Spec

open Text

/-- A word holds no blanks. One that stands apart has a gap before it. -/
structure Word where
  text : List Char
  apart : Bool := false
  ne_nil : text ≠ []
  solid : ∀ c ∈ text, isBlank c = false

/-- A gap as it may stand in a text that is to be read. -/
def Blank (gap : List Char) : Prop := ∀ c ∈ gap, isBlank c = true

instance (gap : List Char) : Decidable (Blank gap) :=
  decidable_of_iff (gap.all isBlank = true) List.all_eq_true

/-- A gap in a collapsed text. -/
def Single (gap : List Char) : Prop := gap = [] ∨ gap = [' ']

def Spaces (gap : List Char) : Prop := ∀ c ∈ gap, c = ' '

theorem single_nil : Single [] := .inl rfl

theorem spaces_nil : Spaces [] := by simp [Spaces]

theorem Spaces.append {gap more : List Char} (h : Spaces gap) (k : Spaces more) :
    Spaces (gap ++ more) := by
  intro c hc
  rcases List.mem_append.mp hc with hc | hc
  · exact h c hc
  · exact k c hc

theorem Single.spaces {gap : List Char} (h : Single gap) : Spaces gap := by
  rcases h with rfl | rfl
  · simp [Spaces]
  · simp [Spaces]

theorem Spaces.blank {gap : List Char} (h : Spaces gap) : Blank gap := by
  intro c hc
  rw [h c hc]
  decide

/-- The text does not begin with a character of the class. -/
def Stops (p : Char → Bool) (t : List Char) : Prop := ∀ c, t.head? = some c → p c = false

theorem stops_nil (p : Char → Bool) : Stops p [] := by simp [Stops]

theorem stops_cons {p : Char → Bool} {c : Char} (h : p c = false) (t : List Char) :
    Stops p (c :: t) := by
  simpa [Stops] using h

theorem Stops.append {p : Char → Bool} {gap t : List Char} (hgap : ∀ c ∈ gap, p c = false)
    (ht : Stops p t) : Stops p (gap ++ t) := by
  cases gap with
  | nil => exact ht
  | cons c gap => exact stops_cons (hgap c (by simp)) (gap ++ t)

theorem Stops.append_of_ne_nil {p : Char → Bool} {s : List Char} (h : Stops p s) (hne : s ≠ [])
    (t : List Char) : Stops p (s ++ t) := by
  intro c hc
  rw [List.head?_append_of_ne_nil _ hne] at hc
  exact h c hc

/-- The text consists of the words, each after a gap of the given kind. -/
inductive Laid (Gap : List Char → Prop) : List Word → List Char → Prop
  | nil : Laid Gap [] []
  | cons {gap : List Char} {w : Word} {ws : List Word} {t : List Char} (hgap : Gap gap)
      (hapart : w.apart = true → gap ≠ []) (rest : Laid Gap ws t) :
      Laid Gap (w :: ws) (gap ++ (w.text ++ t))

namespace Laid

variable {Gap Wide : List Char → Prop} {w : Word} {ws vs : List Word} {t s : List Char}

theorem mono (hsub : ∀ gap, Gap gap → Wide gap) (h : Laid Gap ws t) : Laid Wide ws t := by
  induction h with
  | nil => exact .nil
  | cons hgap hapart _ ih => exact .cons (hsub _ hgap) hapart ih

theorem append (h : Laid Gap ws t) (k : Laid Gap vs s) : Laid Gap (ws ++ vs) (t ++ s) := by
  induction h with
  | nil => exact k
  | cons hgap hapart _ ih =>
    simp only [List.append_assoc, List.cons_append]
    exact .cons hgap hapart ih

theorem of_append (h : Laid Gap (ws ++ vs) t) :
    ∃ front back, t = front ++ back ∧ Laid Gap ws front ∧ Laid Gap vs back := by
  induction ws generalizing t with
  | nil => exact ⟨[], t, rfl, .nil, h⟩
  | cons w ws ih =>
    cases h with
    | @cons gap _ _ rest hgap hapart hrest =>
      obtain ⟨front, back, rfl, hfront, hback⟩ := ih hrest
      exact ⟨gap ++ (w.text ++ front), back, by simp, .cons hgap hapart hfront, hback⟩

theorem of_cons (h : Laid Gap (w :: ws) t) :
    ∃ gap rest, t = gap ++ (w.text ++ rest) ∧ Gap gap ∧ (w.apart = true → gap ≠ []) ∧
      Laid Gap ws rest := by
  cases h with
  | cons hgap hapart hrest => exact ⟨_, _, rfl, hgap, hapart, hrest⟩

theorem of_singleton (h : Laid Gap [w] t) :
    ∃ gap, t = gap ++ w.text ∧ Gap gap ∧ (w.apart = true → gap ≠ []) := by
  obtain ⟨gap, rest, rfl, hgap, hapart, hrest⟩ := h.of_cons
  cases hrest
  exact ⟨gap, by simp, hgap, hapart⟩

theorem of_nil (h : Laid Gap [] t) : t = [] := by
  cases h
  rfl

/-- What holds of the characters of all gaps and words holds of those of the text. -/
theorem forall_mem {P : Char → Prop} (h : Laid Gap ws t)
    (hgap : ∀ gap, Gap gap → ∀ c ∈ gap, P c) (hword : ∀ w ∈ ws, ∀ c ∈ w.text, P c) :
    ∀ c ∈ t, P c := by
  induction h with
  | nil => simp
  | cons hg _ _ ih =>
    intro c hc
    rw [List.mem_append, List.mem_append] at hc
    rcases hc with hc | hc | hc
    · exact hgap _ hg c hc
    · exact hword _ (by simp) c hc
    · exact ih (fun v hv => hword v (by simp [hv])) c hc

/-- A text ends as its last word does. -/
theorem stops_reverse (h : Laid Gap ws t) : Stops isBlank t.reverse := by
  induction h with
  | nil => exact stops_nil isBlank
  | @cons gap w ws t _ _ hrest ih =>
    intro c hc
    rw [List.head?_reverse, List.getLast?_append_of_ne_nil gap (by simp [w.ne_nil])] at hc
    by_cases ht : t = []
    · rw [ht, List.append_nil] at hc
      exact w.solid c (List.mem_of_getLast? hc)
    · rw [List.getLast?_append_of_ne_nil _ ht, ← List.head?_reverse] at hc
      exact ih c hc

end Laid

theorem dropWhile_append_of_stops {p : Char → Bool} {s t : List Char} (hs : ∀ c ∈ s, p c = true)
    (ht : Stops p t) : (s ++ t).dropWhile p = t := by
  rw [List.dropWhile_append_of_pos hs]
  cases t with
  | nil => rfl
  | cons c t => exact List.dropWhile_cons_of_neg (by simp [ht c rfl])

theorem strip_gaps {gap t last : List Char} (hgap : Blank gap) (hlast : Blank last)
    (hhead : Stops isBlank (t ++ last)) (hend : Stops isBlank t.reverse) :
    strip (gap ++ (t ++ last)) = t := by
  have hback : ((t ++ last).reverse).dropWhile isBlank = t.reverse := by
    rw [List.reverse_append]
    exact dropWhile_append_of_stops (fun c hc => hlast c (List.mem_reverse.mp hc)) hend
  rw [strip, trim, dropWhile_append_of_stops hgap hhead, hback, List.reverse_reverse]

theorem Word.stops (w : Word) (t : List Char) : Stops isBlank (w.text ++ t) :=
  Stops.append_of_ne_nil (fun c hc => w.solid c (List.mem_of_head? hc)) w.ne_nil t

/-- The text with the given gaps before its words. -/
def laidOut : List (List Char × Word) → List Char
  | [] => []
  | (gap, w) :: rest => gap ++ (w.text ++ laidOut rest)

theorem laid_laidOut {Gap : List Char → Prop} {l : List (List Char × Word)}
    (h : ∀ p ∈ l, Gap p.1 ∧ (p.2.apart = true → p.1 ≠ [])) :
    Laid Gap (l.map Prod.snd) (laidOut l) := by
  induction l with
  | nil => exact .nil
  | cons p l ih =>
    obtain ⟨hgap, hapart⟩ := h p (by simp)
    exact .cons hgap hapart (ih fun q hq => h q (by simp [hq]))

/-- The words may begin without a gap. -/
def Starts (ws : List Word) : Prop := ∃ w rest, ws = w :: rest ∧ w.apart = false

theorem Starts.append {ws : List Word} (h : Starts ws) (vs : List Word) : Starts (ws ++ vs) := by
  obtain ⟨w, rest, rfl, hw⟩ := h
  exact ⟨w, rest ++ vs, rfl, hw⟩

/-- The gap before the first word may grow. -/
theorem Laid.prepend {ws : List Word} {gap t : List Char} (h : Laid Spaces ws t)
    (hws : Starts ws) (hgap : Spaces gap) : Laid Spaces ws (gap ++ t) := by
  obtain ⟨w, rest, rfl, hw⟩ := hws
  obtain ⟨more, t, rfl, hmore, -, ht⟩ := h.of_cons
  rw [← List.append_assoc]
  exact .cons (hgap.append hmore) (by simp [hw]) ht

/-- Stripping takes the outer gaps and nothing else. -/
theorem Laid.strip_eq {Gap : List Char → Prop} {w : Word} {ws : List Word}
    {gap rest last : List Char} (h : Laid Gap (w :: ws) (gap ++ (w.text ++ rest)))
    (hgap : Blank gap) (hlast : Blank last) :
    Text.strip (gap ++ (w.text ++ rest) ++ last) = w.text ++ rest := by
  have hend := h.stops_reverse
  rw [List.append_assoc]
  refine strip_gaps hgap hlast ?_ fun c hc => hend c ?_
  · rw [List.append_assoc]
    exact w.stops (rest ++ last)
  · rw [List.reverse_append, List.head?_append_of_ne_nil _ (by simp [w.ne_nil])]
    exact hc

theorem Laid.strip {Gap : List Char → Prop} {ws : List Word} {t last : List Char}
    (h : Laid Gap ws t) (hws : Starts ws) (hnil : Gap []) (hsub : ∀ gap, Gap gap → Blank gap)
    (hlast : Blank last) : Laid Gap ws (Text.strip (t ++ last)) := by
  obtain ⟨w, vs, rfl, hw⟩ := hws
  obtain ⟨gap, rest, rfl, hgap, -, hrest⟩ := h.of_cons
  rw [h.strip_eq (hsub gap hgap) hlast, ← List.nil_append (w.text ++ rest)]
  exact .cons hnil (by simp [hw]) hrest

theorem Laid.ne_nil {Gap : List Char → Prop} {ws : List Word} {t : List Char} (h : Laid Gap ws t)
    (hws : Starts ws) : t ≠ [] := by
  obtain ⟨w, rest, rfl, -⟩ := hws
  obtain ⟨gap, t, rfl, -, -, -⟩ := h.of_cons
  simp [w.ne_nil]

theorem collapseFrom_blank {gap : List Char} (hgap : Blank gap) (owed : Bool) (t : List Char) :
    collapseFrom true owed (gap ++ t) = collapseFrom true (owed || !gap.isEmpty) t := by
  induction gap generalizing owed with
  | nil => simp
  | cons c gap ih =>
    have hc : isBlank c = true := hgap c (by simp)
    have hrest : Blank gap := fun d hd => hgap d (by simp [hd])
    simp [collapseFrom, hc, ih hrest]

theorem collapseFrom_solid {s : List Char} (hs : ∀ c ∈ s, isBlank c = false) (t : List Char) :
    collapseFrom true false (s ++ t) = s ++ collapseFrom true false t := by
  induction s with
  | nil => rfl
  | cons c s ih =>
    have hrest : ∀ d ∈ s, isBlank d = false := fun d hd => hs d (by simp [hd])
    simp [collapseFrom, hs c (by simp), ih hrest]

theorem collapseFrom_word (w : Word) (started owed : Bool) (t : List Char) :
    collapseFrom started owed (w.text ++ t) =
      (if owed then [' '] else []) ++ (w.text ++ collapseFrom true false t) := by
  obtain ⟨c, s, hw⟩ := List.exists_cons_of_ne_nil w.ne_nil
  have hc : isBlank c = false := w.solid c (by simp [hw])
  have hs : ∀ d ∈ s, isBlank d = false := fun d hd => w.solid d (by simp [hw, hd])
  rw [hw, List.cons_append, List.cons_append, collapseFrom, hc, collapseFrom_solid hs]
  cases owed
  · rfl
  · rfl

theorem collapseFrom_nil_of_blank {gap : List Char} (hgap : Blank gap) (started owed : Bool) :
    collapseFrom started owed gap = [] := by
  induction gap generalizing owed with
  | nil => rfl
  | cons c gap ih =>
    rw [collapseFrom, hgap c (by simp)]
    exact ih (fun d hd => hgap d (by simp [hd])) started

/-- Each gap becomes a single space, or stays empty if it was. -/
theorem Laid.collapseFrom {ws : List Word} {t last : List Char} (hlast : Blank last)
    (h : Laid Blank ws t) : Laid Single ws (collapseFrom true false (t ++ last)) := by
  induction h with
  | nil =>
    rw [List.nil_append, collapseFrom_nil_of_blank hlast]
    exact .nil
  | @cons gap w ws t hgap hapart _ ih =>
    rw [List.append_assoc, List.append_assoc, collapseFrom_blank hgap, collapseFrom_word]
    refine .cons ?_ ?_ ih
    · by_cases hnil : gap = []
      · simp [hnil, Single]
      · simp [hnil, Single]
    · intro hw
      simp [hapart hw]

theorem collapse_word {w : Word} {gap : List Char} (hgap : Blank gap) (t : List Char) :
    collapse (gap ++ (w.text ++ t)) = w.text ++ Text.collapseFrom true false t := by
  induction gap with
  | nil => exact collapseFrom_word w false false t
  | cons c gap ih =>
    have hc : isBlank c = true := hgap c (by simp)
    rw [← ih fun d hd => hgap d (by simp [hd])]
    simp [collapse, Text.collapseFrom, hc]

end CornerPoint.Spec
