import CornerPoint.Proofs.Spec.Comparison
import CornerPoint.Proofs.Traversal

/-!
Stretches of text between separators, with blanks around them and more text after them. A stretch
that holds a comparator is read by what stands on its two sides, up to blanks, and no number holds
an equals sign or a separator; so a second comparator makes a stretch unreadable.
-/
namespace CornerPoint.Text

variable {t : List Char}

theorem mem_dropWhile {p : Char → Bool} {c : Char} (hp : p c = false) (h : c ∈ t) :
    c ∈ t.dropWhile p := by
  rw [← List.takeWhile_append_dropWhile (p := p) (l := t), List.mem_append] at h
  rcases h with h | h
  · rw [List.mem_takeWhile_imp h] at hp
    cases hp
  · exact h

theorem mem_trim {p : Char → Bool} {c : Char} (hp : p c = false) (h : c ∈ t) : c ∈ trim p t :=
  List.mem_reverse.mpr (mem_dropWhile hp (List.mem_reverse.mpr (mem_dropWhile hp h)))

theorem exists_strip (t : List Char) :
    ∃ first last, Spec.Blank first ∧ Spec.Blank last ∧ t = first ++ (strip t ++ last) := by
  refine ⟨t.takeWhile isBlank, ((t.dropWhile isBlank).reverse.takeWhile isBlank).reverse,
    fun c hc => List.mem_takeWhile_imp hc, fun c hc => ?_, ?_⟩
  · exact List.mem_takeWhile_imp (List.mem_reverse.mp hc)
  · rw [strip, trim, ← List.reverse_append, List.takeWhile_append_dropWhile, List.reverse_reverse,
      List.takeWhile_append_dropWhile]

theorem strip_outer {first last : List Char} (hfirst : Spec.Blank first) (hlast : Spec.Blank last)
    (t : List Char) : strip (first ++ (t ++ last)) = strip t := by
  unfold strip trim
  rw [List.dropWhile_append_of_pos hfirst, List.dropWhile_append]
  split
  · rename_i hempty
    rw [List.isEmpty_iff.mp hempty, List.dropWhile_eq_nil_iff.mpr hlast]
  · rw [List.reverse_append,
      List.dropWhile_append_of_pos fun c hc => hlast c (List.mem_reverse.mp hc)]

theorem strip_front {gap : List Char} (hgap : Spec.Blank gap) (t : List Char) :
    strip (gap ++ t) = strip t := by
  have hnil : Spec.Blank [] := by simp [Spec.Blank]
  have houter := strip_outer hgap hnil t
  rwa [List.append_nil] at houter

theorem strip_back {gap : List Char} (hgap : Spec.Blank gap) (t : List Char) :
    strip (t ++ gap) = strip t := by
  have hnil : Spec.Blank [] := by simp [Spec.Blank]
  exact strip_outer hnil hgap t

end CornerPoint.Text

namespace CornerPoint.Numeral

open Text

variable {t : List Char} {c : Char}

/-- A character that no numeral holds. -/
structure Foreign (c : Char) : Prop where
  not_space : isWhiteSpace c = false
  not_digit : isDigit c = false
  not_western : c.isDigit = false
  not_mark : c ∉ ['+', '-', '.', '_']
  not_letter : c.toLower ∉ ['e', 'i', 'n', 'f', 't', 'y', 'a']

theorem foreign_of_mem (h : c ∈ ['=', ',', ';', 'd', 'D']) : Foreign c := by
  simp only [List.mem_cons, List.not_mem_nil, or_false] at h
  rcases h with rfl | rfl | rfl | rfl | rfl
  all_goals exact ⟨by decide, by decide, by decide, by decide, by decide⟩

theorem Foreign.ne {d : Char} (hc : Foreign c) (hd : d ∈ ['+', '-', '.', '_']) : c ≠ d := by
  rintro rfl
  exact hc.not_mark hd

theorem mem_body_of_mem (hc : Foreign c) (h : c ∈ t) : c ∈ (splitSign t).2 := by
  unfold splitSign
  split
  · exact List.mem_of_ne_of_mem (hc.ne (by decide)) h
  · exact List.mem_of_ne_of_mem (hc.ne (by decide)) h
  · exact h

theorem exponent?_of_mem (hc : Foreign c) (h : c ∈ t) : exponent? t = none := by
  cases t with
  | nil => simp at h
  | cons mark rest =>
    rcases List.mem_cons.mp h with rfl | hrest
    · have hmark : (c.toLower == 'e') = false := by
        rw [beq_eq_false_iff_ne]
        intro he
        exact hc.not_letter (by simp [he])
      simp [exponent?, hmark]
    · have hdigits : (splitSign rest).2.all Char.isDigit = false := by
        rw [List.all_eq_false]
        exact ⟨c, mem_body_of_mem hc hrest, by simp [hc.not_western]⟩
      simp [exponent?, hdigits]

theorem decimal?_of_mem (hc : Foreign c) (negative : Bool) (h : c ∈ t) :
    decimal? negative t = none := by
  have hafter : c ∈ (splitPart (t.dropWhile Char.isDigit)).2 := by
    have hrest := mem_dropWhile (p := Char.isDigit) hc.not_western h
    unfold splitPart
    split
    · rename_i rest he
      rw [he] at hrest
      exact mem_dropWhile hc.not_western (List.mem_of_ne_of_mem (hc.ne (by decide)) hrest)
    · exact hrest
  simp [decimal?, exponent?_of_mem hc hafter]

theorem word?_of_mem (hc : Foreign c) (negative : Bool) (h : c ∈ t) :
    word? negative t = none := by
  have hletter := hc.not_letter
  have hlower : c.toLower ∈ t.map Char.toLower := List.mem_map_of_mem h
  have hword {word : String} (he : String.ofList (t.map Char.toLower) = word) :
      c.toLower ∈ word.toList := by
    rwa [← he, String.toList_ofList]
  have hnone {word : List Char} (hmem : c.toLower ∈ word)
      (hsub : word ⊆ ['e', 'i', 'n', 'f', 't', 'y', 'a']) : False := hletter (hsub hmem)
  unfold word?
  split
  · rename_i he
    exact (hnone (hword he) (by decide)).elim
  · rename_i he
    exact (hnone (hword he) (by decide)).elim
  · rename_i he
    exact (hnone (hword he) (by decide)).elim
  · rfl

theorem mem_of_joinDigits? {u : List Char} {afterDigit : Bool} (hc : Foreign c)
    (hu : joinDigits? afterDigit t = some u) (h : c ∈ t) : c ∈ u := by
  induction t generalizing afterDigit u with
  | nil => simp at h
  | cons d rest ih =>
    unfold joinDigits? at hu
    split at hu
    · rename_i hd
      have hrest : c ∈ rest := by
        refine List.mem_of_ne_of_mem ?_ h
        rw [beq_iff_eq.mp hd]
        exact hc.ne (by decide)
      split at hu
      · exact ih hu hrest
      · cases hu
    · obtain ⟨v, hv, rfl⟩ := Option.map_eq_some_iff.mp hu
      rcases List.mem_cons.mp h with rfl | hrest
      · exact List.mem_cons_self
      · exact List.mem_cons_of_mem d (ih hv hrest)

/-- No numeral holds a foreign character. -/
theorem read?_of_mem (hc : Foreign c) (h : c ∈ t) : read? t = none := by
  have htrim : c ∈ (trim isWhiteSpace t).map westernDigit := by
    exact List.mem_map.mpr ⟨c, mem_trim hc.not_space h, westernDigit_of_not_isDigit hc.not_digit⟩
  unfold read?
  cases hjoin : joinDigits? false ((trim isWhiteSpace t).map westernDigit) with
  | none => rfl
  | some u =>
    have hbody := mem_body_of_mem hc (mem_of_joinDigits? hc hjoin htrim)
    simp [parse?, word?_of_mem hc _ hbody, decimal?_of_mem hc _ hbody]

end CornerPoint.Numeral

namespace CornerPoint.Spec

open Text

theorem Blank.not_comparing {gap : List Char} (h : Blank gap) : ∀ c ∈ gap, c ∉ ['<', '>', '='] := by
  intro c hc hmem
  have hall : ['<', '>', '='].any isBlank = false := by decide
  exact absurd (h c hc) (by simp [eq_false_of_any hall c hmem])

theorem stops_of_not_comparing {t : List Char} (h : ∀ c ∈ t, c ∉ ['<', '>', '=']) :
    Stops (· == '=') t := by
  intro c hc
  have hne := h c (List.mem_of_head? hc)
  simp only [List.mem_cons, List.not_mem_nil, or_false, not_or] at hne
  simpa using hne.2.2

theorem splitComparator?_prepend {front : List Char} (h : ∀ c ∈ front, c ∉ ['<', '>', '='])
    (t : List Char) : splitComparator? (front ++ t) =
      (splitComparator? t).map fun (l, sign, r) => (front ++ l, sign, r) := by
  induction front with
  | nil => simp
  | cons d front ih =>
    have hd := h d (by simp)
    simp only [List.mem_cons, List.not_mem_nil, or_false, not_or] at hd
    rw [List.cons_append, splitComparator?, ih fun e he => h e (by simp [he]), Option.map_map]
    · rfl
    · exact fun _ he => absurd he hd.1
    · exact fun _ he => absurd he hd.2.1
    · exact fun _ he => absurd he hd.2.2
    · exact hd.2.2

/-- No equals sign comes to stand next to the text by adding to it. -/
theorem head_of_append {t u v : List Char} (hu : Stops (· == '=') u) (h : t ++ u = '=' :: v) :
    ∃ w, t = '=' :: w := by
  cases t with
  | nil => exact absurd (hu '=' (by rw [← List.nil_append u, h]; rfl)) (by decide)
  | cons c t => exact ⟨t, by rw [(List.cons.inj h).1]⟩

theorem splitComparator?_cons {c : Char} {t u : List Char} (hu : Stops (· == '=') u)
    (hle : ∀ w, c = '<' → t = '=' :: w → False) (hge : ∀ w, c = '>' → t = '=' :: w → False)
    (heq : c = '=' → False) : splitComparator? (c :: (t ++ u)) =
      (splitComparator? (t ++ u)).map fun (l, sign, r) => (c :: l, sign, r) := by
  have hhead {v : List Char} := head_of_append (t := t) (v := v) hu
  rw [splitComparator?]
  · intro v hc hv
    obtain ⟨w, hw⟩ := hhead hv
    exact hle w hc hw
  · intro v hc hv
    obtain ⟨w, hw⟩ := hhead hv
    exact hge w hc hw
  · exact fun v hc _ => heq hc
  · exact heq

theorem splitComparator?_append_of_some {t u l r : List Char} {sign : Sign}
    (h : splitComparator? t = some (l, sign, r)) (hu : Stops (· == '=') u) :
    splitComparator? (t ++ u) = some (l, sign, r ++ u) := by
  fun_induction splitComparator? t generalizing l sign r with
  | case1 => cases h
  | case2 rest => simpa [splitComparator?] using h
  | case3 rest => simpa [splitComparator?] using h
  | case4 rest => simpa [splitComparator?] using h
  | case5 rest hne =>
    simp only [Option.some.injEq, Prod.mk.injEq] at h
    obtain ⟨rfl, rfl, rfl⟩ := h
    have hstop : Stops (· == '=') (rest ++ u) := by
      intro c hc
      by_contra hc'
      obtain rfl : c = '=' := by simpa using hc'
      obtain ⟨v, hv⟩ := List.head?_eq_some_iff.mp hc
      obtain ⟨w, hw⟩ := head_of_append hu hv
      exact hne w hw
    exact splitComparator?_append (t := []) (by simp) .equal hstop
  | case6 c rest hle hge _ heq ih =>
    obtain ⟨⟨l', sign', r'⟩, hrest, hmap⟩ := Option.map_eq_some_iff.mp h
    simp only [Prod.mk.injEq] at hmap
    obtain ⟨rfl, rfl, rfl⟩ := hmap
    rw [List.cons_append, splitComparator?_cons hu hle hge heq, ih hrest]
    rfl

theorem splitComparator?_append_of_none {t u : List Char} (h : splitComparator? t = none)
    (hu : ∀ c ∈ u, c ∉ ['<', '>', '=']) : splitComparator? (t ++ u) = none := by
  have hstop := stops_of_not_comparing hu
  fun_induction splitComparator? t with
  | case1 =>
    have hnone := splitComparator?_prepend hu []
    rwa [List.append_nil] at hnone
  | case2 rest => cases h
  | case3 rest => cases h
  | case4 rest => cases h
  | case5 rest hne => cases h
  | case6 c rest hle hge _ heq ih =>
    rw [List.cons_append, splitComparator?_cons hstop hle hge heq,
      ih (Option.map_eq_none_iff.mp h)]
    rfl

/-- Blanks around a text do not matter to its comparator. -/
theorem splitComparator?_outer {first last : List Char} (hfirst : Blank first) (hlast : Blank last)
    (t : List Char) : splitComparator? (first ++ (t ++ last)) =
      (splitComparator? t).map fun (l, sign, r) => (first ++ l, sign, r ++ last) := by
  rw [splitComparator?_prepend hfirst.not_comparing]
  cases h : splitComparator? t with
  | none =>
    rw [splitComparator?_append_of_none h hlast.not_comparing]
    rfl
  | some found =>
    obtain ⟨l, sign, r⟩ := found
    rw [splitComparator?_append_of_some h (stops_of_not_comparing hlast.not_comparing)]
    rfl

/-- Whether a text holds a comparator. -/
def compares (t : List Char) : Bool := (splitComparator? t).isSome

theorem compares_strip (t : List Char) : compares (strip t) = compares t := by
  obtain ⟨first, last, hfirst, hlast, ht⟩ := exists_strip t
  have houter := splitComparator?_outer hfirst hlast (strip t)
  rw [← ht] at houter
  rw [compares, compares, houter, Option.isSome_map]

section Stretch

variable {α : Type} [Scalar α]

/-- The stretch is read for the clause. -/
def Reads (t : List Char) (c : Clause α) : Prop := Clause.read (strip t) = .ok c

theorem reads_iff {t : List Char} {c : Clause α} :
    Reads t c ↔ ∃ l sign r form bound, splitComparator? t = some (l, sign, r) ∧
      strip l ≠ [] ∧ strip r ≠ [] ∧ LinearForm.read (strip l) = .ok form ∧
      readBound (strip r) = .ok bound ∧ c = Clause.ofForm form sign bound := by
  obtain ⟨first, last, hfirst, hlast, ht⟩ := exists_strip t
  have houter := splitComparator?_outer hfirst hlast (strip t)
  rw [← ht] at houter
  unfold Reads Clause.read
  rw [houter]
  cases splitComparator? (strip t) with
  | none => simp
  | some found =>
    obtain ⟨l, sign, r⟩ := found
    have hl : strip (first ++ l) = strip l := strip_front hfirst l
    have hr : strip (r ++ last) = strip r := strip_back hlast r
    constructor
    · intro h
      simp only at h
      split at h
      · cases h
      · rename_i hne
        simp only [Bool.or_eq_true, List.isEmpty_iff, not_or] at hne
        obtain ⟨form, hform, h⟩ := exists_of_bind_eq_ok h
        obtain ⟨bound, hbound, h⟩ := exists_of_bind_eq_ok h
        exact ⟨_, sign, _, form, bound, rfl, by rw [hl]; exact hne.1, by rw [hr]; exact hne.2,
          by rw [hl]; exact hform, by rw [hr]; exact hbound, (Except.ok.inj h).symm⟩
    · rintro ⟨_, _, _, form, bound, heq, hne, hne', hform, hbound, rfl⟩
      simp only [Option.map_some, Option.some.injEq, Prod.mk.injEq] at heq
      obtain ⟨rfl, rfl, rfl⟩ := heq
      rw [hl] at hne hform
      rw [hr] at hne' hbound
      simp only [hform, hbound]
      rw [if_neg (by simp [hne, hne'])]
      rfl

theorem not_mem_of_readBound {t : List Char} {v : α} {c : Char} (hc : Numeral.Foreign c)
    (h : readBound t = .ok v) : c ∉ t := by
  intro hmem
  have hspace : c ≠ ' ' := by
    rintro rfl
    exact absurd hc.not_space (by decide)
  have hspaces : c ∈ withoutSpaces t := List.mem_filter.mpr ⟨hmem, by simpa using hspace⟩
  rw [readBound, Numeral.read?_of_mem hc hspaces] at h
  cases h

/-- A stretch with an equals sign after its comparator cannot be read. -/
theorem not_mem_of_reads {t l r : List Char} {sign : Sign} {c : Clause α} (h : Reads t c)
    (hsplit : splitComparator? t = some (l, sign, r)) : '=' ∉ r := by
  obtain ⟨l', sign', r', form, bound, hsplit', -, -, -, hbound, -⟩ := reads_iff.mp h
  rw [hsplit] at hsplit'
  obtain ⟨-, -, rfl⟩ := by simpa using hsplit'
  intro hmem
  exact not_mem_of_readBound (Numeral.foreign_of_mem (by decide)) hbound
    (mem_trim (by decide) hmem)

/-- If the first stretch holds a comparator then so does the second, and the first is read for
whatever clause the second is read for. -/
def Keeps (α : Type) [Scalar α] (t u : List Char) : Prop :=
  compares t = true → compares u = true ∧ ∀ c : Clause α, Reads u c → Reads t c

/-- Both texts may stand before the rest of a stretch. -/
def Alike (α : Type) [Scalar α] (t u : List Char) : Prop :=
  ∀ rest, Keeps α (t ++ rest) (u ++ rest)

theorem Alike.append {t u : List Char} (h : Alike α t u) (s : List Char) :
    Alike α (t ++ s) (u ++ s) := by
  intro rest
  rw [List.append_assoc, List.append_assoc]
  exact h (s ++ rest)

theorem Alike.trans {t u v : List Char} (h : Alike α t u) (k : Alike α u v) : Alike α t v := by
  intro rest hcompares
  obtain ⟨hu, hut⟩ := h rest hcompares
  obtain ⟨hv, hvu⟩ := k rest hu
  exact ⟨hv, fun c hc => hut c (hvu c hc)⟩

theorem Alike.refl (t : List Char) : Alike α t t := fun _ h => ⟨h, fun _ hc => hc⟩

/-- Two texts with the same comparator and the same sides, up to blanks around them. -/
theorem keeps_of_split {t u l r l' r' : List Char} {sign : Sign}
    (ht : splitComparator? t = some (l, sign, r)) (hu : splitComparator? u = some (l', sign, r'))
    (hl : strip l = strip l') (hr : strip r = strip r') : Keeps α t u := by
  intro _
  refine ⟨by rw [compares, hu]; rfl, fun c hc => ?_⟩
  obtain ⟨_, _, _, form, bound, heq, hne, hne', hform, hbound, rfl⟩ := reads_iff.mp hc
  rw [hu] at heq
  simp only [Option.some.injEq, Prod.mk.injEq] at heq
  obtain ⟨rfl, rfl, rfl⟩ := heq
  rw [← hl] at hne hform
  rw [← hr] at hne' hbound
  exact reads_iff.mpr ⟨l, sign, r, form, bound, ht, hne, hne', hform, hbound, rfl⟩

theorem alike_blank {gap more : List Char} (hgap : Blank gap) (hmore : Blank more) :
    Alike α gap more := by
  intro rest hcompares
  have hfront {front : List Char} (h : Blank front) :=
    splitComparator?_prepend h.not_comparing rest
  cases hrest : splitComparator? rest with
  | none =>
    rw [compares, hfront hgap, hrest] at hcompares
    cases hcompares
  | some found =>
    obtain ⟨l, sign, r⟩ := found
    refine keeps_of_split (by rw [hfront hgap, hrest]; rfl) (by rw [hfront hmore, hrest]; rfl)
      ?_ rfl hcompares
    rw [strip_front hgap, strip_front hmore]

end Stretch

end CornerPoint.Spec
