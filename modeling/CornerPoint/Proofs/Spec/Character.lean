import CornerPoint.Numeral.Reader
import CornerPoint.Spec.Lexeme
import Mathlib.Data.List.Basic

/-!
The characters of a specification. A decimal digit, of whatever script, is nothing else, and a word
in whatever case is found by its folded letters.
-/
namespace CornerPoint.Text

theorem digitValue?_of_isDigit {c : Char} (h : isDigit c) :
    ∃ first ∈ zeros, first ≤ c.toNat ∧ c.toNat ≤ first + 9 ∧
      digitValue? c = some (c.toNat - first) := by
  obtain ⟨value, hv⟩ := Option.isSome_iff_exists.mp h
  obtain ⟨first, hfind, rfl⟩ := Option.map_eq_some_iff.mp hv
  have hrange := List.find?_some hfind
  simp only [Bool.and_eq_true, decide_eq_true_eq] at hrange
  exact ⟨first, List.mem_of_find?_eq_some hfind, hrange.1, hrange.2, hv⟩

theorem zeros_range : ∀ first ∈ zeros, first = 0x30 ∨ 0x660 ≤ first ∧ first + 9 < 0x1680 ∨
    0x1680 < first ∧ first + 9 < 0x2000 ∨ 0x3000 < first := by
  decide

/-- Digits lie apart from white space, from the unaccented letters and from all marks that a
specification holds. -/
theorem range_of_isDigit {c : Char} (h : isDigit c) :
    (0x30 ≤ c.toNat ∧ c.toNat ≤ 0x39) ∨ (0x660 ≤ c.toNat ∧ isBlank c = false) := by
  obtain ⟨first, hmem, hle, hge, -⟩ := digitValue?_of_isDigit h
  have hrange := zeros_range first hmem
  rcases hrange with rfl | hrange
  · left
    omega
  · right
    refine ⟨by omega, ?_⟩
    simp [isBlank, isWhiteSpace]
    omega

theorem isBlank_of_isDigit {c : Char} (h : isDigit c) : isBlank c = false := by
  rcases range_of_isDigit h with hrange | ⟨-, hblank⟩
  · simp [isBlank, isWhiteSpace]
    omega
  · exact hblank

/-- No mark or letter that stands for something of its own in a specification is a digit. -/
theorem ne_of_isDigit {c d : Char} (h : isDigit c) (hd : isDigit d = false) : c ≠ d := by
  rintro rfl
  rw [h] at hd
  contradiction

theorem isNameStart_eq_false {c : Char}
    (hletter : ¬(65 ≤ c.toNat ∧ c.toNat ≤ 90) ∧ ¬(97 ≤ c.toNat ∧ c.toNat ≤ 122))
    (hne : c ≠ '_') : isNameStart c = false := by
  unfold isNameStart Char.isAlpha Char.isUpper Char.isLower
  simp only [UInt32.le_iff_toNat_le, Bool.or_eq_false_iff, Bool.and_eq_false_iff,
    decide_eq_false_iff_not, ge_iff_le, beq_eq_false_iff_ne, hne, ne_eq, not_false_eq_true,
    and_true]
  change ¬(65 ≤ c.toNat ∧ c.toNat ≤ 90) ∧ (¬97 ≤ c.toNat ∨ ¬c.toNat ≤ 122)
  omega

theorem isNameStart_of_isDigit {c : Char} (h : isDigit c) : isNameStart c = false := by
  have hrange := range_of_isDigit h
  exact isNameStart_eq_false (by omega) (ne_of_isDigit h (by decide))

theorem isNameStart_of_isBlank {c : Char} (h : isBlank c = true) : isNameStart c = false := by
  have hne : c ≠ '_' := by
    rintro rfl
    exact absurd h (by decide)
  simp only [isBlank, isWhiteSpace, Bool.or_eq_true, Bool.and_eq_true, decide_eq_true_eq,
    beq_iff_eq] at h
  exact isNameStart_eq_false (by omega) hne

theorem toLower_eq_self {c : Char} (h : ¬(65 ≤ c.toNat ∧ c.toNat ≤ 90)) : c.toLower = c := by
  have hupper : ¬(c.val ≥ 'A'.val ∧ c.val ≤ 'Z'.val) := by
    simp only [UInt32.le_iff_toNat_le, ge_iff_le]
    exact h
  exact dif_neg hupper

theorem fold_of_isDigit {c : Char} (h : isDigit c) : fold c = c := by
  have hrange := range_of_isDigit h
  have hlong : c ≠ '\u017f' := ne_of_isDigit h (by decide)
  have hdotless : c ≠ '\u0131' := ne_of_isDigit h (by decide)
  have hdotted : c ≠ '\u0130' := ne_of_isDigit h (by decide)
  simp [fold, hlong, hdotless, hdotted, toLower_eq_self (c := c) (by omega)]

/-- Within the range that a number falls into, the numbers above it are found as well. -/
theorem inRanges_of_find? {ranges : List (Nat × Nat)} {range : Nat × Nat} {n m : Nat}
    (h : ranges.find? (fun r => Nat.ble n r.2) = some range) (hfirst : range.1 ≤ n) (hn : n ≤ m)
    (hlast : m ≤ range.2) : inRanges m ranges = true := by
  induction ranges with
  | nil => cases h
  | cons r ranges ih =>
    rw [inRanges]
    rw [List.find?_cons] at h
    split at h
    · obtain rfl := Option.some.inj h
      rw [if_pos hlast]
      exact decide_eq_true (Nat.le_trans hfirst hn)
    · rename_i hbelow
      have habove : ¬m ≤ r.2 := by
        intro hle
        rw [Nat.ble_eq_true_of_le (Nat.le_trans hn hle)] at hbelow
        cases hbelow
      rw [if_neg habove]
      exact ih h

-- The ten digits of a script lie in one range, so it is enough to look for the first.
theorem isWord_of_isDigit {c : Char} (h : isDigit c = true) : isWord c = true := by
  have hall : ∀ first ∈ zeros, (alphanumericRanges.find? fun r => Nat.ble first r.2).any
      (fun r => Nat.ble r.1 first && Nat.ble (first + 9) r.2) = true := by
    decide +kernel
  obtain ⟨first, hmem, hle, hge, -⟩ := digitValue?_of_isDigit h
  obtain ⟨range, hfind, hrange⟩ := (Option.any_eq_true _ _).mp (hall first hmem)
  rw [Bool.and_eq_true, Nat.ble_eq, Nat.ble_eq] at hrange
  rw [isWord, inRanges_of_find? hfind hrange.1 hle (Nat.le_trans hge hrange.2),
    Bool.or_true]

theorem isWord_of_fold {c : Char} (h : fold c ∈ ['a', 'n', 'd']) : isWord c = true := by
  by_cases hupper : 65 ≤ c.toNat ∧ c.toNat ≤ 90
  · have hfind : alphanumericRanges.find? (fun r => Nat.ble 65 r.2) = some (65, 90) := by
      decide +kernel
    rw [isWord, inRanges_of_find? hfind (Nat.le_refl 65) hupper.1 hupper.2, Bool.or_true]
  · unfold fold at h
    rw [toLower_eq_self hupper] at h
    split at h
    · exact absurd h (by decide)
    · split at h
      · exact absurd h (by decide)
      · simp only [List.mem_cons, List.not_mem_nil, or_false] at h
        rcases h with rfl | rfl | rfl
        · decide
        · decide
        · decide

theorem mem_of_fold_eq {c : Char} (h : fold c = 'd') : c ∈ ['d', 'D'] := by
  by_cases hupper : 65 ≤ c.toNat ∧ c.toNat ≤ 90
  · -- the capitals are few enough to look at each of them
    have hcapital : ∀ n < 91, 65 ≤ n → fold (Char.ofNat n) = 'd' → Char.ofNat n ∈ ['d', 'D'] := by
      decide
    have hc := hcapital c.toNat (by omega) hupper.1
    rw [Char.ofNat_toNat] at hc
    exact hc h
  · unfold fold at h
    rw [toLower_eq_self hupper] at h
    split at h
    · exact absurd h (by decide)
    · split at h
      · exact absurd h (by decide)
      · simp [h]

theorem afterFolded?_append {word text : List Char} (h : text.map fold = word)
    (rest : List Char) : afterFolded? word (text ++ rest) = some rest := by
  subst h
  induction text with
  | nil => rfl
  | cons c text ih => simpa [afterFolded?] using ih

theorem prefix_of_afterFolded? {word text rest : List Char}
    (h : afterFolded? word text = some rest) : word <+: text.map fold := by
  fun_induction afterFolded? word text with
  | case1 text => exact List.nil_prefix
  | case2 => simp at h
  | case3 w word c text hc ih =>
    rw [List.map_cons, beq_iff_eq.mp hc]
    exact List.cons_prefix_cons.mpr ⟨rfl, ih h⟩
  | case4 => simp at h

theorem afterFolded?_eq_none {word text : List Char} (h : ¬word <+: text.map fold) :
    afterFolded? word text = none := by
  cases ha : afterFolded? word text with
  | none => rfl
  | some rest => exact absurd (prefix_of_afterFolded? ha) h

/-- A text in which the letters of a word stand in whatever case. -/
def Spells (word text : List Char) : Prop := text.map Char.toLower = word

instance (word text : List Char) : Decidable (Spells word text) :=
  inferInstanceAs (Decidable (text.map Char.toLower = word))

theorem eq_false_of_any {p : Char → Bool} {l : List Char} (h : l.any p = false) :
    ∀ c ∈ l, p c = false := by
  simpa using h

/-- The three letters that are folded but have no lower case of their own do not spell words. -/
theorem Spells.fold {word text : List Char} (h : Spells word text)
    (hword : word.any (['\u017f', '\u0131', '\u0130'].contains ·) = false) :
    text.map Text.fold = word := by
  subst h
  apply List.map_congr_left
  intro c hc
  have hlow : c.toLower ∉ ['\u017f', '\u0131', '\u0130'] := by
    simpa using eq_false_of_any hword c.toLower (List.mem_map_of_mem hc)
  have hc' : c ∉ ['\u017f', '\u0131', '\u0130'] := by
    intro hmem
    simp only [List.mem_cons, List.not_mem_nil, or_false] at hmem
    rcases hmem with rfl | rfl | rfl
    · exact hlow (by decide)
    · exact hlow (by decide)
    · exact hlow (by decide)
  simp only [List.mem_cons, List.not_mem_nil, or_false, not_or] at hc'
  simp [Text.fold, hc']

end CornerPoint.Text
