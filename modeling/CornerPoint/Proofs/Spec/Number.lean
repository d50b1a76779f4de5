import CornerPoint.Proofs.Spec.Grammar
import Mathlib.Data.List.TakeWhile

/-!
Numbers are read for what they are: digits of any script count as the Western ones of the same
value, and the point only moves the exponent.
-/
namespace CornerPoint.Text

theorem trim_eq_self {p : Char → Bool} {t : List Char} (h : ∀ c ∈ t, p c = false) :
    trim p t = t := by
  have hfront : t.dropWhile p = t := by
    cases t with
    | nil => rfl
    | cons c t => exact List.dropWhile_cons_of_neg (by simp [h c (by simp)])
  have hback : t.reverse.dropWhile p = t.reverse := by
    cases hr : t.reverse with
    | nil => rfl
    | cons c r =>
      have hc : c ∈ t := List.mem_reverse.mp (by simp [hr])
      exact List.dropWhile_cons_of_neg (by simp [h c hc])
  rw [trim, hfront, hback, List.reverse_reverse]

theorem isWhiteSpace_of_isBlank {c : Char} (h : isBlank c = false) : isWhiteSpace c = false := by
  unfold isBlank at h
  exact (Bool.or_eq_false_iff.mp h).1

theorem westernDigit_of_isDigit {c : Char} (h : isDigit c = true) :
    ∃ value < 10, digitValue? c = some value ∧ westernDigit c = Nat.digitChar value := by
  obtain ⟨first, -, hle, hge, hv⟩ := digitValue?_of_isDigit h
  refine ⟨c.toNat - first, by omega, hv, ?_⟩
  simp [westernDigit, hv]

theorem westernDigit_of_not_isDigit {c : Char} (h : isDigit c = false) : westernDigit c = c := by
  have hv : digitValue? c = none := by simpa [isDigit] using h
  simp [westernDigit, hv]

theorem isDigit_digitChar : ∀ value < 10, (Nat.digitChar value).isDigit = true := by decide

theorem toNat_digitChar : ∀ value < 10, (Nat.digitChar value).toNat - '0'.toNat = value := by
  decide

theorem isDigit_westernDigit {c : Char} (h : isDigit c = true) :
    (westernDigit c).isDigit = true := by
  obtain ⟨value, hlt, -, hw⟩ := westernDigit_of_isDigit h
  rw [hw]
  exact isDigit_digitChar value hlt

end CornerPoint.Text

namespace CornerPoint.Numeral

open Text

theorem joinDigits?_eq_some {t : List Char} (h : ∀ c ∈ t, c ≠ '_') (afterDigit : Bool) :
    joinDigits? afterDigit t = some t := by
  induction t generalizing afterDigit with
  | nil => rfl
  | cons c t ih =>
    have hc : c ≠ '_' := h c (by simp)
    have hrest : ∀ d ∈ t, d ≠ '_' := fun d hd => h d (by simp [hd])
    simp [joinDigits?, hc, ih hrest]

theorem digitsValue_westernDigit {t : List Char} (h : ∀ c ∈ t, isDigit c = true) (start : Nat) :
    (t.map westernDigit).foldl (fun n c => 10 * n + (c.toNat - '0'.toNat)) start =
      t.foldl (fun n c => 10 * n + (digitValue? c).getD 0) start := by
  induction t generalizing start with
  | nil => rfl
  | cons c t ih =>
    obtain ⟨value, hlt, hv, hw⟩ := westernDigit_of_isDigit (h c (by simp))
    have hrest : ∀ d ∈ t, isDigit d = true := fun d hd => h d (by simp [hd])
    rw [List.map_cons, List.foldl_cons, List.foldl_cons, hw, hv, toNat_digitChar value hlt,
      ih hrest]
    rfl

theorem toLower_of_isDigit {d : Char} (h : d.isDigit = true) : d.toLower = d := by
  simp only [Char.isDigit, UInt32.le_iff_toNat_le, Bool.and_eq_true, decide_eq_true_eq,
    ge_iff_le] at h
  change 48 ≤ d.toNat ∧ d.toNat ≤ 57 at h
  exact toLower_eq_self (by omega)

theorem word?_of_head {d : Char} (hi : d.toLower ≠ 'i') (hn : d.toLower ≠ 'n') (negative : Bool)
    (t : List Char) : word? negative (d :: t) = none := by
  have hhead : ∀ word : List Char, (word.head?.all fun c => c == 'i' || c == 'n') = true →
      String.ofList ((d :: t).map Char.toLower) ≠ String.ofList word := by
    intro word hword he
    have hlist := String.ofList_injective he
    rw [← hlist, List.map_cons] at hword
    simp [hi, hn] at hword
  unfold word?
  split
  · rename_i he
    exact absurd he (hhead "inf".toList (by decide))
  · rename_i he
    exact absurd he (hhead "infinity".toList (by decide))
  · rename_i he
    exact absurd he (hhead "nan".toList (by decide))
  · rfl

theorem word?_of_isDigit {d : Char} (h : d.isDigit = true) (negative : Bool) (t : List Char) :
    word? negative (d :: t) = none := by
  have hne {c : Char} (hc : c.isDigit = false) : d.toLower ≠ c := by
    rw [toLower_of_isDigit h]
    rintro rfl
    rw [h] at hc
    contradiction
  exact word?_of_head (hne (by decide)) (hne (by decide)) negative t

theorem splitSign_of_isDigit {d : Char} (h : d.isDigit = true) (t : List Char) :
    splitSign (d :: t) = (false, d :: t) := by
  unfold splitSign
  split
  · rename_i he
    obtain ⟨rfl, -⟩ := List.cons.inj he
    exact absurd h (by decide)
  · rename_i he
    obtain ⟨rfl, -⟩ := List.cons.inj he
    exact absurd h (by decide)
  · rfl

theorem decimal?_whole {whole : List Char} (hne : whole ≠ [])
    (h : ∀ c ∈ whole, c.isDigit = true) (negative : Bool) :
    decimal? negative whole = some (.decimal negative (digitsValue whole) 0) := by
  have htake : whole.takeWhile Char.isDigit = whole := List.takeWhile_eq_self_iff.mpr h
  have hdrop : whole.dropWhile Char.isDigit = [] := List.dropWhile_eq_nil_iff.mpr h
  simp [decimal?, htake, hdrop, hne, splitPart, exponent?]

theorem decimal?_part {whole part : List Char} (hne : whole ++ part ≠ [])
    (h : ∀ c ∈ whole, c.isDigit = true) (hpart : ∀ c ∈ part, c.isDigit = true)
    (negative : Bool) :
    decimal? negative (whole ++ '.' :: part) =
      some (.decimal negative (digitsValue (whole ++ part)) (-(part.length : Int))) := by
  have hpoint : Char.isDigit '.' = false := by decide
  have htake : (whole ++ '.' :: part).takeWhile Char.isDigit = whole := by
    simp [List.takeWhile_append_of_pos h, hpoint]
  have hdrop : (whole ++ '.' :: part).dropWhile Char.isDigit = '.' :: part := by
    simp [List.dropWhile_append_of_pos h, hpoint]
  have htake' : part.takeWhile Char.isDigit = part := List.takeWhile_eq_self_iff.mpr hpart
  have hdrop' : part.dropWhile Char.isDigit = [] := List.dropWhile_eq_nil_iff.mpr hpart
  have hempty : (whole.isEmpty && part.isEmpty) = false := by
    rw [Bool.and_eq_false_imp, List.isEmpty_iff, List.isEmpty_eq_false_iff]
    rintro rfl
    exact hne
  simp [decimal?, htake, hdrop, hempty, splitPart, exponent?, htake', hdrop']

end CornerPoint.Numeral

namespace CornerPoint.Spec

open Text

/-- The text of a sign that may be left out. -/
def signText (sign : Option Polarity) : List Char := (sign.map Polarity.char).toList

theorem mem_signText {sign : Option Polarity} {c : Char} (h : c ∈ signText sign) :
    c = '+' ∨ c = '-' := by
  rcases sign with - | (- | -)
  · simp [signText] at h
  · exact .inl (by simpa [signText, Polarity.char] using h)
  · exact .inr (by simpa [signText, Polarity.char] using h)

namespace Number

theorem western_whole (n : Number) : ∀ c ∈ n.whole.map westernDigit, c.isDigit = true := by
  intro c hc
  obtain ⟨d, hd, rfl⟩ := List.mem_map.mp hc
  exact isDigit_westernDigit (n.isDigit_of_mem d (by simp [hd]))

theorem western_part (n : Number) : ∀ c ∈ n.part.map westernDigit, c.isDigit = true := by
  intro c hc
  obtain ⟨d, hd, rfl⟩ := List.mem_map.mp hc
  exact isDigit_westernDigit (n.isDigit_of_mem d (by simp [hd]))

theorem digitsValue_western (n : Number) :
    Numeral.digitsValue (n.whole.map westernDigit ++ n.part.map westernDigit) = n.significand := by
  rw [← List.map_append]
  exact Numeral.digitsValue_westernDigit n.isDigit_of_mem 0

theorem decimal?_text (n : Number) (negative : Bool) :
    Numeral.decimal? negative (n.text.map westernDigit) = some (n.numeral negative) := by
  have hne : n.whole.map westernDigit ≠ [] := by simp [n.whole_ne_nil]
  have hpoint : westernDigit '.' = '.' := westernDigit_of_not_isDigit (by decide)
  have hvalue := n.digitsValue_western
  by_cases hpart : n.part = []
  · rw [hpart, List.map_nil, List.append_nil] at hvalue
    rw [text, hpart, List.isEmpty_nil, if_pos rfl, Numeral.decimal?_whole hne n.western_whole,
      hvalue, numeral, hpart]
    rfl
  · have hempty : n.part.isEmpty = false := by simp [hpart]
    rw [text, hempty, if_neg (by decide), List.map_append, List.map_cons, hpoint,
      Numeral.decimal?_part (by simp [hne]) n.western_whole n.western_part, hvalue,
      List.length_map, numeral]

/-- The text of a number begins with one of its digits. -/
theorem exists_text_eq (n : Number) :
    ∃ d rest, n.text = d :: rest ∧ isDigit d = true := by
  obtain ⟨d, whole, hw⟩ := List.exists_cons_of_ne_nil n.whole_ne_nil
  have hd : isDigit d = true := n.isDigit_of_mem d (by simp [hw])
  unfold text
  rw [hw]
  split
  · exact ⟨d, whole, rfl, hd⟩
  · exact ⟨d, whole ++ '.' :: n.part, rfl, hd⟩

theorem parse?_text (n : Number) (sign : Option Polarity) :
    Numeral.parse? (signText sign ++ n.text.map westernDigit) =
      some (n.numeral (sign.getD .plus).isMinus) := by
  obtain ⟨d, rest, htext, hd⟩ := n.exists_text_eq
  have hdecimal := n.decimal?_text
  rw [htext, List.map_cons] at hdecimal ⊢
  have hd' := isDigit_westernDigit hd
  have hbody : ∀ negative, (Numeral.word? negative (westernDigit d :: rest.map westernDigit)).or
      (Numeral.decimal? negative (westernDigit d :: rest.map westernDigit)) =
        some (n.numeral negative) := by
    intro negative
    rw [Numeral.word?_of_isDigit hd', hdecimal, Option.none_or]
  rcases sign with - | (- | -)
  · change Numeral.parse? (westernDigit d :: rest.map westernDigit) = _
    rw [Numeral.parse?, Numeral.splitSign_of_isDigit hd']
    exact hbody false
  · exact hbody false
  · exact hbody true

theorem trim_text (n : Number) (sign : Option Polarity) :
    trim isWhiteSpace (signText sign ++ n.text) = signText sign ++ n.text := by
  apply trim_eq_self
  intro c hc
  rcases List.mem_append.mp hc with hc | hc
  · rcases mem_signText hc with rfl | rfl
    · decide
    · decide
  · exact isWhiteSpace_of_isBlank (n.text_solid c hc)

theorem western_signText (sign : Option Polarity) :
    (signText sign).map westernDigit = signText sign := by
  have hfix : ∀ c ∈ signText sign, westernDigit c = c := by
    intro c hc
    rcases mem_signText hc with rfl | rfl
    · exact westernDigit_of_not_isDigit (by decide)
    · exact westernDigit_of_not_isDigit (by decide)
  rw [List.map_congr_left hfix, List.map_id']

/-- Neither a sign nor a digit nor the point is an underscore. -/
theorem joinDigits?_text (n : Number) (sign : Option Polarity) :
    Numeral.joinDigits? false (signText sign ++ n.text.map westernDigit) =
      some (signText sign ++ n.text.map westernDigit) := by
  apply Numeral.joinDigits?_eq_some
  intro c hc
  rcases List.mem_append.mp hc with hc | hc
  · rcases mem_signText hc with rfl | rfl
    · decide
    · decide
  · obtain ⟨d, hd, rfl⟩ := List.mem_map.mp hc
    rcases mem_text hd with rfl | hd
    · decide
    · intro he
      have hdigit := isDigit_westernDigit hd
      rw [he] at hdigit
      exact absurd hdigit (by decide)

/-- A number is read with its digits, its point and the sign before it. -/
theorem read?_text (n : Number) (sign : Option Polarity) :
    Numeral.read? (signText sign ++ n.text) = some (n.numeral (sign.getD .plus).isMinus) := by
  rw [Numeral.read?, trim_text, List.map_append, western_signText, joinDigits?_text,
    Option.bind_some, parse?_text]

end Number

variable {α : Type} [Scalar α]

theorem Number.ofNumeral?_numeral (hα : ReadsDecimals α) (n : Number) (negative : Bool) :
    Scalar.ofNumeral? (n.numeral negative) = some (n.value negative : α) := by
  obtain ⟨v, hv⟩ := Option.isSome_iff_exists.mp
    (hα negative n.significand (-(n.part.length : Int)))
  have hn : Scalar.ofNumeral? (n.numeral negative) = some v := hv
  rw [value, hn, Option.getD_some]

theorem Number.readScalar_text (hα : ReadsDecimals α) (n : Number) (sign : Option Polarity) :
    readScalar (signText sign ++ n.text) = .ok (n.value (sign.getD .plus).isMinus : α) := by
  rw [readScalar, n.read?_text, Option.bind_some, n.ofNumeral?_numeral hα]

/-- A coefficient of which more than the sign is given is a number. -/
theorem readCoefficient_of_mem {coefficient : List Char} {c : Char}
    (hmem : c ∈ withoutSpaces coefficient) (hplus : c ≠ '+') (hminus : c ≠ '-') :
    (readCoefficient coefficient : Except Refusal α) = readScalar (withoutSpaces coefficient) := by
  rw [readCoefficient]
  split
  · rename_i he
    simp [he] at hmem
  · rename_i he
    simp [he, hplus] at hmem
  · rename_i he
    simp [he, hminus] at hmem
  · rfl

/-- A coefficient is the number written, or a one with the sign written. -/
theorem readCoefficient_number (hα : ReadsDecimals α) {coefficient : List Char} {n : Number}
    {sign : Option Polarity} (h : withoutSpaces coefficient = signText sign ++ n.text) :
    readCoefficient coefficient = .ok (n.value (sign.getD .plus).isMinus : α) := by
  obtain ⟨d, rest, htext, hd⟩ := n.exists_text_eq
  have hmem : d ∈ withoutSpaces coefficient := by simp [h, htext]
  rw [readCoefficient_of_mem hmem (ne_of_isDigit hd (by decide)) (ne_of_isDigit hd (by decide)), h,
    n.readScalar_text hα sign]

theorem readCoefficient_sign {coefficient : List Char} {sign : Option Polarity}
    (h : withoutSpaces coefficient = signText sign) :
    readCoefficient coefficient = .ok ((sign.getD .plus).one : α) := by
  rw [readCoefficient, h]
  rcases sign with - | (- | -)
  · rfl
  · rfl
  · rfl

end CornerPoint.Spec
