import CornerPoint.Decimal.Fixed
import CornerPoint.Proofs.Decimal.Grid
import CornerPoint.Proofs.Spec.Number
import Mathlib.Data.List.DropRight

/-!
The decimal text of a grid point. Stripping zeros from the end takes them from the digits after the
point only, since the point stops it, and the point itself goes if no digit is left after it. What
stays reads back as the same number.
-/
namespace CornerPoint

namespace Text

theorem eq_digitChar {c : Char} (h : c.isDigit = true) : ∃ value < 10, c = Nat.digitChar value := by
  simp only [Char.isDigit, UInt32.le_iff_toNat_le, Bool.and_eq_true, decide_eq_true_eq,
    ge_iff_le] at h
  change 48 ≤ c.toNat ∧ c.toNat ≤ 57 at h
  refine ⟨c.toNat - 48, by omega, Char.toNat_inj.mp ?_⟩
  rw [Nat.toNat_digitChar_of_lt_ten (by omega)]
  omega

/-- The Western digits are among those of all scripts, each with its own value. -/
theorem isDigit_of_western {c : Char} (h : c.isDigit = true) : isDigit c = true := by
  obtain ⟨value, hlt, rfl⟩ := eq_digitChar h
  have hdigits : ∀ value < 10, isDigit (Nat.digitChar value) = true := by decide
  exact hdigits value hlt

theorem map_westernDigit_of_western {t : List Char} (h : ∀ c ∈ t, c.isDigit = true) :
    t.map westernDigit = t := by
  have hdigits : ∀ value < 10, westernDigit (Nat.digitChar value) = Nat.digitChar value := by decide
  have hfix : ∀ c ∈ t, westernDigit c = c := by
    intro c hc
    obtain ⟨value, hlt, rfl⟩ := eq_digitChar (h c hc)
    exact hdigits value hlt
  rw [List.map_congr_left hfix, List.map_id']

end Text

namespace Decimal

/-- A minus sign or none, digits, and further digits after a point if there are any. -/
def plain (negative : Bool) (whole part : List Char) : List Char :=
  (if negative then ['-'] else []) ++ whole ++ (if part.isEmpty then [] else '.' :: part)

section Plain

variable {negative : Bool} {whole part : List Char}

theorem read?_plain (hne : whole ≠ []) (h : ∀ c ∈ whole ++ part, c.isDigit = true) :
    Numeral.read? (plain negative whole part) =
      some (.decimal negative (Numeral.digitsValue (whole ++ part)) (-(part.length : ℤ))) := by
  let n : Spec.Number := ⟨whole, part, hne, fun c hc => Text.isDigit_of_western (h c hc)⟩
  let sign : Option Spec.Polarity := if negative then some .minus else none
  have htext : plain negative whole part = Spec.signText sign ++ n.text := by
    cases negative <;> cases part <;> simp [plain, Spec.signText, sign, n, Spec.Number.text,
      Spec.Polarity.char]
  have hsign : (sign.getD .plus).isMinus = negative := by
    cases negative <;> rfl
  have hvalue : Numeral.digitsValue (whole ++ part) = n.significand := by
    rw [← n.digitsValue_western, ← List.map_append, Text.map_westernDigit_of_western h]
  rw [htext, n.read?_text, hsign, hvalue]
  rfl

theorem ne_point_of_mem (h : ∀ c ∈ whole, c.isDigit = true) {c : Char}
    (hc : c ∈ (if negative then ['-'] else []) ++ whole) : c ≠ '.' := by
  rintro rfl
  rcases List.mem_append.mp hc with hsign | hwhole
  · cases negative <;> simp at hsign
  · exact absurd (h _ hwhole) (by decide)

/-- The text up to its point is the sign with the digits before the point. -/
theorem takeWhile_plain (h : ∀ c ∈ whole, c.isDigit = true) :
    (plain negative whole part).takeWhile (· ≠ '.') =
      (if negative then ['-'] else []) ++ whole := by
  have hback : (if part.isEmpty then [] else '.' :: part).takeWhile (· ≠ '.') = [] := by
    split <;> simp
  rw [plain, List.takeWhile_append_of_pos fun c hc => decide_eq_true (ne_point_of_mem h hc), hback,
    List.append_nil]

theorem part_ne_nil_of_point_mem (h : ∀ c ∈ whole, c.isDigit = true)
    (hmem : '.' ∈ plain negative whole part) : part ≠ [] := by
  rintro rfl
  rw [plain, List.isEmpty_nil, if_pos rfl, List.append_nil] at hmem
  exact ne_point_of_mem h hmem rfl

theorem getLast?_plain (hne : whole ≠ []) :
    (plain negative whole part).getLast? = (if part = [] then whole else part).getLast? := by
  cases part with
  | nil => simp [plain, List.getLast?_append, List.getLast?_eq_some_getLast hne]
  | cons c part =>
    have hback : (if (c :: part).isEmpty then [] else '.' :: c :: part) = '.' :: c :: part := rfl
    rw [plain, hback, if_neg (List.cons_ne_nil c part),
      List.getLast?_append_of_ne_nil _ (List.cons_ne_nil _ _), List.getLast?_cons_cons]

theorem getLast?_plain_ne_point (hne : whole ≠ []) (h : ∀ c ∈ whole ++ part, c.isDigit = true) :
    (plain negative whole part).getLast? ≠ some '.' := by
  rw [getLast?_plain hne]
  intro hlast
  have hmem : '.' ∈ whole ++ part := by
    split at hlast
    · exact List.mem_append_left _ (List.mem_of_getLast? hlast)
    · exact List.mem_append_right _ (List.mem_of_getLast? hlast)
  exact absurd (h _ hmem) (by decide)

end Plain

section Strip

theorem stripEnd_append {c d : Char} (front back : List Char) (h : d ≠ c) :
    stripEnd c (front ++ d :: back) = front ++ d :: stripEnd c back := by
  have hd : (d == c) = false := beq_eq_false_iff_ne.mpr h
  unfold stripEnd
  rw [List.reverse_append, List.reverse_cons, List.append_assoc, List.dropWhile_append]
  cases hback : back.reverse.dropWhile (· == c) with
  | nil => simp [hd]
  | cons e rest => simp

theorem stripEnd_eq_self {c : Char} {text : List Char} (h : text.getLast? ≠ some c) :
    stripEnd c text = text := by
  refine List.rdropWhile_eq_self_iff.mpr fun hne hlast => h ?_
  rw [List.getLast?_eq_some_getLast hne, eq_of_beq hlast]

/-- What is stripped from the end is put back by as many copies. -/
theorem stripEnd_append_replicate (c : Char) (text : List Char) :
    ∃ n, text = stripEnd c text ++ List.replicate n c := by
  refine ⟨(text.rtakeWhile (· == c)).length, ?_⟩
  have hcopies : text.rtakeWhile (· == c) =
      List.replicate (text.rtakeWhile (· == c)).length c :=
    List.eq_replicate_length.mpr fun d hd =>
      eq_of_beq (List.mem_rtakeWhile_imp (p := (· == c)) hd)
  rw [← hcopies]
  exact List.rdropWhile_append_rtakeWhile.symm

theorem getLast?_stripEnd_ne (c : Char) (text : List Char) :
    (stripEnd c text).getLast? ≠ some c := by
  intro hlast
  obtain ⟨front, hfront⟩ := List.getLast?_eq_some_iff.mp hlast
  have hne : stripEnd c text ≠ [] := by simp [hfront]
  refine List.rdropWhile_last_not (· == c) text hne ?_
  have hend : (stripEnd c text).getLast hne = c := by simp [hfront]
  exact beq_iff_eq.mpr hend

end Strip

section Digits

variable {width n : ℕ}

theorem isDigit_of_mem_digits {c : Char} (h : c ∈ digits n) : c.isDigit = true :=
  Nat.isDigit_of_mem_toDigits (by decide) le_rfl h

theorem isDigit_of_mem_padded {c : Char} (h : c ∈ padded width n) : c.isDigit = true := by
  rcases List.mem_append.mp h with h | h
  · rw [List.eq_of_mem_replicate h]
    decide
  · exact isDigit_of_mem_digits h

theorem length_padded (hwidth : width ≠ 0) (h : n < 10 ^ width) :
    (padded width n).length = width := by
  have hlength : (digits n).length ≤ width :=
    (Nat.length_toDigits_le_iff (by decide) (Nat.pos_of_ne_zero hwidth)).mpr h
  rw [padded, List.length_append, List.length_replicate]
  omega

theorem digitsValue_eq (t : List Char) : Numeral.digitsValue t = Nat.ofDigitChars 10 t 0 :=
  Nat.ofDigitChars_eq_foldl.symm

theorem digitsValue_append_zeros (t : List Char) (n : ℕ) :
    Numeral.digitsValue (t ++ List.replicate n '0') = 10 ^ n * Numeral.digitsValue t := by
  rw [digitsValue_eq, digitsValue_eq, Nat.ofDigitChars_append, Nat.ofDigitChars_replicate_zero]

/-- The digits before and after the point are those of the whole and of the part. -/
theorem digitsValue_fixed (hwidth : width ≠ 0) (n : ℕ) :
    Numeral.digitsValue (digits (n / 10 ^ width) ++ padded width (n % 10 ^ width)) = n := by
  have hpart : n % 10 ^ width < 10 ^ width := Nat.mod_lt _ (Nat.pow_pos (by decide))
  have hpadded : Nat.ofDigitChars 10 (padded width (n % 10 ^ width)) 0 = n % 10 ^ width := by
    rw [padded, Nat.ofDigitChars_append, Nat.ofDigitChars_replicate_zero, mul_zero]
    exact Nat.ofDigitChars_ten_toDigits
  have hwhole : Nat.ofDigitChars 10 (digits (n / 10 ^ width)) 0 = n / 10 ^ width :=
    Nat.ofDigitChars_ten_toDigits
  rw [digitsValue_eq, Nat.ofDigitChars_append, hwhole, Nat.ofDigitChars_eq_ofDigitChars_zero,
    hpadded, length_padded hwidth hpart, Nat.div_add_mod]

end Digits

section Trimmed

variable {places : ℕ} (q : ℚ)

/-- The digits before the point. -/
def wholeDigits (places : ℕ) (q : ℚ) : List Char :=
  digits ((nearestMultiple places q).natAbs / 10 ^ places)

/-- The digits after the point, without zeros at the end. -/
def partDigits (places : ℕ) (q : ℚ) : List Char :=
  stripEnd '0' (padded places ((nearestMultiple places q).natAbs % 10 ^ places))

theorem wholeDigits_ne_nil (places : ℕ) : wholeDigits places q ≠ [] := Nat.toDigits_ne_nil

theorem isDigit_wholeDigits (places : ℕ) : ∀ c ∈ wholeDigits places q, c.isDigit = true :=
  fun _ => isDigit_of_mem_digits

theorem exists_zeros (places : ℕ) (q : ℚ) :
    ∃ n, padded places ((nearestMultiple places q).natAbs % 10 ^ places) =
      partDigits places q ++ List.replicate n '0' :=
  stripEnd_append_replicate '0' _

theorem isDigit_of_mem_partDigits {c : Char} (h : c ∈ partDigits places q) : c.isDigit = true := by
  obtain ⟨n, hn⟩ := exists_zeros places q
  exact isDigit_of_mem_padded (hn ▸ List.mem_append_left _ h)

theorem isDigit_wholeDigits_append (places : ℕ) :
    ∀ c ∈ wholeDigits places q ++ partDigits places q, c.isDigit = true := by
  intro c hc
  rcases List.mem_append.mp hc with hc | hc
  · exact isDigit_wholeDigits q places c hc
  · exact isDigit_of_mem_partDigits q hc

theorem trimmed_eq (hplaces : places ≠ 0) :
    trimmed places q =
      plain (decide (nearestMultiple places q < 0)) (wholeDigits places q)
        (partDigits places q) := by
  have hfixed : fixed places q = (if nearestMultiple places q < 0 then ['-'] else []) ++
      wholeDigits places q ++
        '.' :: padded places ((nearestMultiple places q).natAbs % 10 ^ places) := by
    unfold fixed
    simp only [if_neg hplaces]
    rfl
  have hself : stripEnd '.' (plain (decide (nearestMultiple places q < 0)) (wholeDigits places q)
      (partDigits places q)) = plain (decide (nearestMultiple places q < 0))
        (wholeDigits places q) (partDigits places q) :=
    stripEnd_eq_self (getLast?_plain_ne_point (wholeDigits_ne_nil q places)
      (isDigit_wholeDigits_append q places))
  rw [trimmed, hfixed, stripEnd_append _ _ (by decide)]
  change stripEnd '.' (_ ++ '.' :: partDigits places q) = _
  by_cases hpart : partDigits places q = []
  · -- Without digits after it the point is the last character.
    have hshort (negative : Bool) (whole : List Char) :
        plain negative whole [] = (if negative then ['-'] else []) ++ whole := List.append_nil _
    simp only [hpart, hshort, decide_eq_true_eq] at hself ⊢
    exact (List.rdropWhile_concat_pos (· == '.') _ '.' (by decide)).trans hself
  · have hempty : (partDigits places q).isEmpty = false := by simpa using hpart
    simpa [plain, hempty] using hself

/-- The text of a grid point stands for that point. -/
theorem read?_trimmed (hplaces : places ≠ 0) :
    (Numeral.read? (trimmed places q)).bind Numeral.value? = some (onGrid places q) := by
  obtain ⟨n, hn⟩ := exists_zeros places q
  have hlength : (partDigits places q).length + n = places := by
    have hpadded := length_padded hplaces
      (Nat.mod_lt (nearestMultiple places q).natAbs (Nat.pow_pos (by decide : 0 < 10)))
    rw [hn, List.length_append, List.length_replicate] at hpadded
    exact hpadded
  have hvalue : 10 ^ n * Numeral.digitsValue (wholeDigits places q ++ partDigits places q) =
      (nearestMultiple places q).natAbs := by
    rw [← digitsValue_append_zeros, List.append_assoc, ← hn]
    exact digitsValue_fixed hplaces _
  have hsize : (Numeral.digitsValue (wholeDigits places q ++ partDigits places q) : ℚ) *
      10 ^ (-((partDigits places q).length : ℤ)) =
        |(nearestMultiple places q : ℚ)| * 10 ^ (-(places : ℤ)) := by
    have habs : |(nearestMultiple places q : ℚ)| = ((nearestMultiple places q).natAbs : ℚ) := by
      rw [Nat.cast_natAbs, Int.cast_abs]
    have hexponent : -((partDigits places q).length : ℤ) = n + -(places : ℤ) := by omega
    rw [habs, ← hvalue, hexponent, zpow_add₀ (by norm_num), zpow_natCast]
    push_cast
    ring
  rw [trimmed_eq q hplaces,
    read?_plain (wholeDigits_ne_nil q places) (isDigit_wholeDigits_append q places),
    Option.bind_some, Numeral.value?, hsize, onGrid]
  by_cases hnegative : nearestMultiple places q < 0
  · have hcast : (nearestMultiple places q : ℚ) < 0 := Int.cast_lt_zero.mpr hnegative
    simp only [hnegative, decide_true, if_true, abs_of_neg hcast, neg_mul, neg_neg]
  · have hcast : (0 : ℚ) ≤ nearestMultiple places q := by exact_mod_cast not_lt.mp hnegative
    simp only [hnegative, decide_false, Bool.false_eq_true, if_false, abs_of_nonneg hcast]

/-- Before the point stand the sign and all digits of the whole part. -/
theorem takeWhile_trimmed (hplaces : places ≠ 0) :
    (trimmed places q).takeWhile (· ≠ '.') =
      (if onGrid places q < 0 then ['-'] else []) ++ Nat.toDigits 10 ⌊|onGrid places q|⌋₊ := by
  rw [trimmed_eq q hplaces, takeWhile_plain (isDigit_wholeDigits q places), floor_abs_onGrid]
  simp only [decide_eq_true_eq, onGrid_neg_iff]
  rfl

theorem getLast?_trimmed_ne_point (hplaces : places ≠ 0) :
    (trimmed places q).getLast? ≠ some '.' := by
  rw [trimmed_eq q hplaces]
  exact getLast?_plain_ne_point (wholeDigits_ne_nil q places) (isDigit_wholeDigits_append q places)

theorem getLast?_trimmed_ne_zero (hplaces : places ≠ 0) (hpoint : '.' ∈ trimmed places q) :
    (trimmed places q).getLast? ≠ some '0' := by
  rw [trimmed_eq q hplaces] at hpoint ⊢
  have hpart := part_ne_nil_of_point_mem (isDigit_wholeDigits q places) hpoint
  rw [getLast?_plain (wholeDigits_ne_nil q places), if_neg hpart]
  exact getLast?_stripEnd_ne '0' _

end Trimmed

end Decimal

end CornerPoint
