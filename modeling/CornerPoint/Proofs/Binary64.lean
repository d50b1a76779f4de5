import CornerPoint.Display
import CornerPoint.Proofs.Decimal.Grid
import CornerPoint.Scalar.Binary64
import Mathlib

/-!
Double precision keeps two laws of arithmetic that a solve relies on. A number that equals zero has
the size of zero, and a finite number stays finite when it is rounded to the places that are shown:
most numbers are far from the end of the range, and the largest ones are whole and do not change.
-/
namespace CornerPoint.Binary64

open Float.Model (Format UnpackedFloat totalExponent)
open Float.Model.UnpackedFloat

theorem targetExponent_eq (t : ℤ) : Format.binary64.targetExponent t = max (t - 53) (-1074) := rfl

/-- Neither infinite nor so large that it becomes infinite once it is packed. -/
def InRange : UnpackedFloat → Prop
  | .infinity _ => False
  | .finite _ _ e _ => e ≤ 971
  | .notANumber | .zero _ => True

section Packing

variable {b : BitVec Format.binary64.numBits} {u : UnpackedFloat}

theorem isInf_unpack_of_exponent (h : unpackExponent b ≠ -1#11) :
    (unpack .binary64 b).isInf = false := by
  unfold unpack
  dsimp only
  rw [if_neg h]
  split
  · split <;> rfl
  · rfl

theorem isInf_unpack_pack (h : InRange u) :
    (unpack .binary64 (pack .binary64 u)).isInf = false := by
  cases u with
  | infinity s => exact h.elim
  | notANumber => rfl
  | zero s => cases s <;> rfl
  | finite s m e hm =>
    have he : e ≤ 971 := h
    have hbias : ((Format.binary64.exponentBias : ℕ) : ℤ) = 1023 := rfl
    have hbits : ((Format.binary64.mantissaBitsWithoutImplicit : ℕ) : ℤ) = 52 := rfl
    have hwidth : 2 ^ Format.binary64.exponentBits = 2048 := rfl
    have hlimit : 2 ^ 11 = 2048 := rfl
    apply isInf_unpack_of_exponent
    unfold pack
    simp only [hbias, hbits, hwidth]
    rw [if_neg (by omega)]
    split
    · rw [unpackExponent_packComponents]
      intro heq
      have htop := congrArg BitVec.toNat heq
      simp at htop
      omega
    · rw [unpackExponent_packComponents]
      decide

theorem inRange_unpack (h : (unpack .binary64 b).isInf = false) : InRange (unpack .binary64 b) := by
  have hbias : ((Format.binary64.exponentBias : ℕ) : ℤ) = 1023 := rfl
  have hbits : ((Format.binary64.mantissaBitsWithoutImplicit : ℕ) : ℤ) = 52 := rfl
  have hlt : (unpackExponent b).toNat < 2048 := (unpackExponent b).isLt
  unfold unpack at h ⊢
  dsimp only at h ⊢
  split at h
  · split at h
    · simp [isInf] at h
    · rename_i hexp hmant
      rw [if_pos hexp, if_neg hmant]
      trivial
  · rename_i hexp
    have hne : (unpackExponent b).toNat ≠ 2047 := by
      intro heq
      exact hexp (BitVec.toNat_inj.mp (by simpa using heq))
    rw [if_neg hexp]
    split
    · split
      · trivial
      · rename_i hsub _
        change _ ≤ (971 : ℤ)
        rw [hsub, hbias, hbits]
        decide
    · change _ ≤ (971 : ℤ)
      rw [hbias, hbits]
      omega

theorem significand_lt {s : UnpackedFloat.Sign} {m : ℕ} {e : ℤ} {hm : 0 < m}
    (h : unpack .binary64 b = .finite s m e hm) : m < 2 ^ 53 := by
  unfold unpack at h
  simp only at h
  split at h
  · split at h <;> simp at h
  · split at h
    · split at h
      · simp at h
      · obtain ⟨-, rfl, -⟩ := UnpackedFloat.finite.inj h
        exact (unpackMantissa b).isLt.trans (by decide)
    · obtain ⟨-, rfl, -⟩ := UnpackedFloat.finite.inj h
      exact (1#1 ++ unpackMantissa b).isLt

theorem InRange.neg (h : InRange u) : InRange u.neg := by
  cases u <;> exact h

end Packing

section Rounding

theorem shiftRight_mantissa (em : ExtendedMantissa) (k : ℕ) :
    (em >>> k).mantissa = em.mantissa / 2 ^ k := by
  induction k with
  | zero => exact (Nat.div_one _).symm
  | succ k ih =>
    change (em >>> k).mantissa / 2 = _
    rw [ih, Nat.div_div_eq_div_mul, Nat.pow_succ]

theorem roundedMantissa_le (em : ExtendedMantissa) : em.roundedMantissa ≤ em.mantissa + 1 := by
  obtain ⟨m, round, sticky⟩ := em
  cases round <;> cases sticky <;>
    simp [ExtendedMantissa.roundedMantissa, ExtendedMantissa.accuracy, Accuracy.roundToNearestEven]
  omega

theorem ofMantissaAndAccuracy_mantissa (m : ℕ) (accuracy : Accuracy) :
    (ExtendedMantissa.ofMantissaAndAccuracy m accuracy).mantissa = m := by
  cases accuracy with
  | exact => rfl
  | inexact o => cases o <;> rfl

/-- Dropping bits and rounding up adds at most one to the order of magnitude. -/
theorem log2_rounded_le {m k r : ℕ} (hr : r ≤ m / 2 ^ k + 1) :
    r.log2 = 0 ∨ r.log2 + k ≤ m.log2 + 1 := by
  by_cases hq : m / 2 ^ k = 0
  · left
    rw [hq] at hr
    obtain rfl | rfl : r = 0 ∨ r = 1 := by omega
    · rfl
    · rfl
  · right
    have hpos : 0 < 2 ^ k := Nat.two_pow_pos k
    have hm : m ≠ 0 := by
      rintro rfl
      simp at hq
    have hlog : (m / 2 ^ k).log2 + k ≤ m.log2 := by
      rw [Nat.le_log2 hm, Nat.pow_add]
      calc 2 ^ (m / 2 ^ k).log2 * 2 ^ k ≤ m / 2 ^ k * 2 ^ k :=
            Nat.mul_le_mul_right _ (Nat.log2_self_le hq)
        _ ≤ m := Nat.div_mul_le_self m (2 ^ k)
    have hr' : r.log2 ≤ (m / 2 ^ k).log2 + 1 := by
      by_cases hzero : r = 0
      · simp [hzero]
      · have hlt : m / 2 ^ k < 2 ^ ((m / 2 ^ k).log2 + 1) := Nat.lt_log2_self
        have hle : 2 ^ r.log2 ≤ 2 ^ ((m / 2 ^ k).log2 + 1) :=
          (Nat.log2_self_le hzero).trans (by omega)
        exact (Nat.pow_le_pow_iff_right (by decide)).mp hle
    omega

theorem shiftToTargetExponent_exponent (m : ℕ) (e : ℤ) (accuracy : Accuracy) :
    (shiftToTargetExponent .binary64 m e accuracy).2 =
      max e (max ((m.log2 : ℤ) + 1 + e - 53) (-1074)) := by
  change e + ((max ((m.log2 : ℤ) + 1 + e - 53) (-1074) - e).toNat : ℤ) = _
  omega

theorem shiftToTargetExponent_mantissa (m : ℕ) (e : ℤ) (accuracy : Accuracy) :
    (shiftToTargetExponent .binary64 m e accuracy).1.mantissa =
      m / 2 ^ (max ((m.log2 : ℤ) + 1 + e - 53) (-1074) - e).toNat := by
  have hshift := shiftRight_mantissa (ExtendedMantissa.ofMantissaAndAccuracy m accuracy)
    (max ((m.log2 : ℤ) + 1 + e - 53) (-1074) - e).toNat
  rwa [ofMantissaAndAccuracy_mantissa] at hshift

/-- Packing renormalises the rounded significand, which rounding may have made one digit longer. -/
theorem inRange_of_rounded (s : UnpackedFloat.Sign) {m : ℕ} {e : ℤ} (accuracy : Accuracy)
    (he : e ≤ 971) (ht : totalExponent m e ≤ 1024)
    (hr : totalExponent (shiftToTargetExponent .binary64 m e accuracy).1.roundedMantissa
      (shiftToTargetExponent .binary64 m e accuracy).2 ≤ 1024) :
    InRange (roundWithAccuracy .binary64 s m e accuracy) := by
  have hexp₁ := shiftToTargetExponent_exponent m e accuracy
  unfold totalExponent at ht hr
  unfold roundWithAccuracy
  generalize shiftToTargetExponent .binary64 m e accuracy = first at hexp₁ hr ⊢
  obtain ⟨em₁, e₁⟩ := first
  have hexp₂ := shiftToTargetExponent_exponent em₁.roundedMantissa e₁ .exact
  simp only at hexp₁ hr ⊢
  generalize shiftToTargetExponent .binary64 em₁.roundedMantissa e₁ .exact = second at hexp₂ ⊢
  obtain ⟨em₂, e₂⟩ := second
  simp only at hexp₂ ⊢
  split
  · trivial
  · change e₂ ≤ 971
    omega

theorem inRange_roundWithAccuracy (s : UnpackedFloat.Sign) {m : ℕ} {e : ℤ} (accuracy : Accuracy)
    (he : e ≤ 971) (ht : totalExponent m e ≤ 1023) :
    InRange (roundWithAccuracy .binary64 s m e accuracy) := by
  refine inRange_of_rounded s accuracy he (by omega) ?_
  have hlog := log2_rounded_le ((roundedMantissa_le _).trans_eq
    (congrArg (· + 1) (shiftToTargetExponent_mantissa m e accuracy)))
  have hexp := shiftToTargetExponent_exponent m e accuracy
  unfold totalExponent at ht ⊢
  omega

theorem shiftRight_exact (m k : ℕ) :
    ExtendedMantissa.ofMantissaAndAccuracy (m * 2 ^ k) .exact >>> k = ⟨m, false, false⟩ := by
  induction k generalizing m with
  | zero => rw [Nat.pow_zero, Nat.mul_one]; rfl
  | succ k ih =>
    have hhalf : m * 2 ^ (k + 1) = (2 * m) * 2 ^ k := by ring
    rw [hhalf]
    change ExtendedMantissa.shiftRightOne
      (ExtendedMantissa.ofMantissaAndAccuracy (2 * m * 2 ^ k) .exact >>> k) = _
    rw [ih]
    simp [ExtendedMantissa.shiftRightOne]

/-- A whole number with a significand of 53 bits is not rounded at all. -/
theorem inRange_whole (s : UnpackedFloat.Sign) {m k : ℕ} (hpos : 0 < m) (hm : m < 2 ^ 53)
    (hk : k ≤ 971) : InRange (roundWithAccuracy .binary64 s (m * 2 ^ k) 0 .exact) := by
  have hne : m * 2 ^ k ≠ 0 := (Nat.mul_pos hpos (Nat.two_pow_pos k)).ne'
  have hlog : (m * 2 ^ k).log2 < 53 + k := by
    rw [Nat.log2_lt hne, Nat.pow_add]
    exact Nat.mul_lt_mul_of_pos_right hm (Nat.two_pow_pos k)
  -- The bits that are shifted out are all zero.
  obtain ⟨j, hj⟩ : ∃ j, (max (((m * 2 ^ k).log2 : ℤ) + 1 + 0 - 53) (-1074) - 0).toNat + j = k :=
    ⟨k - (max (((m * 2 ^ k).log2 : ℤ) + 1 + 0 - 53) (-1074) - 0).toNat, by omega⟩
  have hshift : (shiftToTargetExponent .binary64 (m * 2 ^ k) 0 .exact).1 =
      ⟨m * 2 ^ j, false, false⟩ := by
    have hsplit : m * 2 ^ k = m * 2 ^ j *
        2 ^ (max (((m * 2 ^ k).log2 : ℤ) + 1 + 0 - 53) (-1074) - 0).toNat := by
      rw [Nat.mul_assoc, ← Nat.pow_add, Nat.add_comm j, hj]
    have hexact := shiftRight_exact (m * 2 ^ j)
      (max (((m * 2 ^ k).log2 : ℤ) + 1 + 0 - 53) (-1074) - 0).toNat
    rwa [← hsplit] at hexact
  have hexp := shiftToTargetExponent_exponent (m * 2 ^ k) 0 .exact
  refine inRange_of_rounded s .exact (by decide) (by unfold totalExponent; omega) ?_
  rw [hshift, hexp]
  change ((m * 2 ^ j).log2 : ℤ) + 1 + _ ≤ 1024
  have hle : (m * 2 ^ j).log2 + (k - j) ≤ (m * 2 ^ k).log2 := by
    rw [Nat.le_log2 hne, Nat.pow_add]
    calc 2 ^ (m * 2 ^ j).log2 * 2 ^ (k - j) ≤ m * 2 ^ j * 2 ^ (k - j) :=
          Nat.mul_le_mul_right _ (Nat.log2_self_le (Nat.mul_pos hpos (Nat.two_pow_pos j)).ne')
      _ = m * 2 ^ k := by
          rw [Nat.mul_assoc, ← Nat.pow_add]
          congr 2
          omega
  omega

theorem inRange_div (s₁ s₂ : UnpackedFloat.Sign) {m₁ m₂ : ℕ} {e₁ e₂ : ℤ} (h₁ : 0 < m₁) (h₂ : 0 < m₂)
    (ht : totalExponent m₁ e₁ - totalExponent m₂ e₂ ≤ 1022) :
    InRange (div .binary64 (.finite s₁ m₁ e₁ h₁) (.finite s₂ m₂ e₂ h₂)) := by
  unfold totalExponent at ht
  unfold div divCore
  simp only [targetExponent_eq, totalExponent]
  generalize htarget : min (e₁ - e₂)
    (max ((m₁.log2 : ℤ) + 1 + e₁ - ((m₂.log2 : ℤ) + 1 + e₂) - 53) (-1074)) = t
  generalize hk : (e₁ - e₂ - t).toNat = k
  refine inRange_roundWithAccuracy _ _ (by omega) ?_
  unfold totalExponent
  by_cases hq : m₁ <<< k / m₂ = 0
  · rw [hq]
    simp only [Nat.log2_zero, Nat.cast_zero]
    omega
  · -- The quotient has at most as many binary digits as the operands allow.
    have hlt : 2 ^ ((m₁ <<< k / m₂).log2 + m₂.log2) < 2 ^ (m₁.log2 + 1 + k) := by
      calc 2 ^ ((m₁ <<< k / m₂).log2 + m₂.log2)
          = 2 ^ (m₁ <<< k / m₂).log2 * 2 ^ m₂.log2 := Nat.pow_add ..
        _ ≤ m₁ <<< k / m₂ * m₂ :=
          Nat.mul_le_mul (Nat.log2_self_le hq) (Nat.log2_self_le h₂.ne')
        _ ≤ m₁ <<< k := Nat.div_mul_le_self ..
        _ = m₁ * 2 ^ k := Nat.shiftLeft_eq ..
        _ < 2 ^ (m₁.log2 + 1) * 2 ^ k :=
          Nat.mul_lt_mul_of_pos_right Nat.lt_log2_self (Nat.two_pow_pos k)
        _ = 2 ^ (m₁.log2 + 1 + k) := (Nat.pow_add ..).symm
    have hlog := (Nat.pow_lt_pow_iff_right (by decide)).mp hlt
    omega

end Rounding

section Scientific

/-- The divisor of four decimal places as an unpacked number. -/
theorem unpack_tenThousand :
    (getElem Float.exactlyRepresentablePowersOfTen 4 (by decide)).toModel.unpack =
      .finite .positive 5497558138880000 (-39) (by decide) := by
  with_unfolding_all rfl

theorem inRange_round {m : ℕ} (s : UnpackedFloat.Sign) (hm : m < 2 ^ 53) :
    InRange (UnpackedFloat.round .binary64 s m 0) := by
  unfold UnpackedFloat.round decreaseExponent
  simp only [targetExponent_eq]
  generalize (0 - max (totalExponent m 0 - 53) (-1074)).toNat = k
  refine inRange_roundWithAccuracy s .exact (by omega) ?_
  unfold totalExponent
  by_cases hzero : m <<< k = 0
  · rw [hzero, Nat.log2_zero]
    omega
  · have hlog : (m <<< k).log2 < 53 + k := by
      rw [Nat.log2_lt hzero, Nat.shiftLeft_eq, Nat.pow_add]
      exact Nat.mul_lt_mul_of_pos_right hm (Nat.two_pow_pos k)
    omega

theorem inRange_ofUInt64 {n : ℕ} (hn : n < 2 ^ 53) :
    InRange (ofUInt64 .binary64 n.toUInt64) := by
  have hcast : n.toUInt64.toNat = n := UInt64.toNat_ofNat_of_lt' (hn.trans (by decide))
  change InRange (UnpackedFloat.normalize .binary64 (n.toUInt64.toNat : ℤ) 0 .positive)
  rw [hcast]
  unfold UnpackedFloat.normalize
  split
  · exact inRange_round _ (by omega)
  · trivial
  · exact inRange_round _ (by omega)

theorem isInf_ofScientific_small {n : ℕ} (hn : n < 2 ^ 53) :
    (Float.ofScientific n true 4).isInf = false := by
  unfold Float.ofScientific
  rw [dif_pos ⟨hn, by decide⟩]
  apply isInf_unpack_pack
  rw [unpack_tenThousand]
  generalize hu : n.toUInt64.toFloat.toModel.unpack = u
  have hinf : u.isInf = false := by
    rw [← hu]
    exact isInf_unpack_pack (inRange_ofUInt64 hn)
  have hrange : InRange u := by
    rw [← hu] at hinf ⊢
    exact inRange_unpack hinf
  cases u with
  | infinity s => cases hinf
  | notANumber | zero => trivial
  | finite s m e hm =>
    have hlog : m.log2 < 53 := (Nat.log2_lt hm.ne').mpr (significand_lt hu)
    have he : e ≤ 971 := hrange
    have hdivisor : totalExponent 5497558138880000 (-39) = 14 := by decide
    refine inRange_div s .positive hm _ ?_
    rw [hdivisor]
    unfold totalExponent
    omega

/-- Past the exact integers, four places are divided off by way of the exact quotient. -/
theorem isInf_ofScientific_large {n : ℕ} (hn : 2 ^ 53 ≤ n)
    (h : InRange (div .binary64 (.finite .positive n 0 (by omega))
      (.finite .positive (10 ^ 4) 0 (by decide)))) :
    (Float.ofScientific n true 4).isInf = false := by
  unfold Float.ofScientific
  rw [dif_neg (by omega)]
  apply isInf_unpack_pack
  unfold ofScientific
  rw [dif_neg (by omega), if_neg (by decide), if_neg (not_lt.mpr ?_), if_neg (by decide)]
  · exact h
  · change -((2048 : ℤ) + n.log2) ≤ -4
    omega

theorem isInf_ofDecimal {n : ℕ}
    (h : ∀ hn : 0 < n, InRange (div .binary64 (.finite .positive n 0 hn)
      (.finite .positive (10 ^ 4) 0 (by decide)))) :
    (ofDecimal n (-4)).isInf = false := by
  unfold ofDecimal
  split
  · rfl
  rw [if_neg (by decide), if_neg (by omega)]
  change (Float.ofScientific n true 4).isInf = false
  by_cases hsmall : n < 2 ^ 53
  · exact isInf_ofScientific_small hsmall
  · exact isInf_ofScientific_large (by omega) (h (by omega))

theorem inRange_div_tenThousand {n : ℕ} (hn : 0 < n) (hlog : n.log2 ≤ 1035) :
    InRange (div .binary64 (.finite .positive n 0 hn)
      (.finite .positive (10 ^ 4) 0 (by decide))) := by
  have hdivisor : totalExponent (10 ^ 4) 0 = 14 := by decide
  refine inRange_div .positive .positive hn _ ?_
  rw [hdivisor]
  unfold totalExponent
  omega

theorem inRange_div_whole {m k : ℕ} (hpos : 0 < m) (hm : m < 2 ^ 53) (hlow : 53 ≤ k) (hk : k ≤ 971)
    (hn : 0 < m * 2 ^ k * 10 ^ 4) :
    InRange (div .binary64 (.finite .positive (m * 2 ^ k * 10 ^ 4) 0 hn)
      (.finite .positive (10 ^ 4) 0 (by decide))) := by
  have hlog : 66 ≤ (m * 2 ^ k * 10 ^ 4).log2 := by
    rw [Nat.le_log2 hn.ne']
    calc 2 ^ 66 = 1 * 2 ^ 53 * 2 ^ 13 := by decide
      _ ≤ m * 2 ^ k * 10 ^ 4 :=
        Nat.mul_le_mul (Nat.mul_le_mul hpos (Nat.pow_le_pow_right (by decide) hlow)) (by decide)
  have hdivisor : totalExponent (10 ^ 4) 0 = 14 := by decide
  have htarget : min ((0 : ℤ) - 0) (Format.binary64.targetExponent
      (totalExponent (m * 2 ^ k * 10 ^ 4) 0 - totalExponent (10 ^ 4) 0)) = 0 := by
    rw [targetExponent_eq, hdivisor]
    unfold totalExponent
    omega
  have hquotient :
      divCore .binary64 (m * 2 ^ k * 10 ^ 4) 0 (10 ^ 4) 0 = (m * 2 ^ k, 0, .exact) := by
    unfold divCore
    simp only [htarget]
    simp [accuracyOfFraction]
  unfold div
  simp only [hquotient]
  exact inRange_whole _ hpos hm hk

end Scientific

section Value

/-- The significand has 53 bits, and the exponent stops at 971. -/
theorem exists_of_value? {x : Float} {q : ℚ} (h : value? x = some q) :
    ∃ (m : ℕ) (e : ℤ), m < 2 ^ 53 ∧ e ≤ 971 ∧ |q| = m * 2 ^ e := by
  have hfraction : x.toBits.toNat % fractionLimit < 2 ^ 52 := Nat.mod_lt _ (by decide)
  have hexponent : x.toBits.toNat / fractionLimit % exponentLimit < 2048 := Nat.mod_lt _ (by decide)
  have hfractionLimit : fractionLimit = 2 ^ 52 := rfl
  have hexponentLimit : exponentLimit = 2048 := rfl
  unfold value? at h
  simp only at h
  split at h
  · cases h
  rename_i hfinite
  generalize x.toBits.toNat % fractionLimit = fraction at hfraction h
  generalize x.toBits.toNat / fractionLimit % exponentLimit = exponent at hexponent hfinite h
  refine ⟨if exponent = 0 then fraction else fractionLimit + fraction,
    if exponent = 0 then -1074 else (exponent : ℤ) - 1075, ?_, ?_, ?_⟩
  · split <;> omega
  · split <;> omega
  · rw [← Option.some.inj h]
    split
    · rw [abs_neg, abs_of_nonneg (by positivity)]
    · rw [abs_of_nonneg (by positivity)]

/-- A whole number has a whole number of ten-thousandths. -/
theorem natAbs_nearestMultiple_whole {q : ℚ} {m k : ℕ} (h : |q| = m * 2 ^ k) :
    (Decimal.nearestMultiple 4 q).natAbs = m * 2 ^ k * 10 ^ 4 := by
  have hwhole : q * 10 ^ (4 : ℤ) = ((m * 2 ^ k * 10 ^ 4 : ℤ) : ℚ) ∨
      q * 10 ^ (4 : ℤ) = ((-(m * 2 ^ k * 10 ^ 4) : ℤ) : ℚ) := by
    push_cast
    rcases abs_choice q with hsign | hsign
    · left
      rw [← h, hsign]
    · right
      rw [← h, hsign]
      ring_nf
  unfold Decimal.nearestMultiple
  rcases hwhole with hwhole | hwhole
  · rw [hwhole, Decimal.roundHalfEven_intCast]
    rfl
  · rw [hwhole, Decimal.roundHalfEven_intCast, Int.natAbs_neg]
    rfl

theorem log2_nearestMultiple_le {q : ℚ} {m : ℕ} {e : ℤ} (hm : m < 2 ^ 53) (he : e < 53)
    (h : |q| = m * 2 ^ e) : (Decimal.nearestMultiple 4 q).natAbs.log2 ≤ 119 := by
  by_cases hzero : (Decimal.nearestMultiple 4 q).natAbs = 0
  · simp [hzero]
  have hpow : (2 : ℚ) ^ e ≤ 2 ^ (52 : ℤ) := zpow_le_zpow_right₀ (by norm_num) (by omega)
  have hm' : (m : ℚ) ≤ 2 ^ 53 := by exact_mod_cast hm.le
  have hlt : ((Decimal.nearestMultiple 4 q).natAbs : ℚ) < ((2 ^ 120 : ℕ) : ℚ) := by
    calc ((Decimal.nearestMultiple 4 q).natAbs : ℚ) ≤ |q * 10 ^ (4 : ℤ)| + 1 := by
          rw [Nat.cast_natAbs, Int.cast_abs]
          exact Decimal.abs_roundHalfEven_le _
      _ = m * 2 ^ e * 10 ^ (4 : ℤ) + 1 := by
          rw [abs_mul, h, abs_of_pos (by positivity : (0 : ℚ) < 10 ^ (4 : ℤ))]
      _ ≤ 2 ^ 53 * 2 ^ (52 : ℤ) * 10 ^ (4 : ℤ) + 1 := by gcongr
      _ < ((2 ^ 120 : ℕ) : ℚ) := by norm_num
  exact Nat.lt_succ_iff.mp ((Nat.log2_lt hzero).mpr (Nat.cast_lt.mp hlt))

theorem isInf_neg {x : Float} (h : x.isInf = false) : (-x).isInf = false :=
  isInf_unpack_pack (inRange_unpack h).neg

/-- However large a number is, it stays finite when it is rounded to the places shown. -/
theorem roundTo?_places_isSome (x : Float) : (roundTo? Display.places x).isSome = true := by
  have hplaces : max (-400) (min 400 ((Display.places : ℕ) : ℤ)) = 4 := by decide
  unfold roundTo?
  split
  · rfl
  rename_i q hq
  obtain ⟨m, e, hm, he, habs⟩ := exists_of_value? hq
  have hsize : (ofDecimal (Decimal.nearestMultiple 4 q).natAbs (-4)).isInf = false := by
    apply isInf_ofDecimal
    intro hn
    by_cases hlow : 53 ≤ e
    · obtain ⟨k, rfl⟩ := Int.eq_ofNat_of_zero_le (show 0 ≤ e by omega)
      rw [zpow_natCast] at habs
      have hwhole := natAbs_nearestMultiple_whole habs
      generalize (Decimal.nearestMultiple 4 q).natAbs = n at hn hwhole ⊢
      subst hwhole
      have hpos : 0 < m := Nat.pos_of_ne_zero (by rintro rfl; simp at hn)
      exact inRange_div_whole hpos hm (by omega) (by omega) hn
    · exact inRange_div_tenThousand hn
        ((log2_nearestMultiple_le hm (not_le.mp hlow) habs).trans (by decide))
  have hrounded : (ofNumeral (.decimal (decide (Decimal.nearestMultiple 4 q < 0))
      (Decimal.nearestMultiple 4 q).natAbs (-4))).isInf = false := by
    unfold ofNumeral
    simp only
    split
    · exact isInf_neg hsize
    · exact hsize
  simp only [hplaces]
  rw [if_neg (by rw [hrounded]; decide)]
  rfl

end Value

section Zero

theorem unpack_eq_zero_of_beq {x : Float} (h : (x == (0 : Float)) = true) :
    ∃ s, x.toModel.unpack = .zero s := by
  change (x.toModel.unpack.compare (.zero .positive) == some .eq) = true at h
  generalize x.toModel.unpack = u at h
  cases u with
  | zero s => exact ⟨s, rfl⟩
  | notANumber => cases h
  | infinity s => cases s <;> cases h
  | finite s m e hm => cases s <;> cases h

/-- A negative zero is the one number that equals zero and is not zero; it has no size either. -/
theorem abs_eq_zero_of_beq {x : Float} (h : (x == (0 : Float)) = true) : x.abs = 0 := by
  obtain ⟨s, hs⟩ := unpack_eq_zero_of_beq h
  change Float.ofModel (.pack x.toModel.unpack.abs) = 0
  rw [hs]
  rfl

end Zero

end CornerPoint.Binary64
