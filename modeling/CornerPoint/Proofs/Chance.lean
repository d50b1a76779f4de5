import CornerPoint.Chance.Source
import CornerPoint.Scalar.Exact
import Mathlib.Algebra.Order.Ring.Rat
import Mathlib.Data.Rat.Floor
import Mathlib.Tactic.Linarith
import Mathlib.Tactic.Positivity

/-!
What is certain about a draw. Nothing is assumed of a source but the range of its scalars, so what
holds of a draw holds for every state that it can start from. The twister draws within that range
whatever its seed.
-/
namespace CornerPoint.Chance

variable {σ β γ : Type} {P : β → Prop} {Q : γ → Prop}

/-- Whatever state it starts from, the draw has the property. -/
def Certain (P : β → Prop) (draw : StateM σ β) : Prop := ∀ s, P (draw s).1

namespace Certain

theorem pure {b : β} (h : P b) : Certain P (pure b : StateM σ β) := fun _ => h

theorem bind {draw : StateM σ β} {next : β → StateM σ γ} (h : Certain P draw)
    (hnext : ∀ b, P b → Certain Q (next b)) : Certain Q (draw >>= next) :=
  fun s => hnext _ (h s) _

/-- What is certain of each draw is certain of all members of a list of draws. -/
theorem mapM {f : β → StateM σ γ} (h : ∀ b, Certain Q (f b)) (bs : List β) :
    Certain (fun cs : List γ => cs.length = bs.length ∧ ∀ c ∈ cs, Q c) (bs.mapM f) := by
  induction bs with
  | nil => exact pure ⟨rfl, by simp⟩
  | cons b bs ih =>
    rw [List.mapM_cons]
    refine (h b).bind fun c hc => ih.bind fun cs ⟨hlength, hcs⟩ => pure ⟨?_, ?_⟩
    · rw [List.length_cons, List.length_cons, hlength]
    · exact List.forall_mem_cons.mpr ⟨hc, hcs⟩

end Certain

/-- The scalars of the source lie from zero up to but not including one. -/
def Source.InUnit (source : Source σ ℚ) : Prop :=
  Certain (fun u => 0 ≤ u ∧ u < 1) source.unit

theorem Source.InUnit.between {source : Source σ ℚ} (h : source.InUnit) {lo hi : ℚ}
    (hlt : lo < hi) : Certain (fun v => lo ≤ v ∧ v < hi) (source.between lo hi) := by
  refine Certain.bind h fun u ⟨hu, hu'⟩ => Certain.pure ?_
  change lo ≤ lo + (hi - lo) * u ∧ lo + (hi - lo) * u < hi
  have hspan : 0 < hi - lo := sub_pos.mpr hlt
  constructor
  · have := mul_nonneg hspan.le hu
    linarith
  · have := mul_lt_mul_of_pos_left hu' hspan
    linarith

section Twister

theorem share_rat (n : ℕ) : (share n : ℚ) = n / 2 ^ 53 := by
  have hwhole (m : ℕ) : Rat.ofScientific m false 0 = m := by
    rw [Rat.ofScientific_false_def, Nat.pow_zero, Nat.mul_one]
  change Rat.ofScientific n false 0 / Rat.ofScientific (2 ^ 53) false 0 = (n : ℚ) / 2 ^ 53
  rw [hwhole, hwhole, Nat.cast_pow, Nat.cast_ofNat]

theorem share_mem {n : ℕ} (h : n < 2 ^ 53) : 0 ≤ (share n : ℚ) ∧ (share n : ℚ) < 1 := by
  rw [share_rat]
  refine ⟨by positivity, ?_⟩
  rw [div_lt_one (by positivity)]
  exact_mod_cast h

/-- The 27 and 26 upper bits of two words. -/
theorem next53_lt (t : Twister) : t.next53.1 < 2 ^ 53 := by
  have hhigh (w : UInt32) : (w >>> 5).toNat < 2 ^ 27 := by
    rw [UInt32.toNat_shiftRight, Nat.shiftRight_eq_div_pow]
    have := w.toNat_lt
    change w.toNat / 2 ^ 5 < 2 ^ 27
    omega
  have hlow (w : UInt32) : (w >>> 6).toNat < 2 ^ 26 := by
    rw [UInt32.toNat_shiftRight, Nat.shiftRight_eq_div_pow]
    have := w.toNat_lt
    change w.toNat / 2 ^ 6 < 2 ^ 26
    omega
  have := hhigh t.next.1
  have := hlow t.next.2.next.1
  change (t.next.1 >>> 5).toNat * 0x4000000 + (t.next.2.next.1 >>> 6).toNat < 2 ^ 53
  omega

theorem twister_inUnit : (twister : Source Twister ℚ).InUnit :=
  fun t => share_mem (next53_lt t)

end Twister

end CornerPoint.Chance
