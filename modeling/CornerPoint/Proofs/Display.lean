import CornerPoint.Proofs.Decimal.Text
import CornerPoint.Proofs.Listing
import CornerPoint.Report

/-!
What is shown of exact numbers. Rounding for display keeps their order and their signs and does
nothing to a rounded number; the snap to zero agrees with all grids, coarser and finer ones alike.
The text of a number stands for its rounded value, so the values listed for the vertices descend.
-/
namespace CornerPoint

/-- What a decimal text stands for, by the common reader of numerals. -/
def Decimal.value? (text : String) : Option ℚ :=
  (Numeral.read? text.toList).bind Numeral.value?

namespace Display

section Rounding

variable {v w : ℚ}

/-- Zero for a tiny number, and else the nearest point of the grid. -/
def rounded (places : ℤ) (v : ℚ) : ℚ :=
  if |v| < 1 / 10 ^ 12 then 0 else Decimal.onGrid places v

theorem snap_eq_unit : (1 : ℚ) / 10 ^ 12 = 10 ^ (-(12 : ℤ)) := by norm_num

theorem round?_rat (places : ℤ) (v : ℚ) : round? places v = some (rounded places v) := by
  have hsnap : (snap : ℚ) = 1 / 10 ^ 12 := by decide +kernel
  unfold round? rounded
  rw [hsnap, Scalar.abs_rat, Scalar.roundTo?_rat]
  split
  · rfl
  · by_cases hzero : Decimal.onGrid places v = 0
    · simp [hzero]
    · simp [hzero]

theorem round_rat (places : ℤ) (v : ℚ) : round places v = .ok (rounded places v) := by
  rw [round, round?_rat]

theorem rounded_of_tiny (places : ℤ) (h : |v| < 1 / 10 ^ 12) : rounded places v = 0 := if_pos h

theorem rounded_of_not_tiny (places : ℤ) (h : ¬|v| < 1 / 10 ^ 12) :
    rounded places v = Decimal.onGrid places v := if_neg h

/-- A number that is not tiny is rounded to the nearest multiple of a power of ten, a tie going to
the even one. -/
theorem exists_nearest (places : ℤ) (v : ℚ) :
    ∃ k, Decimal.IsNearest (v * 10 ^ places) k ∧
      rounded places v = if |v| < 1 / 10 ^ 12 then 0 else (k : ℚ) * 10 ^ (-places) :=
  ⟨_, Decimal.isNearest_roundHalfEven _, rfl⟩

theorem rounded_zero (places : ℤ) : rounded places 0 = 0 :=
  rounded_of_tiny places (by norm_num)

theorem rounded_neg (places : ℤ) (v : ℚ) : rounded places (-v) = -rounded places v := by
  by_cases h : |v| < 1 / 10 ^ 12
  · rw [rounded_of_tiny places h, rounded_of_tiny places (by rwa [abs_neg]), neg_zero]
  · rw [rounded_of_not_tiny places h, rounded_of_not_tiny places (by rwa [abs_neg]),
      Decimal.onGrid_neg]

theorem rounded_nonneg (places : ℤ) (h : 0 ≤ v) : 0 ≤ rounded places v := by
  unfold rounded
  split
  · exact le_rfl
  · exact (Decimal.onGrid_zero places).symm.trans_le (Decimal.onGrid_mono places h)

theorem rounded_le_of_nonneg (places : ℤ) (hv : 0 ≤ v) (h : v ≤ w) :
    rounded places v ≤ rounded places w := by
  by_cases htiny : |v| < 1 / 10 ^ 12
  · rw [rounded_of_tiny places htiny]
    exact rounded_nonneg places (hv.trans h)
  · have htiny' : ¬|w| < 1 / 10 ^ 12 :=
      fun hw => htiny ((abs_le_abs_of_nonneg hv h).trans_lt hw)
    rw [rounded_of_not_tiny places htiny, rounded_of_not_tiny places htiny']
    exact Decimal.onGrid_mono places h

theorem rounded_mono (places : ℤ) : Monotone (rounded places) := by
  intro v w h
  rcases le_total 0 v with hv | hv
  · exact rounded_le_of_nonneg places hv h
  rcases le_total 0 w with hw | hw
  · have hopposite := rounded_nonneg places (neg_nonneg.mpr hv)
    rw [rounded_neg] at hopposite
    exact (neg_nonneg.mp hopposite).trans (rounded_nonneg places hw)
  · have hopposite := rounded_le_of_nonneg places (neg_nonneg.mpr hw) (neg_le_neg h)
    rw [rounded_neg, rounded_neg] at hopposite
    exact neg_le_neg_iff.mp hopposite

/-- A number that is not tiny is not rounded to a tiny one other than zero. On the grids that are
finer than the snap its bound is a grid point, and on the others zero is the only tiny point. -/
theorem not_tiny_onGrid (places : ℤ) (h : ¬|v| < 1 / 10 ^ 12)
    (hne : Decimal.onGrid places v ≠ 0) : ¬|Decimal.onGrid places v| < 1 / 10 ^ 12 := by
  rw [snap_eq_unit, not_lt] at h ⊢
  rcases le_total places 12 with hcoarse | hfine
  · exact Decimal.unit_le_abs_onGrid hcoarse hne
  · rw [← Decimal.onGrid_unit hfine]
    rcases le_abs.mp h with hpos | hneg
    · exact (Decimal.onGrid_mono places hpos).trans (le_abs_self _)
    · rw [← abs_neg, ← Decimal.onGrid_neg]
      exact (Decimal.onGrid_mono places hneg).trans (le_abs_self _)

theorem onGrid_rounded (places : ℤ) (v : ℚ) :
    Decimal.onGrid places (rounded places v) = rounded places v := by
  unfold rounded
  split
  · exact Decimal.onGrid_zero places
  · exact Decimal.onGrid_onGrid places v

theorem rounded_rounded (places : ℤ) (v : ℚ) :
    rounded places (rounded places v) = rounded places v := by
  by_cases htiny : |v| < 1 / 10 ^ 12
  · rw [rounded_of_tiny places htiny, rounded_zero]
  rw [rounded_of_not_tiny places htiny]
  by_cases hzero : Decimal.onGrid places v = 0
  · rw [hzero, rounded_zero]
  · rw [rounded_of_not_tiny places (not_tiny_onGrid places htiny hzero), Decimal.onGrid_onGrid]

end Rounding

section Text

variable {v w : ℚ}

/-- The grid of the numbers shown is that of the ten-thousandths. -/
theorem exists_nearest_place (v : ℚ) :
    ∃ k, Decimal.IsNearest (v * 10 ^ 4) k ∧
      rounded places v = if |v| < 1 / 10 ^ 12 then 0 else (k : ℚ) / 10 ^ 4 := by
  obtain ⟨k, hk, hrounded⟩ := exists_nearest places v
  have hunit : (10 : ℚ) ^ (-(places : ℤ)) = 1 / 10 ^ 4 := by decide +kernel
  rw [hunit, mul_one_div] at hrounded
  exact ⟨k, hk, hrounded⟩

theorem number_rat (v : ℚ) :
    number v = String.ofList (Decimal.trimmed places (rounded places v)) := by
  have hshown : shown v = rounded places v := by
    rw [shown, round?_rat, Option.getD_some]
  rw [number, hshown, Scalar.value?_rat]

theorem value?_number (v : ℚ) : Decimal.value? (number v) = some (rounded places v) := by
  rw [Decimal.value?, number_rat, String.toList_ofList, Decimal.read?_trimmed _ (by decide),
    onGrid_rounded]

theorem number_eq_iff : number v = number w ↔ rounded places v = rounded places w := by
  constructor
  · intro h
    have hvalue := value?_number v
    rw [h, value?_number w] at hvalue
    exact (Option.some.inj hvalue).symm
  · intro h
    rw [number_rat, number_rat, h]

theorem takeWhile_number (v : ℚ) : (number v).toList.takeWhile (· ≠ '.') =
    (if rounded places v < 0 then ['-'] else []) ++ Nat.toDigits 10 ⌊|rounded places v|⌋₊ := by
  rw [number_rat, String.toList_ofList, Decimal.takeWhile_trimmed _ (by decide), onGrid_rounded]

theorem number_ne_negative_zero (v : ℚ) : number v ≠ "-0" := by
  intro h
  have hvalue := value?_number v
  have hwhole := takeWhile_number v
  have hzero : Decimal.value? "-0" = some 0 := by decide +kernel
  rw [h, hzero] at hvalue
  rw [h, ← Option.some.inj hvalue] at hwhole
  exact absurd hwhole (by decide +kernel)

/-- The text of a number stands for its rounded value, the nearest multiple of a ten-thousandth with
a tie going to the even one, or zero for a tiny number. It does not end in a point, nor with a zero
after a point, a zero has no sign, and before the point stand the sign and all digits of the whole
part. So two numbers are shown alike exactly if they are rounded alike. -/
theorem number_denotes_rounded (v w : ℚ) :
    (∃ k, Decimal.IsNearest (v * 10 ^ 4) k ∧
      rounded places v = if |v| < 1 / 10 ^ 12 then 0 else (k : ℚ) / 10 ^ 4) ∧
    round places v = .ok (rounded places v) ∧
    Decimal.value? (number v) = some (rounded places v) ∧
    (number v).toList.getLast? ≠ some '.' ∧
    ¬('.' ∈ (number v).toList ∧ (number v).toList.getLast? = some '0') ∧
    number v ≠ "-0" ∧
    (number v).toList.takeWhile (· ≠ '.') =
      (if rounded places v < 0 then ['-'] else []) ++ Nat.toDigits 10 ⌊|rounded places v|⌋₊ ∧
    (number v = number w ↔ rounded places v = rounded places w) := by
  refine ⟨exists_nearest_place v, round_rat places v, value?_number v, ?_, ?_,
    number_ne_negative_zero v, takeWhile_number v, number_eq_iff⟩
  · rw [number_rat, String.toList_ofList]
    exact Decimal.getLast?_trimmed_ne_point _ (by decide)
  · rintro ⟨hpoint, hlast⟩
    rw [number_rat, String.toList_ofList] at hpoint hlast
    exact Decimal.getLast?_trimmed_ne_zero _ (by decide) hpoint hlast

end Text

/-- The line ends in a decimal for `z`, marked as the value of the objective. -/
def ShowsValue (line : String) (z : ℚ) : Prop :=
  ∃ label text, line = label ++ "Z = " ++ text ∧ Decimal.value? text = some z

theorem showsValue_vertex (v : Vertex ℚ) : ShowsValue (vertex v) (rounded places v.z) := by
  refine ⟨"(" ++ number v.x ++ ", " ++ number v.y ++ ")  ", number v.z, ?_, value?_number v.z⟩
  have hmark : ")  Z = " = ")  " ++ "Z = " := by decide
  rw [vertex, hmark, ← String.append_assoc]

end Display

namespace Problem

variable {o : Options ℚ} {p : Problem ℚ} {s : Solution ℚ}

theorem vertices_descend (h : p.solve o = .ok s) :
    (s.vertices?.getD []).Pairwise fun v w => w.z ≤ v.z := by
  unfold solve at h
  cases hw : p.workings o with
  | error fault => simp [hw, Except.map] at h
  | ok w =>
    obtain rfl : Solution.ofWorkings o p.sense w = s := by simpa [hw, Except.map] using h
    unfold Solution.ofWorkings
    split
    · exact List.Pairwise.nil
    · cases o.listVertices
      · exact List.Pairwise.nil
      · exact Vertex.sortByValueDescending_descends w.distinct

end Problem

namespace Report

variable {o : Options ℚ} {d : Draft ℚ} {report : Report ℚ} {exhibit : Exhibit ℚ}

theorem exists_listed (h : Report.ofDraft o d = .ok report) (he : report.exhibit = some exhibit) :
    ∃ vs : List (Vertex ℚ), exhibit.listing = vs.map Display.vertex ∧
      vs.Pairwise fun v w => w.z ≤ v.z := by
  unfold ofDraft at h
  cases hd : d.check with
  | error defect =>
    obtain rfl : ⟨.invalid defect, defect.message, none⟩ = report := by simpa [hd] using h
    cases he
  | ok p =>
    cases hs : p.solve o with
    | error fault => simp [hd, hs, Except.map] at h
    | ok s =>
      obtain rfl : ⟨s, s.message p.sense, some (Exhibit.ofSolution p s)⟩ = report := by
        simpa [hd, hs, Except.map] using h
      obtain rfl := Option.some.inj he
      exact ⟨_, rfl, Problem.vertices_descend hs⟩

/-- The values that the lines of a listing show never increase. -/
theorem listed_values_descend (h : Report.ofDraft o d = .ok report)
    (he : report.exhibit = some exhibit) :
    ∃ zs : List ℚ, List.Forall₂ Display.ShowsValue exhibit.listing zs ∧
      zs.Pairwise (· ≥ ·) := by
  obtain ⟨vs, hlisting, hdescends⟩ := exists_listed h he
  refine ⟨vs.map fun v => Display.rounded Display.places v.z, ?_, ?_⟩
  · rw [hlisting, List.forall₂_map_left_iff, List.forall₂_map_right_iff, List.forall₂_same]
    exact fun v _ => Display.showsValue_vertex v
  · rw [List.pairwise_map]
    exact hdescends.imp fun hvw => Display.rounded_mono Display.places hvw

end Report

namespace Display

/-- A number is rounded to the nearest multiple of a power of ten, a tie going to the even one,
unless it is tiny. This keeps the order of numbers and their signs, and nothing is rounded twice; so
the values listed for the vertices of a solution never increase. -/
theorem rounding_keeps_order :
    (∀ places v, ∃ k, Decimal.IsNearest (v * 10 ^ places) k ∧
      round places v = .ok (if |v| < 1 / 10 ^ 12 then 0 else (k : ℚ) * 10 ^ (-places)) ∧
      round places v = .ok (rounded places v)) ∧
    (∀ places {v w : ℚ}, v ≤ w → rounded places v ≤ rounded places w) ∧
    (∀ places v, rounded places (-v) = -rounded places v) ∧
    (∀ places v, rounded places (rounded places v) = rounded places v) ∧
    ∀ (o : Options ℚ) (d : Draft ℚ) report exhibit,
      Report.ofDraft o d = .ok report → report.exhibit = some exhibit →
      ∃ zs : List ℚ, List.Forall₂ ShowsValue exhibit.listing zs ∧ zs.Pairwise (· ≥ ·) := by
  refine ⟨fun places v => ?_, fun places {v w} h => rounded_mono places h, rounded_neg,
    rounded_rounded, fun o d report exhibit h he => Report.listed_values_descend h he⟩
  obtain ⟨k, hk, hrounded⟩ := exists_nearest places v
  exact ⟨k, hk, hrounded ▸ round_rat places v, round_rat places v⟩

theorem ramp_values_listed :
    (14 : ℚ) ≤ 25 ∧ rounded (-1) 14 ≤ rounded (-1) 25 ∧
    (Report.ofDraft (Problem.mergingOptions (1 / 2)) (Problem.ramp.map some)).map
      (fun r => r.exhibit.map (·.listing)) =
        .ok (some ["(0, 1)  Z = 2", "(2, 0)  Z = 2", "(0, 0)  Z = 0"]) ∧
    ∃ zs : List ℚ, List.Forall₂ ShowsValue ["(0, 1)  Z = 2", "(2, 0)  Z = 2", "(0, 0)  Z = 0"] zs ∧
      zs.Pairwise (· ≥ ·) := by
  obtain ⟨-, hmono, -, -, hlisted⟩ := rounding_keeps_order
  have hle : (14 : ℚ) ≤ 25 := by norm_num
  have hreport : (Report.ofDraft (Problem.mergingOptions (1 / 2)) (Problem.ramp.map some)).map
      (fun r => r.exhibit.map (·.listing)) =
        .ok (some ["(0, 1)  Z = 2", "(2, 0)  Z = 2", "(0, 0)  Z = 0"]) := by
    decide +kernel
  refine ⟨hle, hmono (-1) hle, hreport, ?_⟩
  cases h : Report.ofDraft (Problem.mergingOptions (1 / 2)) (Problem.ramp.map some) with
  | error fault =>
    rw [h] at hreport
    cases hreport
  | ok report =>
    rw [h] at hreport
    obtain ⟨exhibit, he, hlisting⟩ := Option.map_eq_some_iff.mp (Except.ok.inj hreport)
    rw [← hlisting]
    exact hlisted _ _ report exhibit h he

end Display

end CornerPoint
