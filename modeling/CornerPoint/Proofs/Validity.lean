import CornerPoint.Problem
import Mathlib.Data.Nat.Notation

/-!
What it takes for a draft to be a problem. A coefficient is of no use if it is missing or not
finite; a draft without such coefficients is the problem it was entered as, and any other draft is
answered by the first part of it that has one.
-/
namespace CornerPoint

theorem Row.map_some_injective {κ : Type} : Function.Injective (map (some : κ → Option κ)) := by
  intro r s h
  have hc := congrArg complete? h
  rwa [complete?_map_some, complete?_map_some, Option.some.injEq] at hc

theorem Problem.map_some_injective {κ : Type} {p q : Problem κ} (h : p.map some = q.map some) :
    p = q := by
  obtain ⟨name, sense, ⟨a, b⟩, rows, x, y⟩ := p
  obtain ⟨name', sense', ⟨a', b'⟩, rows', x', y'⟩ := q
  simp only [map, Objective.map, Problem.mk.injEq, Objective.mk.injEq, Option.some.injEq] at h
  obtain ⟨rfl, rfl, ⟨rfl, rfl⟩, hrows, rfl, rfl⟩ := h
  rw [List.map_inj_right (fun r s hrs => Row.map_some_injective hrs)] at hrows
  rw [hrows]

/-- A row is blamed under the name it goes by. -/
theorem Defect.message_row {κ : Type} (k : ℕ) (r : Row κ) :
    (Defect.row k r.name).message = "Constraint " ++ r.label ("#" ++ toString (k + 1)) ++
      " is incomplete or has non-finite values." := by
  have hlabel : (r.name.filter (· ≠ "")).getD ("#" ++ toString (k + 1)) =
      r.label ("#" ++ toString (k + 1)) := by
    unfold Row.label
    cases r.name with
    | none => rfl
    | some name => by_cases h : name = "" <;> simp [Option.filter, h]
  rw [Defect.message, hlabel]

variable {α : Type} [Scalar α]

/-- Missing or not finite. -/
def Unusable (entry : Option α) : Prop := ∀ x, entry = some x → Scalar.isFinite x = false

def Objective.Defective (o : Objective (Option α)) : Prop := Unusable o.a ∨ Unusable o.b

def Row.Defective (r : Row (Option α)) : Prop := Unusable r.a ∨ Unusable r.b ∨ Unusable r.c

theorem finite?_eq_none {entry : Option α} : finite? entry = none ↔ Unusable entry := by
  cases entry <;> simp [finite?, Unusable, Option.filter]

theorem finite?_eq_some {entry : Option α} {x : α} :
    finite? entry = some x ↔ entry = some x ∧ Scalar.isFinite x = true := by
  rw [finite?, Option.filter_eq_some_iff]

namespace Objective

variable {o : Objective (Option α)} {objective : Objective α}

theorem check?_eq_none : o.check? = none ↔ o.Defective := by
  unfold check? complete? Defective
  rw [← finite?_eq_none, ← finite?_eq_none]
  simp only [map]
  cases finite? o.a <;> cases finite? o.b <;> simp

theorem eq_map_of_check? (h : o.check? = some objective) : o = objective.map some := by
  unfold check? complete? at h
  simp only [map] at h
  split at h
  · rename_i a b ha hb
    obtain rfl := Option.some.inj h
    rw [map, ← (finite?_eq_some.mp ha).1, ← (finite?_eq_some.mp hb).1]
  · cases h

end Objective

namespace Row

variable {r : Row (Option α)} {row : Row α}

theorem check?_eq_none : r.check? = none ↔ r.Defective := by
  unfold check? complete? Defective
  rw [← finite?_eq_none, ← finite?_eq_none, ← finite?_eq_none]
  simp only [map]
  cases finite? r.a <;> cases finite? r.b <;> cases finite? r.c <;> simp

theorem eq_map_of_check? (h : r.check? = some row) : r = row.map some := by
  unfold check? complete? at h
  simp only [map] at h
  split at h
  · rename_i a b c ha hb hc
    obtain rfl := Option.some.inj h
    rw [map, ← (finite?_eq_some.mp ha).1, ← (finite?_eq_some.mp hb).1, ← (finite?_eq_some.mp hc).1]
  · cases h

end Row

/-- The row `r` at position `k` has a defect, and no row before it has one. -/
structure FirstDefective (rows : List (Row (Option α))) (k : ℕ) (r : Row (Option α)) : Prop where
  here : rows[k]? = some r
  defective : r.Defective
  sound : ∀ j < k, ∀ s, rows[j]? = some s → ¬s.Defective

theorem FirstDefective.cons {rows : List (Row (Option α))} {k : ℕ} {r s : Row (Option α)}
    (h : FirstDefective rows k r) (hs : ¬s.Defective) : FirstDefective (s :: rows) (k + 1) r where
  here := h.here
  defective := h.defective
  sound := by
    rintro (_ | j) hj t ht
    · obtain rfl := Option.some.inj ht
      exact hs
    · exact h.sound j (Nat.lt_of_succ_lt_succ hj) t ht

theorem FirstDefective.unique {rows : List (Row (Option α))} {j k : ℕ} {r s : Row (Option α)}
    (h : FirstDefective rows j r) (h' : FirstDefective rows k s) : j = k ∧ r = s := by
  obtain hlt | rfl | hlt := Nat.lt_trichotomy j k
  · exact absurd h.defective (h'.sound j hlt r h.here)
  · exact ⟨rfl, Option.some.inj (h.here.symm.trans h'.here)⟩
  · exact absurd h'.defective (h.sound k hlt s h'.here)

/-- Rows either all pass, and are then read as they were entered, or stop at the first that does
not. -/
theorem checkRows_cases (start : ℕ) (entered : List (Row (Option α))) :
    (∃ rows, checkRows start entered = .ok rows ∧ entered = rows.map (Row.map some) ∧
      ∀ r ∈ entered, ¬r.Defective) ∨
    ∃ k r, checkRows start entered = .error (.row (start + k) r.name) ∧
      FirstDefective entered k r := by
  induction entered generalizing start with
  | nil => exact Or.inl ⟨[], rfl, rfl, by simp⟩
  | cons s entered ih =>
    cases hs : s.check? with
    | none =>
      refine Or.inr ⟨0, s, by simp [checkRows, hs], ⟨rfl, Row.check?_eq_none.mp hs, ?_⟩⟩
      intro j hj
      exact (Nat.not_lt_zero j hj).elim
    | some row =>
      have hsound : ¬s.Defective := by
        rw [← Row.check?_eq_none, hs]
        exact Option.some_ne_none row
      rcases ih (start + 1) with ⟨rows, hrows, heq, hall⟩ | ⟨k, r, herror, hfirst⟩
      · refine Or.inl ⟨row :: rows, by simp [checkRows, hs, hrows, Except.map], ?_, ?_⟩
        · rw [List.map_cons, ← heq, ← Row.eq_map_of_check? hs]
        · exact List.forall_mem_cons.mpr ⟨hsound, hall⟩
      · refine Or.inr ⟨k + 1, r, ?_, hfirst.cons hsound⟩
        have hindex : start + 1 + k = start + (k + 1) := by omega
        simp [checkRows, hs, herror, Except.map, hindex]

namespace Problem

/-- Some coefficient is missing or not finite. -/
def Defective (d : Draft α) : Prop :=
  d.objective.Defective ∨ ∃ r ∈ d.constraints, r.Defective

/-- The three outcomes of a check. -/
theorem check_cases (d : Draft α) :
    (∃ p, d.check = .ok p ∧ d = p.map some ∧ ¬d.Defective) ∨
    (d.check = .error .objective ∧ d.objective.Defective) ∨
    ∃ k r, d.check = .error (.row k r.name) ∧ ¬d.objective.Defective ∧
      FirstDefective d.constraints k r := by
  unfold check
  cases ho : d.objective.check? with
  | none => exact Or.inr (Or.inl ⟨rfl, Objective.check?_eq_none.mp ho⟩)
  | some objective =>
    have hsound : ¬d.objective.Defective := by
      rw [← Objective.check?_eq_none, ho]
      exact Option.some_ne_none objective
    rcases checkRows_cases 0 d.constraints with ⟨rows, hrows, heq, hall⟩ | ⟨k, r, herror, hfirst⟩
    · refine Or.inl ⟨{ d with objective, constraints := rows }, by simp [hrows, Except.map], ?_, ?_⟩
      · simp only [map]
        rw [← Objective.eq_map_of_check? ho, ← heq]
      · rintro (h | ⟨r, hr, h⟩)
        · exact hsound h
        · exact hall r hr h
    · refine Or.inr (Or.inr ⟨k, r, ?_, hsound, hfirst⟩)
      rw [Nat.zero_add] at herror
      simp [herror, Except.map]

variable {d : Draft α} {p : Problem α}

theorem eq_map_of_check (h : d.check = .ok p) : d = p.map some := by
  rcases d.check_cases with ⟨q, hq, heq, -⟩ | ⟨hq, -⟩ | ⟨k, r, hq, -⟩
  · obtain rfl : q = p := Except.ok.inj (hq.symm.trans h)
    exact heq
  · cases hq.symm.trans h
  · cases hq.symm.trans h

theorem exists_check_iff : (∃ p, d.check = .ok p) ↔ ¬d.Defective := by
  constructor
  · rintro ⟨p, hp⟩
    rcases d.check_cases with ⟨q, -, -, hsound⟩ | ⟨hq, -⟩ | ⟨k, r, hq, -⟩
    · exact hsound
    · cases hq.symm.trans hp
    · cases hq.symm.trans hp
  · intro hsound
    rcases d.check_cases with ⟨p, hp, -⟩ | ⟨-, hd⟩ | ⟨k, r, -, -, hfirst⟩
    · exact ⟨p, hp⟩
    · exact absurd (Or.inl hd) hsound
    · exact absurd (Or.inr ⟨r, List.mem_of_getElem? hfirst.here, hfirst.defective⟩) hsound

/-- A checked draft stays one when a row is dropped. -/
theorem check_without (h : d.check = .ok p) (k : ℕ) :
    (d.without k).check = .ok (p.without k) := by
  have hrest : ¬(d.without k).Defective := by
    have hsound := exists_check_iff.mp ⟨p, h⟩
    rintro (hobjective | ⟨r, hr, hrow⟩)
    · exact hsound (Or.inl hobjective)
    · exact hsound (Or.inr ⟨r, List.mem_of_mem_eraseIdx hr, hrow⟩)
  obtain ⟨q, hq⟩ := exists_check_iff.mpr hrest
  have hmap : q.map some = (p.without k).map some := by
    rw [← eq_map_of_check hq, eq_map_of_check h]
    simp only [without, map, List.eraseIdx_eq_take_drop_succ, List.map_append, List.map_take,
      List.map_drop]
  rw [hq, map_some_injective hmap]

end Problem

end CornerPoint
