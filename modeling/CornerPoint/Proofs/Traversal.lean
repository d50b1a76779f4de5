import Mathlib.Data.List.Forall2

/-!
Traversals that can fail. A traversal collects what its members give, in their order, and fails
exactly if some member does.
-/
namespace CornerPoint

variable {β γ δ ε : Type} {f : β → Except ε γ} {xs : List β} {ys : List γ}

theorem exists_of_bind_eq_ok {x : Except ε β} {g : β → Except ε γ} {c : γ}
    (h : x >>= g = .ok c) : ∃ b, x = .ok b ∧ g b = .ok c := by
  cases x with
  | error e => cases h
  | ok b => exact ⟨b, rfl, h⟩

theorem forall₂_of_mapM (h : xs.mapM f = .ok ys) : List.Forall₂ (fun x y => f x = .ok y) xs ys := by
  induction xs generalizing ys with
  | nil =>
    obtain rfl := Except.ok.inj h
    exact .nil
  | cons x xs ih =>
    rw [List.mapM_cons] at h
    obtain ⟨y, hy, h⟩ := exists_of_bind_eq_ok h
    obtain ⟨zs, hzs, h⟩ := exists_of_bind_eq_ok h
    obtain rfl := Except.ok.inj h
    exact .cons hy (ih hzs)

theorem mapM_of_forall₂ (h : List.Forall₂ (fun x y => f x = .ok y) xs ys) : xs.mapM f = .ok ys := by
  induction h with
  | nil => rfl
  | cons hxy _ ih =>
    rw [List.mapM_cons, hxy, ih]
    rfl

/-- Whatever a traversal collects, it got from some member. -/
theorem exists_of_mem_mapM (h : xs.mapM f = .ok ys) {y : γ} (hy : y ∈ ys) :
    ∃ x ∈ xs, f x = .ok y := by
  have hall := forall₂_of_mapM h
  clear h
  induction hall with
  | nil => cases hy
  | @cons x z xs ys hxz _ ih =>
    rcases List.mem_cons.mp hy with rfl | hy
    · exact ⟨x, List.mem_cons_self, hxz⟩
    · obtain ⟨w, hw, hwy⟩ := ih hy
      exact ⟨w, List.mem_cons_of_mem x hw, hwy⟩

theorem mapM_eq_ok {g : β → γ} (h : ∀ x, f x = .ok (g x)) (xs : List β) :
    xs.mapM f = .ok (xs.map g) := by
  obtain rfl : f = fun x => pure (g x) := funext h
  exact List.mapM_pure

theorem mapM_cases (f : β → Except ε γ) (xs : List β) :
    (∃ ys, xs.mapM f = .ok ys ∧ ∀ x ∈ xs, ∃ y, f x = .ok y) ∨
    ∃ e, xs.mapM f = .error e ∧ ∃ x ∈ xs, f x = .error e := by
  induction xs with
  | nil => exact Or.inl ⟨[], rfl, by simp⟩
  | cons x xs ih =>
    rw [List.mapM_cons]
    cases hx : f x with
    | error e => exact Or.inr ⟨e, rfl, x, List.mem_cons_self, hx⟩
    | ok y =>
      rcases ih with ⟨ys, hys, hall⟩ | ⟨e, he, z, hz, hfz⟩
      · exact Or.inl ⟨y :: ys, by rw [hys]; rfl, List.forall_mem_cons.mpr ⟨⟨y, hx⟩, hall⟩⟩
      · exact Or.inr ⟨e, by rw [he]; rfl, z, List.mem_cons_of_mem x hz, hfz⟩

/-- What is left of a traversal that may pass members over. -/
theorem filterMap_of_mapM {f : β → Except ε (Option γ)} {ys : List (Option γ)}
    (h : xs.mapM f = .ok ys) : ys.filterMap id = xs.filterMap fun x => (f x).toOption.join := by
  have hall := forall₂_of_mapM h
  clear h
  induction hall with
  | nil => rfl
  | @cons x y xs ys hxy _ ih =>
    have hx : (f x).toOption.join = y := by
      rw [hxy]
      rfl
    rw [List.filterMap_cons, List.filterMap_cons, ih, hx]
    rfl

/-- To fold what is read from the members of a list is to read them all and then to fold. -/
theorem foldlM_map_eq (f : β → Except ε γ) (step : δ → γ → δ) (d : δ) (xs : List β) :
    xs.foldlM (fun d x => (f x).map (step d)) d =
      (xs.mapM f).map fun ys => ys.foldl step d := by
  induction xs generalizing d with
  | nil => rfl
  | cons x xs ih =>
    rw [List.foldlM_cons, List.mapM_cons]
    cases f x with
    | error e => rfl
    | ok y =>
      change xs.foldlM (fun d x => (f x).map (step d)) (step d y) = _
      rw [ih]
      cases xs.mapM f with
      | error e => rfl
      | ok ys => rfl

end CornerPoint
