import CornerPoint.Elimination
import CornerPoint.Proofs.Enumeration

/-!
The exact solver answers every linear programme correctly. Eliminating a variable keeps what is
left of every solution, and a solution of the smaller system extends to the larger one, so a system
is solvable exactly if nothing contradicts itself once all variables are gone. The cost is the last
variable, and its lower bounds are those of the programme.
-/
namespace CornerPoint

theorem forall_mem_ite {β : Type} {b : Bool} {j : β} {P : β → Prop} :
    (∀ i ∈ (if b then [j] else []), P i) ↔ (b → P j) := by
  cases b <;> simp

namespace Inequality

def Holds (i : Inequality) (v : List ℚ) : Prop := dot i.coefficients v ≤ i.bound

def Solves (rows : List Inequality) (v : List ℚ) : Prop := ∀ i ∈ rows, i.Holds v

/-- All inequalities are in the same number of variables. -/
def Sized (n : ℕ) (rows : List Inequality) : Prop := ∀ i ∈ rows, i.coefficients.length = n

variable {rows : List Inequality} {i u l : Inequality} {x : ℚ} {v : List ℚ} {n : ℕ}

theorem holds_nil (i : Inequality) : i.Holds [] ↔ 0 ≤ i.bound := by
  obtain ⟨coefficients, bound⟩ := i
  cases coefficients <;> simp [Holds, dot]

theorem holds_cons (i : Inequality) (x : ℚ) (v : List ℚ) :
    i.Holds (x :: v) ↔ i.head * x + dot i.tail v ≤ i.bound := by
  obtain ⟨coefficients, bound⟩ := i
  cases coefficients <;> simp [Holds, dot, head, tail]

theorem holds_cons_of_zero (h : i.head = 0) : i.Holds (x :: v) ↔ i.shorten.Holds v := by
  rw [holds_cons, h, zero_mul, zero_add]
  rfl

theorem holds_cons_of_pos (h : 0 < i.head) : i.Holds (x :: v) ↔ x ≤ limit v i := by
  rw [holds_cons, limit, le_div_iff₀ h]
  constructor <;> intro hx <;> linarith

theorem holds_cons_of_neg (h : i.head < 0) : i.Holds (x :: v) ↔ limit v i ≤ x := by
  rw [holds_cons, limit, div_le_iff_of_neg h]
  constructor <;> intro hx <;> linarith

theorem dot_zipWith (s t : ℚ) {a b : List ℚ} (h : a.length = b.length) (v : List ℚ) :
    dot (List.zipWith (fun x y => s * x + t * y) a b) v = s * dot a v + t * dot b v := by
  induction a generalizing b v with
  | nil =>
    obtain rfl : b = [] := List.length_eq_zero_iff.mp h.symm
    simp [dot]
  | cons x a ih =>
    cases b with
    | nil => simp at h
    | cons y b =>
      cases v with
      | nil => simp [dot]
      | cons z v =>
        simp only [List.zipWith_cons_cons, dot, ih (Nat.succ.inj h) v]
        ring

/-- Two bounds on a variable combine to the statement that they leave room for it. -/
theorem holds_combine (hu : 0 < u.head) (hl : l.head < 0) (hlen : u.tail.length = l.tail.length) :
    (combine u l).Holds v ↔ limit v l ≤ limit v u := by
  unfold combine Holds
  simp only [dot_zipWith _ _ hlen]
  rw [limit, limit, div_le_iff_of_neg hl, div_mul_eq_mul_div, div_le_iff₀ hu]
  constructor <;> intro h <;> linarith

theorem Sized.length_tail (h : Sized (n + 1) rows) (hi : i ∈ rows) : i.tail.length = n := by
  rw [tail, List.length_tail, h i hi]
  rfl

theorem Sized.eliminate (h : Sized (n + 1) rows) : Sized n (eliminate rows) := by
  intro i hi
  simp only [Inequality.eliminate, List.mem_append, List.mem_map, List.mem_flatMap,
    List.mem_filter] at hi
  rcases hi with ⟨j, ⟨hj, -⟩, rfl⟩ | ⟨u, ⟨hu, -⟩, l, ⟨hl, -⟩, rfl⟩
  · exact h.length_tail hj
  · simp only [combine, List.length_zipWith, h.length_tail hu, h.length_tail hl, min_self]

/-- What is left once a variable is eliminated: the rows without it, and that each lower bound on it
lies below each upper bound. -/
theorem solves_eliminate_iff (hs : Sized (n + 1) rows) : Solves (eliminate rows) v ↔
    (∀ i ∈ rows, i.head = 0 → i.shorten.Holds v) ∧
      ∀ u ∈ rows, 0 < u.head → ∀ l ∈ rows, l.head < 0 → limit v l ≤ limit v u := by
  have hcombine : ∀ u ∈ rows, 0 < u.head → ∀ l ∈ rows, l.head < 0 →
      ((combine u l).Holds v ↔ limit v l ≤ limit v u) := by
    intro u hu hup l hl hlo
    exact holds_combine hup hlo ((hs.length_tail hu).trans (hs.length_tail hl).symm)
  simp only [Solves, eliminate, List.mem_append, List.mem_map, List.mem_flatMap, List.mem_filter,
    decide_eq_true_eq, beq_iff_eq]
  constructor
  · intro h
    refine ⟨fun i hi hz => h _ (Or.inl ⟨i, ⟨hi, hz⟩, rfl⟩), ?_⟩
    intro u hu hup l hl hlo
    exact (hcombine u hu hup l hl hlo).mp (h _ (Or.inr ⟨u, ⟨hu, hup⟩, l, ⟨hl, hlo⟩, rfl⟩))
  · rintro ⟨hfree, hroom⟩ i (⟨j, ⟨hj, hz⟩, rfl⟩ | ⟨u, ⟨hu, hup⟩, l, ⟨hl, hlo⟩, rfl⟩)
    · exact hfree j hj hz
    · exact (hcombine u hu hup l hl hlo).mpr (hroom u hu hup l hl hlo)

theorem Solves.eliminate (hs : Sized (n + 1) rows) (h : Solves rows (x :: v)) :
    Solves (eliminate rows) v := by
  refine (solves_eliminate_iff hs).mpr ⟨fun i hi hz => (holds_cons_of_zero hz).mp (h i hi), ?_⟩
  intro u hu hup l hl hlo
  exact ((holds_cons_of_neg hlo).mp (h l hl)).trans ((holds_cons_of_pos hup).mp (h u hu))

/-- Of the members of a list, a fold keeps one that all others stand in the relation to. -/
theorem foldl_extreme {pick : ℚ → ℚ → ℚ} {R : ℚ → ℚ → Prop} (hrefl : ∀ a, R a a)
    (htrans : ∀ {a b c}, R a b → R b c → R a c)
    (hpick : ∀ a b, (pick a b = a ∨ pick a b = b) ∧ R a (pick a b) ∧ R b (pick a b))
    (first : ℚ) (rest : List ℚ) :
    rest.foldl pick first ∈ first :: rest ∧ ∀ w ∈ first :: rest, R w (rest.foldl pick first) := by
  induction rest generalizing first with
  | nil => simp [hrefl]
  | cons next rest ih =>
    obtain ⟨hchoice, hfirst, hnext⟩ := hpick first next
    obtain ⟨hmem, hall⟩ := ih (pick first next)
    have hpicked := hall _ (List.mem_cons_self ..)
    constructor
    · rcases List.mem_cons.mp hmem with hm | hm
      · rw [List.foldl_cons, hm]
        rcases hchoice with h | h <;> simp [h]
      · exact List.mem_cons_of_mem _ (List.mem_cons_of_mem _ hm)
    · intro w hw
      rcases List.mem_cons.mp hw with rfl | hw
      · exact htrans hfirst hpicked
      · rcases List.mem_cons.mp hw with rfl | hw
        · exact htrans hnext hpicked
        · exact hall w (List.mem_cons_of_mem _ hw)

theorem greatest?_eq_some {vs : List ℚ} {m : ℚ} (h : greatest? vs = some m) :
    m ∈ vs ∧ ∀ w ∈ vs, w ≤ m := by
  cases vs with
  | nil => simp [greatest?] at h
  | cons first rest =>
    obtain rfl := Option.some.inj h
    refine foldl_extreme (R := (· ≤ ·)) le_refl le_trans ?_ first rest
    intro a b
    split
    · rename_i hab
      exact ⟨Or.inr rfl, hab.le, le_rfl⟩
    · rename_i hab
      exact ⟨Or.inl rfl, le_rfl, not_lt.mp hab⟩

theorem least?_eq_some {vs : List ℚ} {m : ℚ} (h : least? vs = some m) :
    m ∈ vs ∧ ∀ w ∈ vs, m ≤ w := by
  cases vs with
  | nil => simp [least?] at h
  | cons first rest =>
    obtain rfl := Option.some.inj h
    refine foldl_extreme (R := (· ≥ ·)) le_refl ge_trans ?_ first rest
    intro a b
    split
    · rename_i hab
      exact ⟨Or.inr rfl, hab.le, le_rfl⟩
    · rename_i hab
      exact ⟨Or.inl rfl, le_rfl, not_lt.mp hab⟩

theorem greatest?_eq_none {vs : List ℚ} : greatest? vs = none ↔ vs = [] := by
  cases vs <;> simp [greatest?]

theorem least?_eq_none {vs : List ℚ} : least? vs = none ↔ vs = [] := by
  cases vs <;> simp [least?]

/-- With a lower bound, the value chosen is the greatest of the lower limits. -/
theorem choose_of_lower (h : ∃ l ∈ rows, l.head < 0) :
    (∃ l ∈ rows, l.head < 0 ∧ choose rows v = limit v l) ∧
      ∀ l ∈ rows, l.head < 0 → limit v l ≤ choose rows v := by
  have hmem : ∀ w, w ∈ (rows.filter (·.head < 0)).map (limit v) ↔
      ∃ l ∈ rows, l.head < 0 ∧ limit v l = w := by
    simp [and_assoc]
  cases hg : greatest? ((rows.filter (·.head < 0)).map (limit v)) with
  | none =>
    obtain ⟨l, hl, hlo⟩ := h
    have hin := (hmem _).mpr ⟨l, hl, hlo, rfl⟩
    simp [greatest?_eq_none.mp hg] at hin
  | some m =>
    have hchoose : choose rows v = m := by simp [choose, hg]
    obtain ⟨hm, hmax⟩ := greatest?_eq_some hg
    rw [hchoose]
    constructor
    · obtain ⟨l, hl, hlo, rfl⟩ := (hmem m).mp hm
      exact ⟨l, hl, hlo, rfl⟩
    · intro l hl hlo
      exact hmax _ ((hmem _).mpr ⟨l, hl, hlo, rfl⟩)

/-- Without a lower bound, the value chosen is below all upper limits. -/
theorem choose_of_no_lower (h : ¬ ∃ l ∈ rows, l.head < 0) (hu : u ∈ rows) (hup : 0 < u.head) :
    choose rows v ≤ limit v u := by
  have hnone : (rows.filter (·.head < 0)).map (limit v) = [] := by
    rw [List.map_eq_nil_iff, List.filter_eq_nil_iff]
    intro l hl hlo
    exact h ⟨l, hl, by simpa using hlo⟩
  have hin : limit v u ∈ (rows.filter (0 < ·.head)).map (limit v) :=
    List.mem_map_of_mem (List.mem_filter.mpr ⟨hu, by simpa using hup⟩)
  cases hl : least? ((rows.filter (0 < ·.head)).map (limit v)) with
  | none => simp [least?_eq_none.mp hl] at hin
  | some m =>
    have hchoose : choose rows v = m := by simp [choose, hnone, greatest?, hl]
    rw [hchoose]
    exact (least?_eq_some hl).2 _ hin

/-- A solution of the smaller system extends to one of the larger. -/
theorem Solves.extend (hs : Sized (n + 1) rows) (h : Solves (Inequality.eliminate rows) v) :
    Solves rows (choose rows v :: v) := by
  obtain ⟨hfree, hroom⟩ := (solves_eliminate_iff hs).mp h
  intro i hi
  rcases lt_trichotomy i.head 0 with hlo | hz | hup
  · exact (holds_cons_of_neg hlo).mpr ((choose_of_lower ⟨i, hi, hlo⟩).2 i hi hlo)
  · exact (holds_cons_of_zero hz).mpr (hfree i hi hz)
  · refine (holds_cons_of_pos hup).mpr ?_
    by_cases hlower : ∃ l ∈ rows, l.head < 0
    · obtain ⟨l, hl, hlo, he⟩ := (choose_of_lower (v := v) hlower).1
      rw [he]
      exact hroom i hi hup l hl hlo
    · exact choose_of_no_lower hlower hi hup

/-- With a lower bound, no solution has a smaller first value than the one chosen. -/
theorem Solves.choose_le (h : Solves rows (x :: v)) (hlower : ∃ l ∈ rows, l.head < 0) :
    choose rows v ≤ x := by
  obtain ⟨l, hl, hlo, he⟩ := (choose_of_lower (v := v) hlower).1
  rw [he]
  exact (holds_cons_of_neg hlo).mp (h l hl)

/-- Without a lower bound, the first value may be made smaller. -/
theorem Solves.lower (h : Solves rows (x :: v)) (hlower : ¬ ∃ l ∈ rows, l.head < 0) {y : ℚ}
    (hy : y ≤ x) : Solves rows (y :: v) := by
  intro i hi
  have hx := (holds_cons i x v).mp (h i hi)
  have hhead : 0 ≤ i.head := not_lt.mp fun hlo => hlower ⟨i, hi, hlo⟩
  have hle := mul_le_mul_of_nonneg_left hy hhead
  exact (holds_cons i y v).mpr (by linarith)

theorem solution?_succ_eq_some (h : solution? (n + 1) rows = some v) :
    ∃ others, solution? n (Inequality.eliminate rows) = some others ∧
      v = choose rows others :: others := by
  obtain ⟨others, ho, rfl⟩ := Option.map_eq_some_iff.mp h
  exact ⟨others, ho, rfl⟩

theorem solves_of_solution? (hs : Sized n rows) (h : solution? n rows = some v) :
    Solves rows v := by
  induction n generalizing rows v with
  | zero =>
    simp only [solution?] at h
    split at h
    · rename_i hall
      obtain rfl : [] = v := Option.some.inj h
      intro i hi
      exact (holds_nil i).mpr (by simpa using List.all_eq_true.mp hall i hi)
    · simp at h
  | succ n ih =>
    obtain ⟨others, ho, rfl⟩ := solution?_succ_eq_some h
    exact (ih hs.eliminate ho).extend hs

theorem not_solves_of_solution? (hs : Sized n rows) (h : solution? n rows = none)
    (hv : v.length = n) : ¬ Solves rows v := by
  induction n generalizing rows v with
  | zero =>
    intro hsolves
    obtain rfl : v = [] := List.length_eq_zero_iff.mp hv
    have hall : rows.all (0 ≤ ·.bound) = true := by
      rw [List.all_eq_true]
      intro i hi
      simpa using (holds_nil i).mp (hsolves i hi)
    simp [solution?, hall] at h
  | succ n ih =>
    intro hsolves
    cases v with
    | nil => simp at hv
    | cons x v =>
      exact ih hs.eliminate (Option.map_eq_none_iff.mp h) (Nat.succ.inj hv)
        (hsolves.eliminate hs)

/-- Of three variables, the last one is chosen in a system in which it is the only one. -/
theorem solution?_three_eq_some (h : solution? 3 rows = some v) :
    ∃ y x, v = [y, x, choose (Inequality.eliminate (Inequality.eliminate rows)) []] := by
  obtain ⟨others, h₂, rfl⟩ := solution?_succ_eq_some h
  obtain ⟨others, h₁, rfl⟩ := solution?_succ_eq_some h₂
  obtain ⟨others, h₀, rfl⟩ := solution?_succ_eq_some h₁
  simp only [solution?] at h₀
  split at h₀
  · obtain rfl : [] = others := Option.some.inj h₀
    exact ⟨_, _, rfl⟩
  · simp at h₀

theorem Solves.last (hs : Sized 3 rows) {y x z : ℚ} (h : Solves rows [y, x, z]) :
    Solves (Inequality.eliminate (Inequality.eliminate rows)) [z] :=
  (h.eliminate hs).eliminate hs.eliminate

theorem Solves.exists_others (hs : Sized 3 rows) {z : ℚ}
    (h : Solves (Inequality.eliminate (Inequality.eliminate rows)) [z]) :
    ∃ y x, Solves rows [y, x, z] :=
  ⟨_, _, (h.extend hs.eliminate).extend hs⟩

end Inequality

namespace LinearProgram

variable {lp : LinearProgram ℚ} {q : Point ℚ}

structure Admits (lp : LinearProgram ℚ) (q : Point ℚ) : Prop where
  upper : ∀ h ∈ lp.matrices.upper, h.a * q.x + h.b * q.y ≤ h.c
  equal : ∀ l ∈ lp.matrices.equal, l.Contains q
  nonnegX : lp.nonnegX → 0 ≤ q.x
  nonnegY : lp.nonnegY → 0 ≤ q.y

def Optimal (lp : LinearProgram ℚ) (q : Point ℚ) : Prop :=
  lp.Admits q ∧ ∀ v, lp.Admits v → lp.cost.value q ≤ lp.cost.value v

def Unbounded (lp : LinearProgram ℚ) : Prop :=
  ∀ bound, ∃ q, lp.Admits q ∧ lp.cost.value q < bound

theorem Optimal.not_unbounded (h : lp.Optimal q) : ¬ lp.Unbounded := by
  intro hu
  obtain ⟨v, hv, hlt⟩ := hu (lp.cost.value q)
  exact (h.2 v hv).not_gt hlt

/-- The variables of the system are the coordinates, the second one first, and the cost. -/
theorem solves_inequalities_iff (lp : LinearProgram ℚ) (q : Point ℚ) (cost : ℚ) :
    Inequality.Solves lp.inequalities [q.y, q.x, cost] ↔
      lp.Admits q ∧ cost = lp.cost.value q := by
  have hrow (b a c r : ℚ) : (⟨[b, a, c], r⟩ : Inequality).Holds [q.y, q.x, cost] ↔
      b * q.y + a * q.x + c * cost ≤ r := by
    simp only [Inequality.Holds, Inequality.dot, add_zero, ← add_assoc]
  have hcost : lp.cost.value q = lp.cost.a * q.x + lp.cost.b * q.y := rfl
  simp only [Inequality.Solves, inequalities, List.forall_mem_append, List.forall_mem_map,
    forall_mem_ite, List.forall_mem_cons, hrow, hcost]
  constructor
  · rintro ⟨⟨⟨⟨⟨hupper, hle⟩, hge⟩, hx⟩, hy⟩, hlo, hhi, -⟩
    refine ⟨⟨?_, ?_, ?_, ?_⟩, by linarith⟩
    · intro h hh
      linarith [hupper h hh]
    · intro l hl
      unfold Line.Contains
      linarith [hle l hl, hge l hl]
    · intro hn
      linarith [hx hn]
    · intro hn
      linarith [hy hn]
  · rintro ⟨⟨hupper, hequal, hx, hy⟩, rfl⟩
    have hline : ∀ l ∈ lp.matrices.equal, l.a * q.x + l.b * q.y = l.c := hequal
    refine ⟨⟨⟨⟨⟨?_, ?_⟩, ?_⟩, ?_⟩, ?_⟩, by linarith, by linarith, by simp⟩
    · intro h hh
      linarith [hupper h hh]
    · intro l hl
      linarith [hline l hl]
    · intro l hl
      linarith [hline l hl]
    · intro hn
      linarith [hx hn]
    · intro hn
      linarith [hy hn]

theorem sized_inequalities (lp : LinearProgram ℚ) : Inequality.Sized 3 lp.inequalities := by
  simp [Inequality.Sized, inequalities, or_imp, forall_and]

end LinearProgram

/-- What a solver has to answer: 0 with the least cost and a point that has it exactly if there is
one, 2 exactly if no point is admitted, and 3 exactly if the cost has no lower bound. -/
structure Reply.Answers (reply : Reply) (lp : LinearProgram ℚ) : Prop where
  optimal : reply.code = 0 ↔ ∃ q, lp.Optimal q
  found : reply.code = 0 → ∃ q, lp.Optimal q ∧ reply.found = some (lp.cost.value q, q)
  infeasible : reply.code = 2 ↔ ¬ ∃ q, lp.Admits q
  unbounded : reply.code = 3 ↔ lp.Unbounded

namespace LinearProgram

variable {lp : LinearProgram ℚ} {q : Point ℚ}

theorem answers_optimal (h : lp.Optimal q) :
    (⟨0, some (lp.cost.value q, q)⟩ : Reply).Answers lp where
  optimal := ⟨fun _ => ⟨q, h⟩, fun _ => rfl⟩
  found _ := ⟨q, h, rfl⟩
  infeasible := ⟨fun hc => by simp at hc, fun hn => (hn ⟨q, h.1⟩).elim⟩
  unbounded := ⟨fun hc => by simp at hc, fun hu => (h.not_unbounded hu).elim⟩

theorem answers_infeasible (h : ¬ ∃ q, lp.Admits q) : (⟨2, none⟩ : Reply).Answers lp where
  optimal := ⟨fun hc => by simp at hc, fun ⟨q, hq⟩ => (h ⟨q, hq.1⟩).elim⟩
  found hc := by simp at hc
  infeasible := ⟨fun _ => h, fun _ => rfl⟩
  unbounded := by
    refine ⟨fun hc => by simp at hc, fun hu => ?_⟩
    obtain ⟨q, hq, -⟩ := hu 0
    exact (h ⟨q, hq⟩).elim

theorem answers_unbounded (h : lp.Unbounded) : (⟨3, none⟩ : Reply).Answers lp where
  optimal := ⟨fun hc => by simp at hc, fun ⟨q, hq⟩ => (hq.not_unbounded h).elim⟩
  found hc := by simp at hc
  infeasible := by
    refine ⟨fun hc => by simp at hc, fun hn => ?_⟩
    obtain ⟨q, hq, -⟩ := h 0
    exact (hn ⟨q, hq⟩).elim
  unbounded := ⟨fun _ => h, fun _ => rfl⟩

/-- The exact solver is right about every programme. -/
theorem solve_answers (lp : LinearProgram ℚ) : lp.solve.Answers lp := by
  have hmeans := lp.solves_inequalities_iff
  have hsized := lp.sized_inequalities
  simp only [solve]
  generalize lp.inequalities = rows at hmeans hsized
  generalize hv : Inequality.solution? 3 rows = found
  cases found with
  | none =>
    refine answers_infeasible ?_
    rintro ⟨q, hq⟩
    exact Inequality.not_solves_of_solution? hsized hv rfl ((hmeans q _).mpr ⟨hq, rfl⟩)
  | some v =>
    have hsolves := Inequality.solves_of_solution? hsized hv
    obtain ⟨y, x, rfl⟩ := Inequality.solution?_three_eq_some hv
    obtain ⟨hq, hcost⟩ := (hmeans ⟨x, y⟩ _).mp hsolves
    simp only [List.any_eq_true, decide_eq_true_eq]
    split
    · rename_i hlower
      rw [hcost]
      refine answers_optimal ⟨hq, fun v hv => ?_⟩
      rw [← hcost]
      exact (((hmeans v _).mpr ⟨hv, rfl⟩).last hsized).choose_le hlower
    · rename_i hlower
      refine answers_unbounded fun bound => ?_
      have hlow := (hsolves.last hsized).lower hlower (min_le_left _ (bound - 1))
      obtain ⟨y', x', hall⟩ := hlow.exists_others hsized
      obtain ⟨hq', hcost'⟩ := (hmeans ⟨x', y'⟩ _).mp hall
      refine ⟨_, hq', ?_⟩
      rw [← hcost']
      exact (min_le_right _ _).trans_lt (sub_one_lt bound)

end LinearProgram

end CornerPoint
