import CornerPoint.Proofs.Hull.Chain
import Mathlib.Data.List.FinRange

/-!
The scan for a chain step by step. At each moment some of the points are on the chain and some are
still ahead; a step drops the last point of the chain or adds the next point to it. Points go by
their positions, so that copies of one point are told apart. Nothing is assumed of the turns: they
may be rounded, contradict each other or be no numbers at all.
-/
namespace CornerPoint.Hull

variable {α : Type} [Scalar α] {eps : α} {points : List (Point α)}

/-- Going over `a` from `o` to `b`, there is no left turn of more than `eps`. -/
def Flat (eps : α) (points : List (Point α)) (o a b : Fin points.length) : Prop :=
  Point.cross (points.get o) (points.get a) (points.get b) ≤ eps

/-- The points on the chain, latest first, and the points ahead. -/
structure Moment (points : List (Point α)) where
  back : List (Fin points.length)
  ahead : List (Fin points.length)

def Moment.chain (m : Moment points) : List (Point α) := m.back.map points.get

inductive Step (eps : α) : Moment points → Moment points → Prop where
  | drop {o a p : Fin points.length} {back ahead : List (Fin points.length)}
      (flat : Flat eps points o a p) : Step eps ⟨a :: o :: back, p :: ahead⟩ ⟨o :: back, p :: ahead⟩
  | add {p : Fin points.length} {back ahead : List (Fin points.length)}
      (turns : ∀ a o rest, back = a :: o :: rest → ¬Flat eps points o a p) :
      Step eps ⟨back, p :: ahead⟩ ⟨p :: back, ahead⟩

inductive Reached (eps : α) (points : List (Point α)) : Moment points → Prop where
  | start : Reached eps points ⟨[], List.finRange points.length⟩
  | step {m m' : Moment points} : Reached eps points m → Step eps m m' → Reached eps points m'

/-- At some moment the point at `i` is the last of the chain, with `o` before it, and it is dropped
because the turn to the next point `p` is flat. -/
def Dropped (eps : α) (points : List (Point α)) (o i p : Fin points.length) : Prop :=
  ∃ back ahead, Reached eps points ⟨i :: o :: back, p :: ahead⟩ ∧ Flat eps points o i p

section Run

variable {back ahead : List (Fin points.length)} {p : Fin points.length}

/-- The steps up to the one that adds `p` drop what the chain drops for it. -/
theorem Reached.retreat (h : Reached eps points ⟨back, p :: ahead⟩) :
    ∃ back', Reached eps points ⟨p :: back', ahead⟩ ∧
      back'.map points.get = Hull.retreat eps (points.get p) (back.map points.get) := by
  induction back with
  | nil => exact ⟨[], h.step (.add (by simp)), rfl⟩
  | cons a back ih =>
    cases back with
    | nil => exact ⟨[a], h.step (.add (by simp)), rfl⟩
    | cons o back =>
      by_cases hflat : Flat eps points o a p
      · obtain ⟨back', hreached, hback'⟩ := ih (h.step (.drop hflat))
        refine ⟨back', hreached, hback'.trans ?_⟩
        exact (if_pos hflat).symm
      · refine ⟨a :: o :: back, h.step (.add ?_), (if_neg hflat).symm⟩
        rintro a' o' rest he
        obtain ⟨rfl, rfl, rfl⟩ : a = a' ∧ o = o' ∧ back = rest := by simpa using he
        exact hflat

theorem Reached.run (h : Reached eps points ⟨back, ahead⟩) :
    ∃ back', Reached eps points ⟨back', []⟩ ∧ back'.map points.get =
      (ahead.map points.get).foldl (fun back p => p :: Hull.retreat eps p back)
        (back.map points.get) := by
  induction ahead generalizing back with
  | nil => exact ⟨back, h, rfl⟩
  | cons p ahead ih =>
    obtain ⟨between, hbetween, hretreat⟩ := h.retreat
    obtain ⟨back', hreached, hback'⟩ := ih hbetween
    refine ⟨back', hreached, ?_⟩
    rw [hback', List.map_cons, hretreat]
    rfl

end Run

section Invariant

variable {seen : List (Fin points.length)} {m m' : Moment points}

theorem chain_concat (points : List (Point α)) (q : Point α) :
    (chain eps (points ++ [q])).reverse = q :: retreat eps q (chain eps points).reverse := by
  simp [chain, List.foldl_append]

theorem retreat_eq_self {q : Point α} {back : List (Point α)}
    (h : ∀ a o rest, back = a :: o :: rest → ¬Point.cross o a q ≤ eps) :
    retreat eps q back = back := by
  fun_cases retreat eps q back with
  | case1 a o rest hflat => exact absurd hflat (h a o rest rfl)
  | case2 => rfl
  | case3 => rfl

/-- What is known of a moment at which the points `seen` have been added. -/
structure Account (eps : α) (seen : List (Fin points.length)) (m : Moment points) : Prop where
  split : seen ++ m.ahead = List.finRange points.length
  kept : m.back.reverse.Sublist seen
  dropped : ∀ i ∈ seen, i ∉ m.back → ∃ o p, i < p ∧ Dropped eps points o i p
  /-- The chain is what the next point has left so far of the chain of the points seen. -/
  remains : ∀ p ahead, m.ahead = p :: ahead →
    m.chain <:+ (chain eps (seen.map points.get)).reverse ∧
      retreat eps (points.get p) m.chain =
        retreat eps (points.get p) (chain eps (seen.map points.get)).reverse

theorem Account.lt (h : Account eps seen m) {i p : Fin points.length} (hi : i ∈ seen)
    (hp : p ∈ m.ahead) : i < p := by
  have hordered := List.pairwise_lt_finRange points.length
  rw [← h.split] at hordered
  exact (List.pairwise_append.mp hordered).2.2 i hi p hp

theorem account_start : Account eps [] (⟨[], List.finRange points.length⟩ : Moment points) where
  split := rfl
  kept := List.Sublist.refl []
  dropped := by simp
  remains p ahead _ := ⟨List.suffix_refl _, rfl⟩

/-- Whatever a step does to the chain, the account can be kept up. -/
theorem Account.step (h : Account eps seen m) (hm : Reached eps points m) (hstep : Step eps m m') :
    ∃ seen', Account eps seen' m' := by
  cases hstep with
  | @drop o a p back ahead hflat =>
    obtain ⟨hsuffix, hretreat⟩ := h.remains p ahead rfl
    have ha : a ∈ seen := h.kept.mem (by simp)
    refine ⟨seen, h.split, ?_, ?_, ?_⟩
    · exact ((List.sublist_cons_self a (o :: back)).reverse).trans h.kept
    · intro i hi hnot
      by_cases hia : i = a
      · exact ⟨o, p, h.lt hi (by simp), back, ahead, hia ▸ hm, hia ▸ hflat⟩
      · exact h.dropped i hi (by simpa [hia] using hnot)
    · rintro p' ahead' he
      obtain ⟨rfl, rfl⟩ := List.cons.inj he
      refine ⟨(List.suffix_cons _ _).trans hsuffix, ?_⟩
      rw [← hretreat]
      exact (if_pos hflat).symm
  | @add p back ahead hturns =>
    obtain ⟨-, hretreat⟩ := h.remains p ahead rfl
    have hchain : Moment.chain (⟨p :: back, ahead⟩ : Moment points) =
        (chain eps ((seen ++ [p]).map points.get)).reverse := by
      have hself : retreat eps (points.get p) (back.map points.get) = back.map points.get := by
        apply retreat_eq_self
        intro a' o' rest he
        obtain ⟨a, l, rfl, rfl, hl⟩ := List.map_eq_cons_iff.mp he
        obtain ⟨o, l', rfl, rfl, -⟩ := List.map_eq_cons_iff.mp hl
        exact hturns a o l' rfl
      rw [List.map_append, List.map_cons, List.map_nil, chain_concat, ← hretreat]
      exact congrArg (points.get p :: ·) hself.symm
    refine ⟨seen ++ [p], ?_, ?_, ?_, ?_⟩
    · simpa using h.split
    · rw [List.reverse_cons]
      exact h.kept.append (List.Sublist.refl [p])
    · intro i hi hnot
      obtain ⟨hip, hback⟩ := not_or.mp (mt List.mem_cons.mpr hnot)
      rcases List.mem_append.mp hi with hi | hi
      · exact h.dropped i hi hback
      · exact absurd (List.mem_singleton.mp hi) hip
    · intro p' ahead' _
      rw [hchain]
      exact ⟨List.suffix_refl _, rfl⟩

theorem exists_account (h : Reached eps points m) : ∃ seen, Account eps seen m := by
  induction h with
  | start => exact ⟨[], account_start⟩
  | step hm hstep ih =>
    obtain ⟨seen, hseen⟩ := ih
    exact hseen.step hm hstep

/-- The points seen are those at the positions before the next one. -/
theorem Account.map_seen (h : Account eps seen m) {p : Fin points.length}
    {ahead : List (Fin points.length)} (hahead : m.ahead = p :: ahead) :
    seen.map points.get = points.take p := by
  have hsplit : seen ++ p :: ahead = List.finRange points.length := hahead ▸ h.split
  have hlength : seen.length = p := by
    have hget : (List.finRange points.length)[seen.length]? = some p := by simp [← hsplit]
    obtain ⟨hlt, hp⟩ := List.getElem?_eq_some_iff.mp hget
    rw [List.getElem_finRange] at hp
    exact congrArg Fin.val hp
  have hpoints : seen.map points.get ++ (p :: ahead).map points.get = points := by
    rw [← List.map_append, hsplit, List.map_get_finRange]
  calc seen.map points.get
      = (seen.map points.get ++ (p :: ahead).map points.get).take p :=
        (List.take_left' (by simpa using hlength)).symm
    _ = points.take p := by rw [hpoints]

end Invariant

/-- Of three neighbours on a chain the middle one is never flat. -/
theorem chain_turns {o a b : Point α} (h : [o, a, b] <:+: chain eps points) :
    ¬Point.cross o a b ≤ eps := by
  have hturns : ∀ o a b, [b, a, o] <:+: (chain eps points).reverse → ¬Point.cross o a b ≤ eps := by
    refine chain_induction (motive := fun _ back => ∀ o a b, [b, a, o] <:+: back →
      ¬Point.cross o a b ≤ eps) (by simp) ?_
    intro seen p back _ hback o a b hinfix
    rcases List.infix_cons_iff.mp hinfix with hfirst | hlater
    · obtain ⟨rfl, rest, hrest⟩ := List.cons_prefix_cons.mp hfirst
      exact retreat_stops hrest.symm
    · exact hback o a b (hlater.trans (retreat_suffix eps p back).isInfix)
  exact hturns o a b (List.reverse_infix.mpr h)

/-- The positions of the points kept. -/
theorem exists_kept (eps : α) (points : List (Point α)) :
    ∃ kept : List (Fin points.length),
      kept.map points.get = chain eps points ∧ Reached eps points ⟨kept.reverse, []⟩ := by
  have hstart : Reached eps points ⟨[], List.finRange points.length⟩ := .start
  obtain ⟨back, hreached, hback⟩ := hstart.run
  refine ⟨back.reverse, ?_, by rwa [List.reverse_reverse]⟩
  rw [List.map_get_finRange] at hback
  rw [List.map_reverse, hback]
  rfl

/-- Whatever the turns are, a chain keeps some of the points in their order, the first one and the
last one among them, and no three neighbours on it are flat. Each point that is not kept was dropped
at a moment when the turn there, from the point that was then before it to one that comes later,
was flat. At each moment the chain is what remains of the chain of the points seen. -/
theorem chain_kept_and_dropped (eps : α) (points : List (Point α)) :
    (chain eps points).Sublist points ∧
    (chain eps points).head? = points.head? ∧
    (chain eps points).getLast? = points.getLast? ∧
    (∀ o a b, [o, a, b] <:+: chain eps points → ¬Point.cross o a b ≤ eps) ∧
    (∃ kept : List (Fin points.length),
      kept.map points.get = chain eps points ∧ kept.Pairwise (· < ·) ∧
      Reached eps points ⟨kept.reverse, []⟩ ∧
      ∀ i, i ∉ kept → ∃ o p, i < p ∧ Dropped eps points o i p) ∧
    (∀ (m : Moment points) p ahead, Reached eps points m → m.ahead = p :: ahead →
      m.chain <:+ (chain eps (points.take p)).reverse ∧
      retreat eps (points.get p) m.chain =
        retreat eps (points.get p) (chain eps (points.take p)).reverse) := by
  obtain ⟨kept, hkept, hreached⟩ := exists_kept eps points
  obtain ⟨seen, hseen⟩ := exists_account hreached
  -- At the end no point is ahead, so all of them have been seen.
  have hall : seen = List.finRange points.length := by simpa using hseen.split
  have hsub : kept.Sublist (List.finRange points.length) := by
    simpa [hall] using hseen.kept
  refine ⟨chain_sublist eps points, chain_ends.1, chain_ends.2, fun o a b => chain_turns,
    ⟨kept, hkept, (List.pairwise_lt_finRange _).sublist hsub, hreached, ?_⟩, ?_⟩
  · intro i hi
    exact hseen.dropped i (hall ▸ List.mem_finRange i) (by simpa using hi)
  · intro m p ahead hm hahead
    obtain ⟨before, hbefore⟩ := exists_account hm
    rw [← hbefore.map_seen hahead]
    exact hbefore.remains p ahead hahead

end CornerPoint.Hull
