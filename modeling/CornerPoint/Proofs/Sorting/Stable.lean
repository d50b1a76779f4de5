import CornerPoint.Proofs.Sorting.Merge
import CornerPoint.Sorting

/-!
The sort is stable: whatever runs a list falls into and in whatever order they are merged, the
result is in order and tied members keep their places.
-/
namespace CornerPoint.Sorting

variable {β : Type} {lt : β → β → Bool}

theorem StableSort.perm (ho : WeakOrder lt) {xs ys : List β} (h : StableSort lt xs ys) :
    ys.Perm xs :=
  h.ties.perm ho

/-- How a merge cuts the right run: what precedes the last member `a` of the left one, and what is
in place already. -/
theorem right_cut (ho : WeakOrder lt) {right : List β} (hr : Sorted lt right) (a : β) :
    (∀ y ∈ right.take (right.length - gallop .back (fun x => !lt x a) right.reverse), lt y a) ∧
    (∀ y ∈ right.drop (right.length - gallop .back (fun x => !lt x a) right.reverse),
      lt y a = false) := by
  have hc : Cleft (fun x => !lt x a) right.reverse := Sorted.cleft_le ho.flip hr.flip a
  constructor
  · intro y hy
    rw [← List.mem_reverse, ← List.drop_reverse, drop_gallop .back hc] at hy
    simpa using hc.dropWhile_fails y hy
  · intro y hy
    rw [← List.mem_reverse, ← List.take_reverse, take_gallop .back hc] at hy
    simpa using List.mem_takeWhile_imp hy

theorem left_cut (ho : WeakOrder lt) {left : List β} (hl : Sorted lt left) (b : β) :
    (∀ x ∈ left.take (gallop .front (fun x => !lt b x) left), lt b x = false) ∧
    (∀ x ∈ left.drop (gallop .front (fun x => !lt b x) left), lt b x) := by
  have hc : Cleft (fun x => !lt b x) left := Sorted.cleft_le ho hl b
  constructor
  · intro x hx
    rw [take_gallop .front hc] at hx
    simpa using List.mem_takeWhile_imp hx
  · intro x hx
    rw [drop_gallop .front hc] at hx
    simpa using hc.dropWhile_fails x hx

theorem Sorted.le_getLast {xs : List β} {a : β} (ho : WeakOrder lt) (h : Sorted lt xs)
    (ha : xs.getLast? = some a) : ∀ x ∈ xs, lt a x = false := by
  intro x hx
  obtain ⟨ys, rfl⟩ := List.getLast?_eq_some_iff.mp ha
  rcases List.mem_append.mp hx with hx | hx
  · exact (List.pairwise_append.mp h).2.2 x hx a (by simp)
  · obtain rfl : x = a := by simpa using hx
    exact ho.irrefl x

theorem Sorted.head_le {xs : List β} {b : β} (ho : WeakOrder lt) (h : Sorted lt xs)
    (hb : xs.head? = some b) : ∀ y ∈ xs, lt y b = false := by
  intro y hy
  obtain ⟨ys, rfl⟩ := List.head?_eq_some_iff.mp hb
  rcases List.mem_cons.mp hy with rfl | hy
  · exact ho.irrefl y
  · exact (List.pairwise_cons.mp h).1 y hy

section Cuts

variable {left right : List β} {a b : β} {k n : ℕ}

theorem interlocked_of_cuts (hl : Sorted lt left) (hr : Sorted lt right)
    (ha : left.getLast? = some a) (hb : right.head? = some b)
    (hloose : ∀ x ∈ left.drop k, lt b x) (hinner : ∀ y ∈ right.take n, lt y a) :
    Interlocked lt (left.drop k) (right.take n) := by
  refine ⟨hl.sublist (List.drop_sublist k left), hr.sublist (List.take_sublist n right), ?_, ?_⟩
  · intro c hc
    rw [List.head?_take, hb] at hc
    split at hc
    · simp at hc
    · obtain rfl : b = c := by simpa using hc
      exact hloose
  · intro c hc
    rw [List.getLast?_drop, ha] at hc
    split at hc
    · simp at hc
    · obtain rfl : a = c := by simpa using hc
      exact hinner

/-- What was in place already stays around the merged part. -/
theorem StableSort.splice (ho : WeakOrder lt) {merged : List β} (hl : Sorted lt left)
    (hr : Sorted lt right) (ha : left.getLast? = some a) (hb : right.head? = some b)
    (hsettled : ∀ x ∈ left.take k, lt b x = false) (houter : ∀ y ∈ right.drop n, lt y a = false)
    (h : StableSort lt (left.drop k ++ right.take n) merged) :
    StableSort lt (left ++ right) (left.take k ++ merged ++ right.drop n) := by
  have hla := hl.le_getLast ho ha
  have hrb := hr.head_le ho hb
  have hls := List.pairwise_append.mp ((List.take_append_drop k left).symm ▸ hl)
  have hrs := List.pairwise_append.mp ((List.take_append_drop n right).symm ▸ hr)
  have hmem : ∀ m ∈ merged, m ∈ left.drop k ∨ m ∈ right.take n := fun m hm =>
    List.mem_append.mp ((h.perm ho).mem_iff.mp hm)
  constructor
  · refine List.pairwise_append.mpr
      ⟨List.pairwise_append.mpr ⟨hls.1, h.sorted, ?_⟩, hrs.2.1, ?_⟩
    · intro x hx m hm
      rcases hmem m hm with hm | hm
      · exact hls.2.2 x hx m hm
      · exact ho.le_trans (hsettled x hx) (hrb m (List.mem_of_mem_take hm))
    · intro x hx y hy
      rcases List.mem_append.mp hx with hx | hx
      · exact ho.le_trans (hsettled x hx) (hrb y (List.mem_of_mem_drop hy))
      · rcases hmem x hx with hx | hx
        · exact ho.le_trans (hla x (List.mem_of_mem_drop hx)) (houter y hy)
        · exact hrs.2.2 x hx y hy
  · have ht := ((SameTies.refl lt (left.take k)).append h.ties).append
      (SameTies.refl lt (right.drop n))
    have hall : left.take k ++ (left.drop k ++ right.take n) ++ right.drop n = left ++ right := by
      rw [← List.append_assoc, List.take_append_drop, List.append_assoc, List.take_append_drop]
    rwa [hall] at ht

end Cuts

theorem mergeRuns_stable (ho : WeakOrder lt) (patience : ℕ) {left right : List β}
    (hl : Sorted lt left) (hr : Sorted lt right) :
    StableSort lt (left ++ right) (mergeRuns lt patience left right).1 := by
  unfold mergeRuns
  split
  · rename_i hb
    obtain rfl : right = [] := by simpa using hb
    exact ⟨by simpa using hl, by simpa using SameTies.refl lt left⟩
  rename_i b hb
  simp only
  split
  · rename_i ha
    obtain rfl : left = [] := by simpa using ha
    exact ⟨hr, SameTies.refl lt right⟩
  rename_i a ha
  obtain ⟨hsettled, hloose⟩ := left_cut ho hl b
  obtain ⟨hinner, houter⟩ := right_cut ho hr a
  generalize gallop .front (fun x => !lt b x) left = k at *
  generalize right.length - gallop .back (fun x => !lt x a) right.reverse = n at *
  split
  · rename_i hempty
    refine ⟨List.pairwise_append.mpr ⟨hl, hr, ?_⟩, SameTies.refl lt _⟩
    intro x hx y hy
    rw [← List.take_append_drop k left, List.isEmpty_iff.mp hempty, List.append_nil] at hx
    exact ho.le_trans (hsettled x hx) (hr.head_le ho hb y hy)
  split
  · rename_i hempty
    refine ⟨List.pairwise_append.mpr ⟨hl, hr, ?_⟩, SameTies.refl lt _⟩
    intro x hx y hy
    rw [← List.take_append_drop n right, List.isEmpty_iff.mp hempty, List.nil_append] at hy
    exact ho.le_trans (hl.le_getLast ho ha x hx) (houter y hy)
  have hlock := interlocked_of_cuts hl hr ha hb hloose hinner
  apply StableSort.splice ho hl hr ha hb hsettled houter
  split
  · exact hlock.mergeFront ho patience
  · exact hlock.mergeBack ho patience

theorem insert_stable (ho : WeakOrder lt) (b : β) {xs : List β} (hs : Sorted lt xs) :
    StableSort lt (xs ++ [b]) (insert lt b xs) := by
  have hc : Cleft (fun x => !lt b x) xs := Sorted.cleft_le ho hs b
  have hplace : bisect .front (fun x => !lt b x) xs 0 xs.length =
      gallop .front (fun x => !lt b x) xs := by
    rw [gallop_eq .front hc]
    exact bisect_eq .front hc.passes_at _ _ (Nat.zero_le _) (List.takeWhile_prefix _).length_le
  obtain ⟨hbefore, hafter⟩ := left_cut ho hs b
  simp only [insert, hplace]
  generalize gallop .front (fun x => !lt b x) xs = k at *
  have hparts := List.pairwise_append.mp ((List.take_append_drop k xs).symm ▸ hs)
  constructor
  · refine List.pairwise_append.mpr
      ⟨hparts.1, List.pairwise_cons.mpr ⟨fun x hx => ho.asymm (hafter x hx), hparts.2.1⟩, ?_⟩
    intro x hx y hy
    rcases List.mem_cons.mp hy with rfl | hy
    · exact hbefore x hx
    · exact hparts.2.2 x hx y hy
  · have ht := (SameTies.refl lt (xs.take k)).append (SameTies.swap ho hafter)
    rwa [← List.append_assoc, List.take_append_drop] at ht

theorem splitRun_pairwise (follows : β → β → Bool) {R : β → β → Prop}
    (htrans : ∀ {a b c}, R a b → R b c → R a c) (hR : ∀ a b, follows a b → R a b) (last : β)
    (xs : List β) : (last :: (splitRun follows last xs).1).Pairwise R := by
  induction xs generalizing last with
  | nil => simp [splitRun]
  | cons b rest ih =>
    simp only [splitRun]
    split
    · rename_i hb
      refine List.pairwise_cons.mpr ⟨?_, ih b⟩
      intro c hc
      rcases List.mem_cons.mp hc with rfl | hc
      · exact hR last c hb
      · exact htrans (hR last b hb) ((List.pairwise_cons.mp (ih b)).1 c hc)
    · simp

/-- A strictly descending stretch holds no ties, so that turning it round is stable. -/
theorem sameTies_reverse (ho : WeakOrder lt) {xs : List β} (h : xs.Pairwise fun a b => lt b a) :
    SameTies lt xs.reverse xs := by
  induction xs with
  | nil => exact SameTies.refl lt []
  | cons a xs ih =>
    obtain ⟨ha, hs⟩ := List.pairwise_cons.mp h
    rw [List.reverse_cons]
    refine ((ih hs).append (SameTies.refl lt [a])).trans ?_
    intro c
    by_cases hc : tied lt c a
    · have hx : xs.filter (tied lt c) = [] := by
        apply List.filter_eq_nil_iff.mpr
        intro x hx htx
        have := ho.not_tied_of_lt (ha x hx) htx
        simp [hc] at this
      simp [hc, hx]
    · simp [hc]

theorem headRun_stable (ho : WeakOrder lt) (xs : List β) :
    ∃ taken, xs = taken ++ (headRun lt xs).2 ∧ StableSort lt taken (headRun lt xs).1 := by
  match xs with
  | [] => exact ⟨[], rfl, List.Pairwise.nil, SameTies.refl lt _⟩
  | [a] => exact ⟨[a], rfl, List.pairwise_singleton _ _, SameTies.refl lt _⟩
  | a :: b :: rest =>
    simp only [headRun]
    split
    · rename_i hba
      have hrun := splitRun_pairwise (fun p q => lt q p) (R := fun p q => lt q p)
        (fun hab hbc => ho.trans hbc hab) (fun _ _ h => h) b rest
      have hall : (a :: b :: (splitRun (fun p q => lt q p) b rest).1).Pairwise
          fun p q => lt q p := by
        refine List.pairwise_cons.mpr ⟨?_, hrun⟩
        intro c hc
        rcases List.mem_cons.mp hc with rfl | hc
        · exact hba
        · exact ho.trans ((List.pairwise_cons.mp hrun).1 c hc) hba
      refine ⟨a :: b :: (splitRun (fun p q => lt q p) b rest).1, ?_, ?_, sameTies_reverse ho hall⟩
      · simp [splitRun_append]
      · exact List.pairwise_reverse.mpr (hall.imp fun h => ho.asymm h)
    · rename_i hba
      have hrun := splitRun_pairwise (fun p q => !lt q p) (R := fun p q => lt q p = false)
        ho.le_trans (fun _ _ h => by simpa using h) b rest
      refine ⟨a :: b :: (splitRun (fun p q => !lt q p) b rest).1, ?_, ?_, SameTies.refl lt _⟩
      · simp [splitRun_append]
      · refine List.pairwise_cons.mpr ⟨?_, hrun⟩
        intro c hc
        rcases List.mem_cons.mp hc with rfl | hc
        · simpa using hba
        · exact ho.le_trans (by simpa using hba) ((List.pairwise_cons.mp hrun).1 c hc)

theorem insertAll_stable (ho : WeakOrder lt) (bs : List β) {taken run : List β}
    (h : StableSort lt taken run) :
    StableSort lt (taken ++ bs) (bs.foldl (fun sorted b => insert lt b sorted) run) := by
  induction bs generalizing taken run with
  | nil => simpa using h
  | cons b bs ih =>
    have hb := insert_stable ho b h.sorted
    have hb' : StableSort lt (taken ++ [b]) (insert lt b run) :=
      ⟨hb.sorted, hb.ties.trans (h.ties.append (SameTies.refl lt [b]))⟩
    simpa using ih hb'

theorem nextRun_stable (ho : WeakOrder lt) (least : ℕ) (xs : List β) :
    ∃ taken, xs = taken ++ (nextRun lt least xs).2 ∧
      StableSort lt taken (nextRun lt least xs).1 := by
  obtain ⟨taken, hxs, hs⟩ := headRun_stable ho xs
  refine ⟨taken ++ (headRun lt xs).2.take (least - (headRun lt xs).1.length), ?_,
    insertAll_stable ho _ hs⟩
  conv => lhs; rw [hxs]
  simp [nextRun]

theorem runs_stable (ho : WeakOrder lt) (least : ℕ) (xs : List β) :
    (∀ run ∈ runs lt least xs, Sorted lt run) ∧ SameTies lt (runs lt least xs).flatten xs := by
  fun_induction runs lt least xs with
  | case1 xs hempty =>
    obtain rfl : xs = [] := by simpa using hempty
    exact ⟨by simp, SameTies.refl lt _⟩
  | case2 xs hempty ih =>
    obtain ⟨taken, hxs, hs⟩ := nextRun_stable ho least xs
    refine ⟨?_, ?_⟩
    · intro run hrun
      rcases List.mem_cons.mp hrun with rfl | hrun
      · exact hs.sorted
      · exact ih.1 run hrun
    · have ht := hs.ties.append ih.2
      rw [← hxs] at ht
      simpa using ht

/-- Runs that wait, the latest first: each is sorted, and together they hold what `taken` holds. -/
structure Waiting (lt : β → β → Bool) (taken : List β) (waiting : List (List β)) : Prop where
  sorted : ∀ run ∈ waiting, Sorted lt run
  ties : SameTies lt waiting.reverse.flatten taken

theorem Waiting.push {taken run fresh : List β} {waiting : List (List β)}
    (h : Waiting lt taken waiting) (hs : Sorted lt run) (ht : SameTies lt run fresh) :
    Waiting lt (taken ++ fresh) (run :: waiting) := by
  constructor
  · intro r hr
    rcases List.mem_cons.mp hr with rfl | hr
    · exact hs
    · exact h.sorted r hr
  · simpa using h.ties.append ht

/-- Two neighbouring runs give way to their merge, below any later runs. -/
theorem Waiting.merge (ho : WeakOrder lt) (patience : ℕ) (later : List (List β))
    {taken left right : List β} {earlier : List (List β)}
    (h : Waiting lt taken (later ++ right :: left :: earlier)) :
    Waiting lt taken (later ++ (mergeRuns lt patience left right).1 :: earlier) := by
  have hm := mergeRuns_stable ho patience (h.sorted left (by simp)) (h.sorted right (by simp))
  constructor
  · intro r hr
    simp only [List.mem_append, List.mem_cons] at hr
    rcases hr with hr | rfl | hr
    · exact h.sorted r (by simp [hr])
    · exact hm.sorted
    · exact h.sorted r (by simp [hr])
  · refine SameTies.trans ?_ h.ties
    have ht := ((SameTies.refl lt earlier.reverse.flatten).append hm.ties).append
      (SameTies.refl lt later.reverse.flatten)
    simpa using ht

theorem settle_waiting (ho : WeakOrder lt) (depth patience : ℕ) (top : Pending β)
    (rest : List (Pending β)) {taken : List β}
    (h : Waiting lt taken ((top :: rest).map (·.run))) :
    Waiting lt taken ((settle lt depth patience top rest).pending.map (·.run)) := by
  fun_induction settle lt depth patience top rest with
  | case1 patience top => exact h
  | case2 patience top below rest hdeep run patience' hmerge ih =>
    apply ih
    have hm := Waiting.merge ho patience [] (by simpa using h)
    rw [hmerge] at hm
    exact hm
  | case3 patience top below rest hdeep => exact h

theorem push_waiting (ho : WeakOrder lt) (n : ℕ) {s : Stack β} {taken run fresh : List β}
    (h : Waiting lt taken (s.pending.map (·.run))) (hs : Sorted lt run)
    (ht : SameTies lt run fresh) :
    Waiting lt (taken ++ fresh) ((push lt n s run).pending.map (·.run)) := by
  unfold push
  split
  · rename_i hempty
    rw [hempty] at h
    exact h.push hs ht
  · rename_i top rest hp
    rw [hp] at h
    exact (settle_waiting ho _ s.patience top rest h).push hs ht

theorem pushAll_waiting (ho : WeakOrder lt) (n : ℕ) (rs : List (List β)) {s : Stack β}
    {taken : List β} (h : Waiting lt taken (s.pending.map (·.run)))
    (hs : ∀ run ∈ rs, Sorted lt run) :
    Waiting lt (taken ++ rs.flatten) ((rs.foldl (push lt n) s).pending.map (·.run)) := by
  induction rs generalizing s taken with
  | nil => simpa using h
  | cons run rs ih =>
    have hp := push_waiting ho n h (hs run (by simp)) (SameTies.refl lt run)
    simpa using ih hp fun r hr => hs r (List.mem_cons_of_mem run hr)

theorem mergeAll_stable (ho : WeakOrder lt) (patience : ℕ) (waiting : List (List β))
    {taken : List β} (h : Waiting lt taken waiting) :
    StableSort lt taken (mergeAll lt patience waiting) := by
  fun_induction mergeAll lt patience waiting with
  | case1 patience => exact ⟨List.Pairwise.nil, by simpa using h.ties⟩
  | case2 patience top => exact ⟨h.sorted top (by simp), by simpa using h.ties⟩
  | case3 patience top second =>
    have hm := Waiting.merge ho patience [] h
    exact ⟨hm.sorted _ (by simp), by simpa using hm.ties⟩
  | case4 patience top second third rest hshort run patience' hmerge ih =>
    apply ih
    have hm := Waiting.merge ho patience [top] h
    rw [hmerge] at hm
    exact hm
  | case5 patience top second third rest hshort run patience' hmerge ih =>
    apply ih
    have hm := Waiting.merge ho patience [] h
    rw [hmerge] at hm
    exact hm

theorem sort_stable (ho : WeakOrder lt) (xs : List β) : StableSort lt xs (sort lt xs) := by
  obtain ⟨hs, ht⟩ := runs_stable ho (leastRun xs.length) xs
  have hstart : Waiting lt [] ((⟨[], Merge.longStretch⟩ : Stack β).pending.map (·.run)) :=
    ⟨by simp, SameTies.refl lt _⟩
  have hall := pushAll_waiting ho xs.length (runs lt (leastRun xs.length) xs) hstart hs
  have hm : StableSort lt _ (sort lt xs) := mergeAll_stable ho _ _ hall
  exact ⟨hm.sorted, hm.ties.trans (by simpa using ht)⟩

theorem sortDescending_stable (ho : WeakOrder lt) (xs : List β) :
    StableSort (flipped lt) xs (sortDescending lt xs) := by
  obtain ⟨hs, ht⟩ := sort_stable ho xs.reverse
  refine ⟨hs.flip, ?_⟩
  have hr : SameTies (flipped lt) (sort lt xs.reverse).reverse xs.reverse.reverse :=
    SameTies.reverse ht
  simpa [sortDescending] using hr

end CornerPoint.Sorting
