import CornerPoint.Sorting.Search

/-!
Runs: stretches of a list that are in order already. A run that is too short is filled up by
insertion.
-/
namespace CornerPoint.Sorting

variable {β : Type}

/-- Insert behind the members that the new one does not precede. -/
def insert (lt : β → β → Bool) (b : β) (sorted : List β) : List β :=
  let place := bisect .front (fun x => !lt b x) sorted 0 sorted.length
  sorted.take place ++ b :: sorted.drop place

/-- Split a list where the next member no longer follows on from the last. -/
def splitRun (follows : β → β → Bool) (last : β) : List β → List β × List β
  | [] => ([], [])
  | b :: rest =>
    if follows last b then
      let (run, others) := splitRun follows b rest
      (b :: run, others)
    else ([], b :: rest)

/-- The run at the head of a list, in ascending order, and the members after it. A run that
descends strictly is turned round. -/
def headRun (lt : β → β → Bool) : List β → List β × List β
  | first :: second :: rest =>
    if lt second first then
      let (run, others) := splitRun (fun p q => lt q p) second rest
      ((first :: second :: run).reverse, others)
    else
      let (run, others) := splitRun (fun p q => !lt q p) second rest
      (first :: second :: run, others)
  | short => (short, [])

/-- `n` is halved until it is below 64, and one more if a half was not even. -/
def halved (n odd : Nat) : Nat :=
  if n < 64 then n + odd else halved (n / 2) (if n % 2 = 1 then 1 else odd)

/-- The least length of all runs but the last in a list of `n` members. -/
def leastRun (n : Nat) : Nat := halved n 0

/-- The run at the head of a list, filled up to the length `least` as far as there are members. -/
def nextRun (lt : β → β → Bool) (least : Nat) (xs : List β) : List β × List β :=
  let (run, others) := headRun lt xs
  let wanted := least - run.length
  ((others.take wanted).foldl (fun sorted b => insert lt b sorted) run, others.drop wanted)

theorem splitRun_append (follows : β → β → Bool) (last : β) (xs : List β) :
    (splitRun follows last xs).1 ++ (splitRun follows last xs).2 = xs := by
  induction xs generalizing last with
  | nil => rfl
  | cons b rest ih =>
    simp only [splitRun]
    split
    · simp [ih]
    · rfl

theorem headRun_length_lt (lt : β → β → Bool) (b : β) (xs : List β) :
    (headRun lt (b :: xs)).2.length < (b :: xs).length := by
  cases xs with
  | nil => simp [headRun]
  | cons c xs =>
    have h (follows : β → β → Bool) : (splitRun follows c xs).2.length ≤ xs.length := by
      have := congrArg List.length (splitRun_append follows c xs)
      rw [List.length_append] at this
      omega
    simp only [headRun, List.length_cons]
    split
    · have := h (fun p q => lt q p)
      simp only
      omega
    · have := h (fun p q => !lt q p)
      simp only
      omega

/-- A list as a sequence of runs. -/
def runs (lt : β → β → Bool) (least : Nat) (xs : List β) : List (List β) :=
  if xs.isEmpty then []
  else (nextRun lt least xs).1 :: runs lt least (nextRun lt least xs).2
termination_by xs.length
decreasing_by
  cases xs with
  | nil => simp at *
  | cons b xs =>
    have := headRun_length_lt lt b xs
    simp only [nextRun, List.length_drop]
    omega

end CornerPoint.Sorting
