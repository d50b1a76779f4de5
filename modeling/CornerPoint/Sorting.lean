import CornerPoint.Sorting.Merge
import CornerPoint.Sorting.Run

/-!
A stable sort that uses what order there is. The list is split into runs, and neighbouring runs are
merged so that their lengths stay in balance.
-/
namespace CornerPoint.Sorting

variable {β : Type}

/-- A run that waits to be merged: where it starts, its members, and how deep the boundary to the
run after it lies. -/
structure Pending (β : Type) where
  start : Nat
  run : List β
  depth : Nat

/-- How often a list of `n` places has to be halved until a cut falls between the midpoints of two
neighbouring runs. The first run starts at `start`. -/
def boundaryDepth (n start length nextLength : Nat) : Nat :=
  let first := 2 * start + length
  let second := first + length + nextLength
  ((List.range (n.log2 + 2)).find? fun k => (first <<< k) / n != (second <<< k) / n).getD 0

/-- Runs that wait, the latest first, and the patience of the next merge. -/
structure Stack (β : Type) where
  pending : List (Pending β)
  patience : Nat

/-- Merge the two latest runs for as long as the boundary between them lies deeper than `depth`. -/
def settle (lt : β → β → Bool) (depth patience : Nat) : (top : Pending β) → List (Pending β) →
    Stack β
  | top, [] => ⟨[{ top with depth }], patience⟩
  | top, below :: rest =>
    if depth < below.depth then
      let (run, patience) := mergeRuns lt patience below.run top.run
      settle lt depth patience ⟨below.start, run, below.depth⟩ rest
    else ⟨{ top with depth } :: below :: rest, patience⟩

/-- Add the next run of a list of `n` members. -/
def push (lt : β → β → Bool) (n : Nat) (s : Stack β) (run : List β) : Stack β :=
  match s.pending with
  | [] => ⟨[⟨0, run, 0⟩], s.patience⟩
  | top :: rest =>
    let depth := boundaryDepth n top.start top.run.length run.length
    let settled := settle lt depth s.patience top rest
    ⟨⟨top.start + top.run.length, run, 0⟩ :: settled.pending, settled.patience⟩

/-- Merge all runs that are left: the latest two, or the two before the latest if the earlier of
those is shorter than the latest. -/
def mergeAll (lt : β → β → Bool) (patience : Nat) : List (List β) → List β
  | [] => []
  | [top] => top
  | [top, second] => (mergeRuns lt patience second top).1
  | top :: second :: third :: rest =>
    if third.length < top.length then
      let (run, patience) := mergeRuns lt patience third second
      mergeAll lt patience (top :: run :: rest)
    else
      let (run, patience) := mergeRuns lt patience second top
      mergeAll lt patience (run :: third :: rest)
termination_by runs => runs.length

def sort (lt : β → β → Bool) (xs : List β) : List β :=
  let stack := (runs lt (leastRun xs.length) xs).foldl (push lt xs.length)
    ⟨[], Merge.longStretch⟩
  mergeAll lt stack.patience (stack.pending.map (·.run))

/-- From the last to the first, with equals still in the order given. -/
def sortDescending (lt : β → β → Bool) (xs : List β) : List β :=
  (sort lt xs.reverse).reverse

end CornerPoint.Sorting
