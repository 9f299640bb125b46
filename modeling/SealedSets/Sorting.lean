import SealedSets.Sorting.Merging

/-!
Stable sorting by merging runs. Which values are compared, and in what order, is part of the answer
where comparisons fail or contradict each other: a list is read as runs that it has already, short
ones are made longer by insertion, and neighbouring runs are merged as they come.
-/
namespace SealedSets.Sorting

variable {α ε : Type}

/-- How many values follow each other in one way, going on from `length` of them: each before the
one before it if they descend, and none if they do not. -/
def extent (before : α → α → Except ε Bool) (descends : Bool) :
    Nat → α → List α → Except ε Nat
  | length, _, [] => return length
  | length, last, x :: rest => do
    if (← before x last) = descends then extent before descends (length + 1) x rest
    else return length

/-- Puts a value behind those that it ties with. -/
def insert (before : α → α → Except ε Bool) (x : α) (sorted : List α) : Except ε (List α) := do
  let place ← halve (fun y => return !(← before x y)) .forward sorted
  return sorted.take place ++ x :: sorted.drop place

/-- The run that a list starts with, in order, made up to `least` values if there are as many. -/
def leadingRun (before : α → α → Except ε Bool) (least : Nat) : List α → Except ε (List α)
  | x :: y :: rest => do
    let descends ← before y x
    let length ← extent before descends 2 y rest
    let run := (x :: y :: rest).take length
    ((x :: y :: rest).take least |>.drop length).foldlM (fun sorted z => insert before z sorted)
      (if descends then run.reverse else run)
  | values => return values

/-- Halves a number until it is below 64, and adds one if anything was `lost`. -/
def leastLength (n lost : Nat) : Nat :=
  if n < 64 then n + lost else leastLength (n / 2) (max lost (n % 2))

/-- Two neighbours among the pending runs. -/
inductive Pair where
  | latest
  | secondLatest

/-- The runs to merge before another one is read, latest first: each is to be longer than the next,
and than the next two together. -/
def crowded : List (List α) → Option Pair
  | top :: second :: third :: older =>
    if third.length ≤ second.length + top.length ∨
        older.head?.any (·.length ≤ third.length + second.length) then
      if third.length < top.length then some .secondLatest else some .latest
    else if second.length ≤ top.length then some .latest else none
  | [top, second] => if second.length ≤ top.length then some .latest else none
  | _ => none

/-- The runs to merge when no other one follows. -/
def unfinished : List (List α) → Option Pair
  | top :: _ :: third :: _ => if third.length < top.length then some .secondLatest else some .latest
  | [_, _] => some .latest
  | _ => none

/-- Merges pending runs, latest first, as long as any are due. -/
def mergeDue (before : α → α → Except ε Bool) (due : List (List α) → Option Pair)
    (patience : Nat) (pending : List (List α)) : Except ε (List (List α) × Nat) := do
  match due pending, pending with
  | some .latest, top :: second :: older =>
    let (run, patience) ← join before patience second top
    mergeDue before due patience (run :: older)
  | some .secondLatest, top :: second :: third :: older =>
    let (run, patience) ← join before patience third second
    mergeDue before due patience (top :: run :: older)
  | _, pending => return (pending, patience)
termination_by pending.length

/-- Sorts what follows the pending runs together with them. -/
def sortRuns (before : α → α → Except ε Bool) (least : Nat) (patience : Nat)
    (pending : List (List α)) : List α → Except ε (List α)
  | [] => do
    let (runs, _) ← mergeDue before unfinished patience pending
    return runs.reverse.flatten
  | x :: rest => do
    let run ← leadingRun before least (x :: rest)
    let (pending, patience) ← mergeDue before crowded patience (run :: pending)
    sortRuns before least patience pending (rest.drop (run.length - 1))
termination_by values => values.length

/-- Sorts by a strict order and leaves ties as they are. Fewer than two values are not compared. -/
def sort (before : α → α → Except ε Bool) (values : List α) : Except ε (List α) :=
  sortRuns before (leastLength values.length 0) worthwhile [] values

end SealedSets.Sorting
