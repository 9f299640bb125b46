import SealedSets.Sorting.Search

/-!
Merging two neighbouring runs: value by value at first, and by leaps where one run goes on giving.
Of values that tie, those of the left run stay before those of the right one.
-/
namespace SealedSets.Sorting

variable {α ε : Type}

namespace Direction

/-- Whether the left run gives the next value, which is the least one read forward and the greatest
one read backward. -/
def leftFirst (before : α → α → Except ε Bool) (x y : α) : Direction → Except ε Bool
  | forward => return !(← before y x)
  | backward => before y x

/-- Whether nothing is left to compare: a run is used up, or only the last value of the shorter one
is left, which comes last of all. -/
def settled : Direction → List α → List α → Bool
  | forward, _ :: _ :: _, _ :: _ => false
  | backward, _ :: _, _ :: _ :: _ => false
  | _, _, _ => true

/-- What follows once nothing is left to compare. -/
def remainder : Direction → List α → List α → List α
  | forward, xs, ys => ys ++ xs
  | backward, xs, ys => xs ++ ys

end Direction

/-- How the next values are found. -/
inductive Pace where
  /-- one by one: how many each run has given since the other one gave any -/
  | step (left right : Nat)
  /-- those of the left run that come before the right one's next -/
  | leapLeft
  /-- those of the right run that come before the left one's next, after so many of the left -/
  | leapRight (found : Nat)

/-- A leap over so many values is worth another one. -/
def worthwhile : Nat := 7

/-- Merges runs that are given in the direction of reading, behind the values taken, latest first.
After `patience` values in a row from one run the merge leaps. Patience falls with leaps that lead
to others and rises with those that do not, and the answer tells what is left of it. -/
def merge (before : α → α → Except ε Bool) (d : Direction) (pace : Pace) (patience : Nat)
    (taken xs ys : List α) : Except ε (List α × Nat) :=
  if d.settled xs ys then return (taken.reverse ++ d.remainder xs ys, patience) else
  match xs, ys with
  | x :: xs, y :: ys => do
    match pace with
    | .step left right =>
      if ← d.leftFirst before x y then
        let pace := if left + 1 < patience then .step (left + 1) 0 else .leapLeft
        merge before d pace patience (x :: taken) xs (y :: ys)
      else
        let pace := if right + 1 < patience then .step 0 (right + 1) else .leapLeft
        merge before d pace patience (y :: taken) (x :: xs) ys
    | .leapLeft =>
      let found ← lead (fun x => d.leftFirst before x y) d (x :: xs)
      let taken := y :: (((x :: xs).take found).reverse ++ taken)
      merge before d (.leapRight found) patience taken ((x :: xs).drop found) ys
    | .leapRight foundLeft =>
      let found ← lead (fun y => return !(← d.leftFirst before x y)) d (y :: ys)
      let taken := x :: (((y :: ys).take found).reverse ++ taken)
      let ys := (y :: ys).drop found
      if d.settled xs ys then return (taken.reverse ++ d.remainder xs ys, patience)
      else if worthwhile ≤ foundLeft ∨ worthwhile ≤ found then
        merge before d .leapLeft (max 1 (patience - 1)) taken xs ys
      else merge before d (.step 0 0) (patience + 1) taken xs ys
  | xs, ys => return (taken.reverse ++ d.remainder xs ys, patience)
termination_by xs.length + ys.length

/-- The right run starts with a value that comes before all of the left one. -/
def mergeForward (before : α → α → Except ε Bool) (patience : Nat) (left : List α) :
    List α → Except ε (List α × Nat)
  | [] => return (left, patience)
  | y :: right => merge before .forward (.step 0 0) patience [y] left right

/-- The left run ends with a value that comes after all of the right one. -/
def mergeBackward (before : α → α → Except ε Bool) (patience : Nat) (left right : List α) :
    Except ε (List α × Nat) := do
  match left.reverse with
  | [] => return (right, patience)
  | x :: left =>
    let (merged, patience) ←
      merge before .backward (.step 0 0) patience [x] left right.reverse
    return (merged.reverse, patience)

/-- Merges neighbouring runs. Values that the left one starts with or the right one ends with may
be in place already, and of the others the shorter run is the one to be used up. -/
def join (before : α → α → Except ε Bool) (patience : Nat) (left right : List α) :
    Except ε (List α × Nat) := do
  let some least := right.head? | return (left, patience)
  let start ← lead (fun x => return !(← before least x)) .forward left
  let some greatest := (left.drop start).getLast? | return (left ++ right, patience)
  let stay ← lead (fun y => return !(← before y greatest)) .backward right.reverse
  let first := left.drop start
  let second := right.take (right.length - stay)
  let (merged, patience) ←
    if first.length ≤ second.length then mergeForward before patience first second
    else mergeBackward before patience first second
  return (left.take start ++ merged ++ right.drop (right.length - stay), patience)

end SealedSets.Sorting
