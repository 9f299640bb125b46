import SealedSets.Sorting
import SealedSets.Value.Conversion

/-!
Comparisons of values, and sorting by them. The sign of a comparison says which side comes first:
below zero the left one, above zero the right one, and at zero they tie.
-/
namespace SealedSets

/-- NaN comes last, and the two zeros tie. -/
def Binary64.compare (x y : Binary64) : Int :=
  if x.less y then -1
  else if y.less x then 1
  else (x.isNan.toNat : Int) - y.isNan.toNat

namespace Value

/-- Where a kind of value comes among the kinds. -/
def rank : Value → Int
  | boolean _ => 0
  | number _ => 1
  | bigint _ => 2
  | _ => 3

/-- The sign of a comparison by a strict order. -/
def sign (less greater : Bool) : Int := if less then -1 else if greater then 1 else 0

/-- Values of one kind compare by what they hold, others by their kinds. What has no order of its
own ranks with the texts. -/
def compare (a b : Value) : Int :=
  match a, b with
  | number x, number y => x.compare y
  | text s, text t => sign (s.less t) (t.less s)
  | bigint m, bigint n => sign (m < n) (n < m)
  | boolean p, boolean q => (p.toNat : Int) - q.toNat
  | a, b => a.rank - b.rank

/-- Keys of any kind compare by what they are worth. Those that are neither below nor above each
other tie, but for NaN, which comes last. -/
def compareNumeric (a b : Value) : Except Failure Int := do
  if ← a.less b then return -1
  else if ← b.less a then return 1
  else return (a.isNan.toNat : Int) - b.isNan.toNat

@[simp] theorem compareNumeric_number (x y : Binary64) :
    compareNumeric (number x) (number y) = .ok (x.compare y) := by
  simp only [compareNumeric, less, plain, toNumber, Binary64.compare, isNan, pure, Except.pure,
    bind, Except.bind]
  split
  · rfl
  · split <;> rfl

end Value

/-- A comparison may fail, as its keys may. -/
abbrev Comparison (α : Type) := α → α → Except Failure Int

namespace Comparison

variable {α β : Type}

def natural : Comparison Value := fun a b => pure (a.compare b)

def numeric : Comparison Value := Value.compareNumeric

def reverse (c : Comparison α) : Comparison α := fun a b => c b a

/-- Compares the keys of two values. -/
def byKey (key : α → Except Failure β) (c : Comparison β) : Comparison α :=
  fun a b => do c (← key a) (← key b)

/-- Whether the first value has to come before the second. -/
def before (c : Comparison α) (a b : α) : Except Failure Bool := return (← c a b) < 0

/-- Sorts values and leaves ties as they are. -/
def sort (c : Comparison α) (values : List α) : Except Failure (List α) :=
  Sorting.sort c.before values

/-- What is undefined comes last and is not compared. -/
def sortDefined (c : Comparison Value) (values : List Value) : Except Failure (List Value) := do
  let (missing, others) := values.partition fun
    | .undefined => true
    | _ => false
  return (← c.sort others) ++ missing

end Comparison
end SealedSets
