import SealedSets.Equivalence
import SealedSets.Table.Sizing

/-!
Open-addressed tables. An element lies in the first slot that was free when it came, counted
from its home slot and around the end of the table. A lookup walks the same way and stops at the
first free slot.
-/
namespace SealedSets

/-- The elements in the order of arrival, and the same elements in slots. -/
structure Table (α : Type) where
  elements : Array α
  slots : Array (Option α)
  /-- the sum of the hash codes of the elements -/
  hashCode : HashCode

namespace Table

variable {α β : Type}

def blank (size : Nat) : Table α := ⟨#[], Array.replicate size none, HashCode.empty⟩

def size (t : Table α) : Nat := t.elements.size

def capacity (t : Table α) : Nat := t.slots.size

/-- The slot that the search for a hash code starts from. -/
def home (t : Table α) (code : HashCode) : Nat := (HashCode.spread code).toNat % t.capacity

/-- The slot that a lookup starts from, which does not wrap the hash first. -/
def start (t : Table α) (hash : Binary64) : Nat :=
  (HashCode.spreadNumber hash).toNat % t.capacity

/-- Lookups start where the elements were placed. -/
@[simp] theorem start_eq (t : Table α) (hash : Binary64) :
    t.start hash = t.home hash.toHashCode := by
  simp [start, home]

/-- Tests the elements in at most `n` slots from slot `i` on, up to the first free slot. The
search ends with nothing at an element that passes, and else with the slot it stops at. In a table
that is not full, as many steps as there are slots are always enough. -/
def search (slots : Array (Option α)) (test : α → Action Bool) : Nat → Nat → Action (Option Nat)
  | 0, i => pure (some i)
  | n + 1, i =>
    match slots[i]? with
    | some (some x) => do
      if ← test x then pure none else search slots test n ((i + 1) % slots.size)
    | _ => pure (some i)

/-- The slot for an element with this hash code, unless the table has an equal element. -/
def slotFor? (E : Matching β α) (t : Table β) (code : HashCode) (x : α) :
    Action (Option Nat) :=
  search t.slots (E.equal · x) t.capacity (t.home code)

/-- The same table with something else in place of every element. -/
def map (f : α → β) (t : Table α) : Table β where
  elements := t.elements.map f
  slots := t.slots.map (·.map f)
  hashCode := t.hashCode

def insertAt (t : Table α) (slot : Nat) (code : HashCode) (x : α) : Table α where
  elements := t.elements.push x
  slots := t.slots.setIfInBounds slot (some x)
  hashCode := t.hashCode + code

/-- The candidates from index `i` on are added unless the table has an equal element. There is
no table if one more than `limit` elements would be needed. -/
def fill (E : Equivalence α) (limit : Nat) :
    Nat → List (Option α) → Table α → Action (Option (Table α))
  | _, [], t => pure t
  | i, none :: _, _ => throw (.nullElement i)
  | i, some x :: rest, t => do
    let code ← E.code x
    match ← t.slotFor? E code x with
    | none => fill E limit (i + 1) rest t
    | some slot =>
      if t.size = limit then pure none
      else fill E limit (i + 1) rest (t.insertAt slot code x)

def ofSize? (E : Equivalence α) (candidates : List (Option α)) (size : Nat) :
    Action (Option (Table α)) :=
  fill E (limit size) 0 candidates (blank size)

/-- The table is sized for the expected number of elements, and once more for all candidates if
that was too small. -/
def ofCandidates (checked : Bool) (E : Equivalence α) (expected : Option Binary64)
    (candidates : List (Option α)) : Action (Table α) := do
  let count := Binary64.ofNat candidates.length
  let size ← sizeFor checked (expectation expected candidates.length)
  if let some t ← ofSize? E candidates size then return t
  let size ← sizeFor checked count
  if let some t ← ofSize? E candidates size then return t
  throw (.capacityExceeded count)

def contains (E : Matching β α) (t : Table β) (x : α) : Action Bool := do
  let start := t.start (← E.hash x)
  return (← search t.slots (E.equal · x) t.capacity start).isNone

/-- What at most `n` slots hold from slot `i` on, up to the first free slot. -/
def occupied (slots : Array (Option α)) : Nat → Nat → List α
  | 0, _ => []
  | n + 1, i =>
    match slots[i]? with
    | some (some x) => x :: occupied slots n ((i + 1) % slots.size)
    | _ => []

end Table
end SealedSets
