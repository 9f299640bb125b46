import SealedSets.Binary64.Arithmetic
import SealedSets.Failure

/-!
Arrays with holes. A position that is no index (negative, fractional, too large) names no slot.
-/
namespace SealedSets

/-- A slot without a value is a hole. -/
abbrev Slots (α : Type) := Array (Option α)

namespace Slots

variable {α : Type}

/-- Arrays have less than `2 ^ 32` slots. -/
def maxLength : Nat := 0xffffffff

/-- The slot that a position names; both zeros name the first. -/
def index? (position : Binary64) : Option Nat :=
  if position.isNonNegativeInteger && position.truncate < maxLength then
    some position.truncate.toNat
  else none

/-- A hole and a slot past the end read alike. -/
def read? (a : Slots α) (i : Nat) : Option α := a[i]?.join

/-- A write past the end leaves holes before it. -/
def write (a : Slots α) (i : Nat) (x : α) : Slots α :=
  (a ++ Array.replicate (i + 1 - a.size) none).setIfInBounds i (some x)

/-- How many numbers, from zero on, are below a bound. -/
def countBelow (bound : Binary64) : Nat := bound.ceil.truncate.toNat

/-- An array cut to a length, or extended with holes. -/
def resize (a : Slots α) (length : Binary64) : Except Failure (Slots α) :=
  if length.isNonNegativeInteger && length.truncate ≤ maxLength then
    let n := length.truncate.toNat
    return a.take n ++ Array.replicate (n - a.size) none
  else throw .invalidArrayLength

/-- An array of so many free slots. -/
def blank (length : Binary64) : Except Failure (Slots α) := resize #[] length

end Slots
end SealedSets
