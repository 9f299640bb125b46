import SealedSets.Failure
import SealedSets.HashCode

/-!
How many slots a table has. A table of `2 ^ k` slots is filled to seven tenths at most, so a free
slot is always left.
-/
namespace SealedSets.Table

def maxLoad : Binary64 := .ofFraction 7 10

def minSize : Nat := 2

def maxSize : Nat := 1 <<< 30

/-- The number of elements that a table of this size may hold. -/
def fillBound (size : Binary64) : Binary64 := (size * maxLoad).floor

/-- `fillBound` as a count. -/
def limit (size : Nat) : Nat := (fillBound (.ofNat size)).truncate.toNat

/-- The least number of slots for so many elements, before it is made a power of two. -/
def slotsFor (expected : Binary64) : Binary64 :=
  Binary64.max (.ofNat minSize) (expected / maxLoad).ceil

/-- Doubles a size as long as it is below a target, `n` times at most. A size is a word of 32 bits
that is read as a signed integer, so 32 doublings leave zero, and none after them makes a
difference. -/
def doubled (target : Binary64) : Nat → BitVec 32 → BitVec 32
  | 0, size => size
  | n + 1, size =>
    if (Binary64.ofInt size.toInt).less target then doubled target n (size <<< 1) else size

/-- The size of a table for so many elements. Only a checked count has to be a count, and only the
size for it a power of two. -/
def sizeFor (checked : Bool) (expected : Binary64) : Except Failure Nat :=
  if checked && !expected.isNonNegativeInteger then throw (.invalidCount expected)
  else if (Binary64.ofNat maxSize).less (slotsFor expected) then
    throw (.capacityExceeded expected)
  else
    let size := doubled (slotsFor expected) 32 (.ofNat 32 minSize)
    if checked && !(Binary64.ofInt size.toInt).isPowerOfTwo then
      throw (.invalidSize (.ofInt size.toInt))
    else return size.toNat

/-- How many elements a build expects, which is no more than it has candidates. -/
def expectation (expected : Option Binary64) (count : Nat) : Binary64 :=
  (expected.getD (.ofNat count)).min (.ofNat count)

/-- Only a checked expectation has to be a count. -/
def HintFits (checked : Bool) (expected : Option Binary64) (count : Nat) : Prop :=
  checked → (expectation expected count).isNonNegativeInteger

end SealedSets.Table
