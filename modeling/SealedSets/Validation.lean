import SealedSets.Value.Coercion

/-!
Requirements on values.
-/
namespace SealedSets

namespace Value

def isNonNegativeInteger : Value → Bool
  | number x => x.isNonNegativeInteger
  | _ => false

def isPowerOfTwo : Value → Bool
  | number x => x.isPowerOfTwo
  | _ => false

/-- The value itself if it is valid, or if nothing is checked. -/
def validate (checked : Bool) (valid : Value → Bool) (requirement : Text) (v : Value) :
    Except Report Value :=
  if checked && !valid v then throw (.unmet requirement v) else return v

/-- A requirement of any kind is only put into words where it is not met. -/
def validateFor (checked : Bool) (valid : Value → Bool) (v requirement : Value) :
    Except Report Value :=
  match requirement.asText with
  | .ok t => v.validate checked valid t
  | .error failure => if checked && !valid v then throw failure.report else return v

/-- The size of a table for so many elements. A number that is too large is reported as it was
given. -/
def tableSize (checked : Bool) (expected : Value) : Except Report Nat := do
  let expected ← expected.validate checked isNonNegativeInteger Report.countRequirement
  let count ← expected.toNumber.mapError Failure.report
  match Table.sizeFor checked count with
  | .ok size => return size
  | .error (.capacityExceeded _) =>
    throw (.oversized expected (← expected.asText.mapError Failure.report))
  | .error failure => throw failure.report

end Value
end SealedSets
