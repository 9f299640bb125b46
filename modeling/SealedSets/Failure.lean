import SealedSets.Binary64
import SealedSets.Text

/-!
The causes for which an operation gives no answer.
-/
namespace SealedSets

inductive Failure where
  /-- a candidate that is null or undefined -/
  | nullElement (index : Nat)
  /-- more elements than the largest table holds -/
  | capacityExceeded (expected : Binary64)
  /-- an element count that is no count -/
  | invalidCount (expected : Binary64)
  /-- a table size that is no power of two -/
  | invalidSize (size : Binary64)
  | invalidArrayLength
  /-- a field of a value that is missing, null or undefined -/
  | fieldOfMissing (holder field : Text)
  /-- a call of a field that is no function -/
  | notFunction (field : Text)
  /-- an object that no text or number stands for -/
  | noPrimitive
  | symbolAsNumber
  | symbolAsText
  /-- a bigint in arithmetic with a number -/
  | mixedArithmetic
  | bigintAsNumber
  /-- a value of a kind that no bigint stands for -/
  | noBigint (value : Text)
  /-- a text that spells no bigint -/
  | unreadBigint (text : Text)
  /-- a number that is no integer, as a bigint -/
  | inexactBigint (x : Binary64)
  /-- raised by an element, an equivalence, a key, a source or a visitor -/
  | raised (message : Text)
  /-- a name that a session has not bound -/
  | unbound (name : String)
deriving DecidableEq

end SealedSets
