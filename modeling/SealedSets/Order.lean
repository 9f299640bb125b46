import SealedSets.Comparison
import SealedSets.Value.Property

/-!
Orders of values, as data: the natural one, and those made of it by keys and by reversal.
-/
namespace SealedSets

/-- What values are compared by. -/
inductive Key where
  | self
  | field (name : Text)
  | negated
  | lastDigit
  | bigint
  /-- the value itself if it is worth an even number, and NaN otherwise -/
  | even
  | failing

def Key.of (v : Value) : Key → Except Failure Value
  | self => pure v
  | field name => v.property name
  | negated => v.negated
  | lastDigit => return .number ((← v.toNumber) % .ofNat 10)
  | bigint => return .bigint (← v.toBigint)
  | even => return if ((← v.toNumber) % .ofNat 2).equal .zero then v else .number .nan
  | failing => throw (.raised "no key")

inductive Order where
  | natural
  | reverse (order : Order)
  | byKey (key : Key) (order : Order)
  | byNumber (key : Key)
  | byBigint (key : Key)

def Order.comparison : Order → Comparison Value
  | natural => .natural
  | reverse order => order.comparison.reverse
  | byKey key order => .byKey (key.of ·) order.comparison
  | byNumber key => .byKey (key.of ·) .numeric
  | byBigint key => .byKey (key.of ·) .natural

end SealedSets
