import SealedSets.Rule
import SealedSets.SealedSet

/-!
Values of any kind. Objects, symbols and sets have an identity; all other values are what they
hold.
-/
namespace SealedSets

/-- An object whose own operations give fixed answers, or fail. -/
structure Script where
  hash : Except Failure Binary64
  /-- where there is no answer, the object is equal to itself only -/
  equal : Except Failure (Option Bool)
  text : Except Failure Text

/-- What an object is made of. -/
inductive Shape (α : Type) where
  | function (name : Text)
  | record (fields : List (Text × α))
  | list (elements : List α)
  /-- a function that values have without a field of their own -/
  | shared (name : Text) (parameters : Nat)
  /-- what all objects inherit from -/
  | ancestor
  /-- an amount of money, which defines its own equality -/
  | money (currency : Text) (cents : Binary64)
  /-- an object that defines its own equality -/
  | scripted (script : Script)

inductive Value where
  | undefined
  | null
  | boolean (b : Bool)
  | number (x : Binary64)
  | text (t : Text)
  | bigint (n : Int)
  | symbol (ref : Ref) (description? : Option Text)
  | object (ref : Ref) (shape : Shape Value)
  | set (s : SealedSet Rule Value)

instance : Inhabited Value := ⟨.undefined⟩

namespace Value

/-- Symbols with an empty description and with none have one text. -/
def symbolText (description? : Option Text) : Text := "Symbol(" ++ description?.getD "" ++ ")"

/-- Null and undefined are missing. -/
def present? : Value → Option Value
  | undefined | null => none
  | v => some v

def isPresent (v : Value) : Bool := v.present?.isSome

def ref? : Value → Option Ref
  | symbol ref _ | object ref _ => some ref
  | set s => some s.ref
  | _ => none

def isFunction : Value → Bool
  | object _ (.function _) | object _ (.shared ..) => true
  | _ => false

/-- Whether fields have this name and whether it names a function, if there is one. -/
def hasFunction? (fields : List (Text × Value)) (name : Text) : Option Bool :=
  (fields.lookup name).map isFunction

/-- Whether a value defines its own hash code and equality. -/
def hasOwnEquality : Value → Bool
  | object _ (.money ..) | object _ (.scripted _) | set _ => true
  | object _ (.record fields) =>
    hasFunction? fields "hash_code" == some true && hasFunction? fields "equals" == some true
  | _ => false

def isNan : Value → Bool
  | number x => x.isNan
  | _ => false

/-- What has an identity is identical to itself only, and NaN is not identical to NaN. -/
def identical (a b : Value) : Bool :=
  match a, b with
  | undefined, undefined | null, null => true
  | boolean p, boolean q => p == q
  | number x, number y => x.equal y
  | text s, text t => s == t
  | bigint m, bigint n => m == n
  | a, b => a.ref?.isSome && a.ref? == b.ref?

/-- Identical, or both NaN. -/
def same (a b : Value) : Bool := a.identical b || (a.isNan && b.isNan)

end Value
end SealedSets
