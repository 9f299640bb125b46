import SealedSets.Slots
import SealedSets.Text.Numeral
import SealedSets.Value

/-!
Fields of values of every kind. What a value does not have itself it may inherit: all values but
null and undefined share some functions.
-/
namespace SealedSets

/-- The place in a sequence that a text names; there is one spelling for each. -/
def Text.toIndex? (t : Text) : Option Nat := do
  let n ← natural? 10 t.units
  if t = toString n && n < Slots.maxLength then some n else none

namespace Value

def lengthField : Text := "length"

def sharedFunction (name : Text) (parameters : Nat) : Value :=
  object (.shared name) (.shared name parameters)

/-- The functions that all values share, with the numbers of their parameters. -/
def sharedFunctions : List (Text × Nat) :=
  [("toString", 0), ("toLocaleString", 0), ("valueOf", 0), ("hasOwnProperty", 1),
    ("isPrototypeOf", 1), ("propertyIsEnumerable", 1), ("__defineGetter__", 2),
    ("__defineSetter__", 2), ("__lookupGetter__", 1), ("__lookupSetter__", 1)]

/-- The function that makes values of a kind. -/
def maker : Value → Value
  | boolean _ => sharedFunction "Boolean" 1
  | number _ => sharedFunction "Number" 1
  | text _ => sharedFunction "String" 1
  | bigint _ => sharedFunction "BigInt" 1
  | symbol .. => sharedFunction "Symbol" 0
  | object _ (.list _) => sharedFunction "Array" 1
  | object _ (.function _) | object _ (.shared ..) => sharedFunction "Function" 1
  | _ => sharedFunction "Object" 1

def ancestor : Value := object .ancestor .ancestor

def inherited (field : Text) (v : Value) : Value :=
  if field = "constructor" then v.maker
  else if field = "__proto__" then
    match v with
    | object _ .ancestor => null
    | _ => ancestor
  else
    match sharedFunctions.lookup field with
    | some parameters => sharedFunction field parameters
    | none => undefined

/-- The length of a sequence or one of its items. -/
def item? (field : Text) (length : Nat) (get? : Nat → Option Value) : Option Value :=
  if field = lengthField then some (number (.ofNat length)) else field.toIndex?.bind get?

def own? (field : Text) : Value → Option Value
  | text t => item? field t.length fun i => t.units[i]?.map fun u => text ⟨[u]⟩
  | symbol _ description? => if field = "description" then description?.map text else none
  | object _ shape => ofShape shape
  | set s => ofSet s
  | _ => none
where
  /-- Only a table has a capacity. -/
  ofSet (s : SealedSet Rule Value) : Option Value :=
    if field = "size" then some (number (.ofNat s.size))
    else if field = "capacity" then s.capacity?.map fun n => number (.ofNat n)
    else none
  ofShape : Shape Value → Option Value
    | .record fields => fields.lookup field
    | .list elements => item? field elements.length fun i => elements[i]?
    | .function _ => if field = lengthField then some (number .zero) else none
    | .shared name parameters =>
      if field = lengthField then some (number (.ofNat parameters))
      else if field = "name" then some (text name)
      else if field = "prototype" && name = "Object" then some ancestor
      else none
    | .money currency cents =>
      if field = "currency" then some (text currency)
      else if field = "cents" then some (number cents)
      else none
    | _ => none

/-- A field of a value. What has no such field and inherits none answers undefined. -/
def property (field : Text) (v : Value) : Except Failure Value :=
  match v with
  | undefined => throw (.fieldOfMissing "undefined" field)
  | null => throw (.fieldOfMissing "null" field)
  | v => pure ((v.own? field).getD (v.inherited field))

end Value
end SealedSets
