import SealedSets.Equivalence
import SealedSets.Value.Conversion
import SealedSets.Value.Property

/-!
What the schemes mean for values. A scheme also compares and hashes values that it does not
accept, if a set is made of them.
-/
namespace SealedSets.Scheme

open Value

def idField : Text := "id"

/-- The texts that a guarded equivalence fails on. -/
def badAccept : Text := "bad-accept"

def badLeft : Text := "bad-left"

def badRight : Text := "bad-right"

def badHash : Text := "bad-hash"

def isText : Value → Bool
  | text _ => true
  | _ => false

def isNumber : Value → Bool
  | number _ => true
  | _ => false

def hasId : Value → Bool
  | object _ (.record fields) => (fields.lookup idField).isSome
  | _ => false

/-- Texts only; one of them makes it fail. -/
def guardedAccepts (v : Value) : Action Bool :=
  if v.identical (text badAccept) then throw (.raised "cannot accept") else pure (isText v)

def guardedEqual (a b : Value) : Action Bool :=
  if a.identical (text badLeft) || b.identical (text badRight) then
    throw (.raised "cannot compare")
  else pure (a.identical b)

def guardedHash (v : Value) : Action Binary64 :=
  if v.identical (text badHash) then throw (.raised "cannot hash") else pure (Binary64.ofNat 7)

/-- Only texts are in a list of hashes. -/
def listedHash (hashes : List (Text × Binary64)) (default : Binary64) : Value → Binary64
  | text t => (hashes.lookup t).getD default
  | _ => default

/-- Whether two values have one answer to a question. -/
def agree (ask : Value → Except Failure Value) (a b : Value) : Action Bool := do
  let x ← ask a
  let y ← ask b
  return x.identical y

def remainder (divisor : Binary64) (v : Value) : Except Failure Value :=
  return .number ((← v.toNumber) % divisor)

def accepts (v : Value) : Scheme → Action Bool
  | always => pure v.isPresent
  | constant _ | listed .. | byLength => pure (isText v)
  | modulo _ => pure (isNumber v)
  | byId => pure (hasId v)
  | guarded => guardedAccepts v

def equal (a b : Value) : Scheme → Action Bool
  | always => pure true
  | constant _ | listed .. => pure (a.identical b)
  | byLength => agree (property lengthField) a b
  | modulo divisor => agree (remainder divisor) a b
  | byId => agree (property idField) a b
  | guarded => guardedEqual a b

/-- A hash before it is wrapped, which need not be a number. -/
def rawHash (v : Value) : Scheme → Action Value
  | always => pure (.number .zero)
  | constant hash => pure (.number hash)
  | listed hashes default => pure (.number (listedHash hashes default v))
  | byLength => v.property lengthField
  | modulo divisor => remainder divisor v
  | byId => v.property idField
  | guarded => return .number (← guardedHash v)

end SealedSets.Scheme
