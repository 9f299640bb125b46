import SealedSets.Text.Numeral
import SealedSets.Value.Display

/-!
Values of every kind as numbers. An object or a set stands for its text, and a text for the number
that it spells.
-/
namespace SealedSets

/-- Whether a number is below an integer, exactly. -/
def Binary64.belowInt (x : Binary64) (n : Int) : Bool :=
  match x.units? with
  | some u => u < n * unitsPerOne
  | none => x.less .zero

/-- Whether a number is above an integer, exactly. -/
def Binary64.aboveInt (x : Binary64) (n : Int) : Bool :=
  match x.units? with
  | some u => n * unitsPerOne < u
  | none => Binary64.zero.less x

namespace Value

/-- What a record is worth, which is its text unless it has a function of its own for it. -/
def recordWorth (fields : List (Text × Value)) : Except Failure Value :=
  match hasFunction? fields valueField, hasFunction? fields textField with
  | some true, _ | _, some true => pure undefined
  | _, some false => throw .noPrimitive
  | _, none => pure (text anonymous)

/-- What stands for a value in arithmetic and comparisons. -/
def plain : Value → Except Failure Value
  | object _ (.record fields) => recordWorth fields
  | v@(object ..) | v@(set _) => return .text (← v.toText)
  | v => pure v

/-- A value in arithmetic with numbers. -/
def toNumber : Value → Except Failure Binary64
  | undefined => pure .nan
  | null => pure .zero
  | boolean b => pure (.ofNat b.toNat)
  | number x => pure x
  | text t => pure t.toNumber
  | bigint _ => throw .mixedArithmetic
  | symbol .. => throw .symbolAsNumber
  | v => do
    match ← v.plain with
    | text t => return t.toNumber
    | _ => return .nan

/-- A value where only a number will do. -/
def asNumber : Value → Except Failure Binary64
  | bigint _ => throw .bigintAsNumber
  | v => v.toNumber

def negated : Value → Except Failure Value
  | bigint n => pure (.bigint (-n))
  | v => return .number (-(← v.toNumber))

/-- How long a description is shown whole, and how much of a longer one is shown at either end. -/
def longestDescription : Nat := 128

def keptDescription : Nat := 56

def toBigint : Value → Except Failure Int
  | bigint n => pure n
  | boolean b => pure b.toNat
  | number x => if x.isInteger then pure x.truncate else throw (.inexactBigint x)
  | text t => spelled t
  | undefined => throw (.noBigint "undefined")
  | null => throw (.noBigint "null")
  | symbol _ description? =>
    throw (.noBigint (symbolText (description?.map
      (·.abridged longestDescription keptDescription))))
  | v => do
    match ← v.plain with
    | text t => spelled t
    | _ => throw (.noBigint "undefined")
where
  spelled (t : Text) : Except Failure Int :=
    match t.toInteger? with
    | some n => pure n
    | none => throw (.unreadBigint t)

/-- Texts compare by their units, all else as numbers; NaN is below nothing and above nothing. A
text that spells no integer is neither below nor above a bigint. -/
def less (a b : Value) : Except Failure Bool := do
  let a ← a.plain
  let b ← b.plain
  match a, b with
  | text s, text t => return s.less t
  | bigint m, bigint n => return m < n
  | text s, bigint n => return s.toInteger?.any (· < n)
  | bigint m, text t => return t.toInteger?.any (m < ·)
  | a, bigint n => return (← a.toNumber).belowInt n
  | bigint m, b => return (← b.toNumber).aboveInt m
  | a, b => return (← a.toNumber).less (← b.toNumber)

end Value
end SealedSets
