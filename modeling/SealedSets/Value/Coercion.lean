import SealedSets.Report
import SealedSets.Value.Conversion
import SealedSets.Value.Property

/-!
Values of any kind where one kind is called for: hash codes, sums and counts.
-/
namespace SealedSets.Value

/-- Only nothing, zero, NaN and the empty text count as no. -/
def isTrue : Value → Bool
  | undefined | null => false
  | boolean b => b
  | number x => !(x.isNan || x.equal .zero)
  | text t => t.length != 0
  | bigint n => n != 0
  | _ => true

/-- Numbers and bigints are added; with a text on either side, texts are joined. -/
def plus (a b : Value) : Except Failure Value := do
  let a ← a.plain
  let b ← b.plain
  match a, b with
  | text s, b => return text (s ++ (← b.asText))
  | a, text t => return text ((← a.asText) ++ t)
  | bigint m, bigint n => return bigint (m + n)
  | bigint _, symbol .. => throw .symbolAsNumber
  | a, b => return number ((← a.toNumber) + (← b.toNumber))

/-- How many elements are expected, if it is told. -/
def expected? : Value → Except Failure (Option Binary64)
  | undefined => pure none
  | v => some <$> v.asNumber

def spread (v : Value) : Except Failure HashCode :=
  return HashCode.spreadNumber (← v.toNumber)

/-- The hash code of a number. What is only worth a number is mixed, whatever it is worth. -/
def numberHash : Value → Except Failure HashCode
  | number x => pure (HashCode.ofNumber x)
  | v => return HashCode.ofBits (← v.toNumber)

/-- The hash code of a text. What is no text has no units, whatever length it has. -/
def textHash : Value → Except Failure HashCode
  | text t => pure (HashCode.ofText t)
  | v => do
    if ← (number .zero).less (← v.property lengthField) then
      throw (.notFunction "value.charCodeAt")
    else return HashCode.mixBasis

def booleanHash (v : Value) : HashCode := HashCode.ofBool v.isTrue

/-- The hash code of the text of a value. -/
def integerHash : Value → Except Failure HashCode
  | undefined => throw (.fieldOfMissing "undefined" textField)
  | null => throw (.fieldOfMissing "null" textField)
  | v@(object _ (.record fields)) =>
    match hasFunction? fields textField with
    | none => return HashCode.ofText (← v.toText)
    | some true => throw (.fieldOfMissing "undefined" lengthField)
    | some false => throw (.notFunction "value.toString")
  | v => return HashCode.ofText (← v.toText)

def sumHash (a b : Value) : Except Failure HashCode :=
  return (← (← a.plus b).toNumber).toHashCode

/-- The most elements for a table of so many slots. -/
def fillBound (size : Value) : Except Failure Binary64 := return Table.fillBound (← size.toNumber)

end SealedSets.Value
