import SealedSets.Table.Sizing
import SealedSets.Value.Display

/-!
How a failure is reported: a name, a message and, for failures of the library's own, a category
and the values in question.
-/
namespace SealedSets

/-- The library's own failures that a caller can expect and handle. -/
inductive SetCategory where
  | nullElement
  | capacityExceeded
  | invalidOffset
deriving DecidableEq

/-- The library's own failures that show a mistake in the calling program. -/
inductive TypeCategory where
  | assertion
  | validation
deriving DecidableEq

def SetCategory.toText : SetCategory → Text
  | nullElement => "NULL_ELEMENT"
  | capacityExceeded => "CAPACITY_EXCEEDED"
  | invalidOffset => "INVALID_OFFSET"

def SetCategory.all : List SetCategory := [nullElement, capacityExceeded, invalidOffset]

def TypeCategory.toText : TypeCategory → Text
  | assertion => "ASSERTION_FAIL_CONDITION"
  | validation => "VALIDATION_FAIL_CONDITION"

def TypeCategory.all : List TypeCategory := [assertion, validation]

/-- Named values that a report points to. -/
abbrev Context := List (Text × Value)

/-- A category is the text of one of the library's own, or any value that a caller uses for it. -/
inductive Report where
  | ofSet (category : Value) (message : Text) (context? : Option Context)
  /-- an element that is missing at an index, which has a text -/
  | ofElement (index : Value) (indexText : Text)
  | ofType (category : Value) (message : Text) (context? : Option Context)
  | plain (name message : Text)

namespace Report

def name : Report → Text
  | ofSet .. => "SetError"
  | ofElement .. => "NullElementError"
  | ofType .. => "TypeError"
  | plain name _ => name

def message : Report → Text
  | ofSet _ message _ | ofType _ message _ => message
  | ofElement _ indexText => "Null element at index " ++ indexText
  | plain _ message => message

def category? : Report → Option Value
  | ofSet category .. | ofType category .. => some category
  | ofElement .. => some (.text SetCategory.nullElement.toText)
  | plain .. => none

def context? : Report → Option Context
  | ofSet _ _ context? => context?
  | ofElement index _ => some [("index", index)]
  | ofType _ _ context? => context?
  | plain .. => none

def index? : Report → Option Value
  | ofElement index _ => some index
  | _ => none

/-- A missing element is a failure of the set. -/
def isOfSet : Report → Bool
  | ofSet .. | ofElement .. => true
  | _ => false

/-- Whether the failure is one of the library's own. -/
def isOwn : Report → Bool
  | plain .. => false
  | _ => true

/-- The name and the message, or the name alone if the message is empty. -/
def toText (r : Report) : Text :=
  if r.message.length = 0 then r.name else r.name ++ ": " ++ r.message

/-- A value that does not meet a requirement. -/
def unmet (requirement : Text) (value : Value) : Report :=
  ofType (.text TypeCategory.validation.toText)
    ("Expected value to meet validation: " ++ requirement)
    (some [("value", value)])

/-- An offset that is not in an array of this length, nor at its end. -/
def outside (offset : Value) (length : Nat) (offsetText : Text) : Report :=
  ofSet (.text SetCategory.invalidOffset.toText)
    ("Offset " ++ offsetText ++ " is outside the destination (length " ++ toString length ++ ")")
    (some [("offset", offset), ("length", .number (.ofNat length))])

/-- More elements than the largest table holds. -/
def oversized (expected : Value) (expectedText : Text) : Report :=
  ofSet (.text SetCategory.capacityExceeded.toText)
    ("Cannot size a table for " ++ expectedText ++ " elements")
    (some [("expected", expected), ("max_table_size", .number (.ofNat Table.maxSize))])

/-- What is required of an expected number of elements. -/
def countRequirement : Text := "expected element count must be a non-negative integer"

/-- What is required of the size of a table. -/
def sizeRequirement : Text := "table size must be a power of two"

/-- The text of a message, which is empty where there is no message. -/
def messageText : Value → Except Failure Text
  | .undefined => pure ""
  | message => message.asText

/-- A report of a caller's own. Without a message of its own, the category is the message. -/
def customSet (category message : Value) (context? : Option Context) : Except Failure Report :=
  return ofSet category (← messageText (message.present?.getD category)) context?

/-- A report of a caller's own on a missing element. -/
def customElement (index : Value) : Except Failure Report :=
  return ofElement index (← index.asText)

/-- A report of a caller's own on a mistake. -/
def customType (category message : Value) (context? : Option Context) : Except Failure Report :=
  return ofType category (← messageText message) context?

/-- A report of a caller's own without a category. -/
def customPlain (name : Text) (message : Value) : Except Failure Report :=
  return plain name (← messageText message)

/-- The longest text that is shown whole. -/
def longestShown : Nat := 1000

end Report

def Failure.report : Failure → Report
  | nullElement index => .ofElement (.number (.ofNat index)) (toString index)
  | capacityExceeded expected => .oversized (.number expected) (toString expected)
  | invalidCount expected =>
    .unmet Report.countRequirement (.number expected)
  | invalidSize size => .unmet Report.sizeRequirement (.number size)
  | invalidArrayLength => .plain "RangeError" "Invalid array length"
  | fieldOfMissing holder field =>
    .plain "TypeError" ("Cannot read properties of " ++ holder ++ " (reading '" ++ field ++ "')")
  | notFunction field => .plain "TypeError" (field ++ " is not a function")
  | noPrimitive => .plain "TypeError" "Cannot convert object to primitive value"
  | symbolAsNumber => .plain "TypeError" "Cannot convert a Symbol value to a number"
  | symbolAsText => .plain "TypeError" "Cannot convert a Symbol value to a string"
  | mixedArithmetic =>
    .plain "TypeError" "Cannot mix BigInt and other types, use explicit conversions"
  | bigintAsNumber => .plain "TypeError" "Cannot convert a BigInt value to a number"
  | noBigint value => .plain "TypeError" ("Cannot convert " ++ value ++ " to a BigInt")
  | unreadBigint text => .plain "SyntaxError"
      ("Cannot convert " ++ text.clipped Report.longestShown ++ " to a BigInt")
  | inexactBigint x =>
    .plain "RangeError" ("The number " ++ toString x ++
      " cannot be converted to a BigInt because it is not an integer")
  | raised message => .plain "Error" message
  | unbound name => .plain "NoSuchName" name

end SealedSets
