import SealedSets.Binary64.Decimal
import SealedSets.Value

/-!
The text of a value. A set is written with its elements in brackets, a list without brackets.
-/
namespace SealedSets

/-- The text of a list whose items have these texts. -/
def bare (parts : List Text) : Text := Text.join "," parts

/-- The text of a set whose elements have these texts. -/
def bracketed (parts : List Text) : Text := "[" ++ Text.join ", " parts ++ "]"

namespace Value

/-- Fields of these names take the place of what all objects inherit. -/
def textField : Text := "toString"

def valueField : Text := "valueOf"

/-- The text of a record that has no text of its own. -/
def anonymous : Text := "[object Object]"

/-- A function that a record has of its own for its text or its worth answers nothing. -/
def recordText (fields : List (Text × Value)) : Except Failure Text :=
  match hasFunction? fields textField, hasFunction? fields valueField with
  | none, _ => pure anonymous
  | some true, _ | _, some true => pure "undefined"
  | _, _ => throw .noPrimitive

def toText : Value → Except Failure Text
  | undefined => pure "undefined"
  | null => pure "null"
  | boolean b => pure (if b then "true" else "false" : String)
  | number x => pure (toString x)
  | text t => pure t
  | bigint n => pure (toString n)
  | symbol _ description? => pure (symbolText description?)
  | object _ shape => ofShape shape
  | set s => return bracketed (← ofSet s)
termination_by structural v => v
where
  ofShape : Shape Value → Except Failure Text
    | .ancestor => pure anonymous
    | .record fields => recordText fields
    | .shared name _ => pure ("function " ++ name ++ "() { [native code] }")
    | .function name => pure ("fn:" ++ name)
    | .list elements => return bare (← ofItems elements)
    | .money currency cents => pure (currency ++ " " ++ toString cents)
    | .scripted script => script.text
  termination_by structural s => s
  ofSet : SealedSet Rule Value → Except Failure (List Text)
    | .empty => pure []
    | .singleton _ _ x _ => return [← x.toText]
    | .table _ _ t => ofTable t
  termination_by structural s => s
  ofTable : Table Value → Except Failure (List Text)
    | ⟨xs, _, _⟩ => ofArray xs
  termination_by structural t => t
  ofArray : Array Value → Except Failure (List Text)
    | ⟨xs⟩ => ofList xs
  termination_by structural xs => xs
  ofList : List Value → Except Failure (List Text)
    | [] => pure []
    | x :: xs => return (← x.toText) :: (← ofList xs)
  termination_by structural xs => xs
  /-- A missing item of a list is written as nothing, and a symbol cannot be an item. -/
  ofItems : List Value → Except Failure (List Text)
    | [] => pure []
    | x :: xs => do
      let text : Text ← match x with
        | undefined | null => pure ""
        | symbol .. => throw .symbolAsText
        | x => x.toText
      return text :: (← ofItems xs)
  termination_by structural xs => xs

/-- The text of a value where only a text will do. -/
def asText : Value → Except Failure Text
  | symbol .. => throw .symbolAsText
  | v => v.toText

end Value

def SealedSet.toText (s : SealedSet Rule Value) : Except Failure Text := Value.toText (.set s)

end SealedSets
