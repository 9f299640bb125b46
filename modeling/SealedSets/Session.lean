import SealedSets.Order
import SealedSets.Session.Source
import SealedSets.Value.Equality
import SealedSets.Value.Placement

/-!
Sessions: commands over named sets, arrays and cursors. A command that fails leaves what is bound
as it was; the values that it made and the numbers that it gave to objects stay.
-/
namespace SealedSets

structure Session extends Bindings where
  /-- whether element counts and offsets are checked -/
  checked : Bool := true
  codes : IdentityCodes := {}
  /-- how many sets were made -/
  made : Nat := 0

inductive Command where
  | make (name : String) (source : Source) (rule : Rule) (expected : Operand) (brief : Bool)
  | makeEmpty (name : String)
  | describe (set : String) (brief : Bool)
  | contains (set : String) (value : Operand)
  | containsEach (set : String) (values : List Operand)
  | containsCount (set : String) (source : Source)
  | containsAll (set : String) (source : Source)
  | equals (set : String) (other : Operand)
  | isSame (set : String) (other : Operand)
  | size (set : String)
  | isEmpty (set : String)
  | hashCode (set : String)
  | values (set : String)
  | iterate (set cursor : String)
  | next (cursor : String)
  /-- calls a visitor that fails at an index -/
  | visit (set : String) (failsAt : Option Nat)
  | toArray (set : String) (array : Option String)
  | sort (set : String) (order : Order)
  | writeInto (set array : String) (offset : Operand)
  | toText (set : String)
  | makeArray (array : String) (values : List Operand)
  | push (array : String) (value : Operand)
  | write (array : String) (index value : Operand)
  | describeArray (array : String)
  | hash (rule : Rule) (value : Operand)
  | equal (rule : Rule) (a b : Operand)

inductive Answer where
  | done
  | value (v : Value)
  | values (vs : List Value)
  | summary (s : SealedSet Rule Value) (brief : Bool)
  | array (a : Slots Value)
  /-- whether all values are members, and how many were drawn to tell -/
  | drawn (all : Bool) (count : Nat)
  /-- the next value of a cursor, if there is one -/
  | next (v? : Option Value)
  /-- the visited values in order, and what the visit failed with -/
  | visited (values : List Value) (failure? : Option Failure)
  /-- the position after the last element copied, and the array after the copy -/
  | copied (position : Except Report Value) (a : Slots Value)
  | failed (failure : Failure)

/-- A step of a session. It binds what it binds only once nothing can fail any more. -/
abbrev Step := EStateM Failure Session

namespace Step

variable {α : Type}

/-- An action numbers objects for all later steps. -/
def act (a : Action α) : Step α := fun s =>
  match a s.codes with
  | .ok x codes => .ok x { s with codes }
  | .error failure codes => .error failure { s with codes }

def set (name : String) : Step (SealedSet Rule Value) := do lookUp name (← get).sets

def array (name : String) : Step (Slots Value) := do lookUp name (← get).arrays

/-- What is made by reading is there for all later steps. -/
def read (r : Reading α) : Step α := fun s =>
  match r s.toBindings with
  | .ok x b => .ok x { s with toBindings := b }
  | .error failure b => .error failure { s with toBindings := b }

def operand (x : Operand) : Step Value := read x.read

def supply (source : Source) : Step Supply := read source.read

def bindSet (name : String) (s : SealedSet Rule Value) : Step Unit :=
  modify fun session => { session with sets := assign name s session.sets }

def bindArray (name : String) (a : Slots Value) : Step Answer := do
  modify fun session => { session with arrays := assign name a session.arrays }
  return .array a

def bindCursor (name : String) (values : List Value) : Step Unit :=
  modify fun session => { session with cursors := assign name values session.cursors }

/-- A set under its own rule. -/
def ruled (s : SealedSet Rule Value) : SealedSet (Equivalence Value) Value :=
  s.mapRule Rule.equivalence

def boolean (test : Step Bool) : Step Answer := return .value (.boolean (← test))

def make (name : String) (source : Source) (rule : Rule) (expected : Operand)
    (brief : Bool) : Step Answer := do
  let supply ← supply source
  let expected ← operand expected
  let candidates ← supply.all
  -- the expectation for no candidates is not looked at
  let expected ← if candidates.isEmpty then pure none else liftM expected.expected?
  let session ← get
  let s ← act (SealedSet.ofCandidates session.checked Rule.equivalence rule (.set session.made)
    expected (candidates.map Value.present?))
  modify fun session => { session with made := session.made + 1 }
  bindSet name s
  return .summary s brief

/-- How many of the values are members. -/
def countMembers (s : SealedSet Rule Value) : List Value → Step Nat
  | [] => return 0
  | v :: rest => do
    let member ← act ((ruled s).contains v.present?)
    return member.toNat + (← countMembers s rest)

def containsAll (s : SealedSet Rule Value) (supply : Supply) : Step Answer := do
  let members ← act ((ruled s).leading (supply.values.map Value.present?))
  if members < supply.values.length then return .drawn false (members + 1)
  else
    let all ← supply.all
    return .drawn true all.length

/-- A set is equal to sets only. -/
def equals (s : SealedSet Rule Value) : Value → Action Bool
  | .set t => (ruled s).equals (ruled t)
  | _ => pure false

def next (cursor : String) : Step Answer := do
  match ← lookUp cursor (← get).cursors with
  | [] => return .next none
  | v :: rest =>
    bindCursor cursor rest
    return .next (some v)

/-- What a visitor sees that fails at an index. -/
def visit (s : SealedSet Rule Value) : Option Nat → Answer
  | some n =>
    if n < s.size then .visited (s.elements.take n) (some (.raised ("stopped at " ++ toString n)))
    else .visited s.elements none
  | none => .visited s.elements none

/-- What goes wrong with a copy is answered with the array as it is then. -/
def writeInto (name array : String) (offset : Operand) : Step Answer := do
  let a ← Step.array array
  try
    let s ← set name
    let (copy, position) := s.copyInto (← get).checked a (← operand offset)
    discard (bindArray array copy)
    return .copied position copy
  catch failure => return .copied (.error failure.report) a

def answer : Command → Step Answer
  | .make name source rule expected brief => make name source rule expected brief
  | .makeEmpty name => do
    bindSet name .empty
    return .summary .empty false
  | .describe name brief => return .summary (← set name) brief
  | .contains name value => boolean do
    let s ← set name
    act ((ruled s).contains (← operand value).present?)
  | .containsEach name values => do
    let members ← values.mapM fun x => do
      let s ← set name
      act ((ruled s).contains (← operand x).present?)
    return .values (members.map .boolean)
  | .containsCount name source => do
    let s ← set name
    let supply ← supply source
    let members ← countMembers s supply.values
    discard supply.all
    return .value (.number (.ofNat members))
  | .containsAll name source => do containsAll (← set name) (← supply source)
  | .equals name other => boolean do
    let s ← set name
    act (equals s (← operand other))
  | .isSame name other => boolean do
    let s ← set name
    return (← operand other).ref? == some s.ref
  | .size name => return .value (.number (.ofNat (← set name).size))
  | .isEmpty name => boolean do return (← set name).size == 0
  | .hashCode name => return .value (.number (← set name).hashCode.toNumber)
  | .values name => return .values (← set name).elements
  | .iterate name cursor => do
    bindCursor cursor (← set name).elements
    return .done
  | .next cursor => next cursor
  | .visit name failsAt => do
    match lookUp name (← get).sets with
    | .ok s => return visit s failsAt
    | .error failure => return .visited [] (some failure)
  | .toArray name array? => do
    let s ← set name
    if let some array := array? then
      discard (bindArray array (s.elements.map some).toArray)
    return .values s.elements
  | .sort name order => do return .values (← order.comparison.sort (← set name).elements)
  | .writeInto name array offset => writeInto name array offset
  | .toText name => do return .value (.text (← (← set name).toText))
  | .makeArray array values => do
    bindArray array ((← values.mapM operand).map some).toArray
  | .push name value => do
    let a ← array name
    bindArray name (a.push (← operand value))
  | .write name index value => do
    let a ← array name
    let position ← operand index
    let x ← operand value
    bindArray name (← liftM (Value.writeTo a position x))
  | .describeArray name => return .array (← array name)
  | .hash rule value => do
    let v ← operand value
    return .value (← act (rule.rawHash v))
  | .equal rule a b => boolean do
    let x ← operand a
    let y ← operand b
    act (rule.equivalence.equal x y)

end Step

namespace Session

/-- The answer to a command, and the session after it. -/
def step (command : Command) (session : Session) : Answer × Session :=
  match Step.answer command session with
  | .ok answer session => (answer, session)
  | .error failure session => (.failed failure, session)

def run : List Command → Session → List Answer × Session
  | [], session => ([], session)
  | command :: rest, session =>
    let (answer, session) := session.step command
    let (answers, session) := session.run rest
    (answer :: answers, session)

end Session
end SealedSets
