import SealedSets.Equivalence
import SealedSets.Slots
import SealedSets.Value.Coercion

/-!
Where values and candidates come from. What is bound to a name is looked up before anything is
drawn.
-/
namespace SealedSets

/-- What a session has bound; sets, arrays and cursors have names of their own. -/
structure Bindings where
  sets : List (String × SealedSet Rule Value) := []
  arrays : List (String × Slots Value) := []
  /-- the values that a cursor has yet to give -/
  cursors : List (String × List Value) := []
  /-- the values with names of their own, as they were first made -/
  values : List (String × Value) := []

/-- A computation that may make named values and may fail. What it made before a failure stays. -/
abbrev Reading := EStateM Failure Bindings

/-- Binds a name, in place of what it was bound to. -/
def assign {α : Type} (name : String) (x : α) (pairs : List (String × α)) : List (String × α) :=
  (name, x) :: pairs.filter (·.1 != name)

/-- What a name is bound to. -/
def lookUp {α : Type} (name : String) (pairs : List (String × α)) : Except Failure α :=
  match pairs.lookup name with
  | some x => pure x
  | none => throw (.unbound name)

/-- A value that may mention sets and other values by name. -/
inductive Operand where
  | value (v : Value)
  | set (name : String)
  | list (ref : Ref) (elements : List Operand)
  | record (ref : Ref) (fields : List (Text × Operand))
  /-- a name means one value, which is made where the name is first read -/
  | named (name : String) (x : Operand)

def Operand.read : Operand → Reading Value
  | value v => pure v
  | set name => return .set (← lookUp name (← get).sets)
  | list ref elements => return .object ref (.list (← readAll elements))
  | record ref fields => return .object ref (.record (← readFields fields))
  | named name x => do
    if let some v := (← get).values.lookup name then return v
    let v ← x.read
    modify fun b => { b with values := (name, v) :: b.values }
    return v
where
  readAll : List Operand → Reading (List Value)
    | [] => pure []
    | x :: rest => return (← x.read) :: (← readAll rest)
  readFields : List (Text × Operand) → Reading (List (Text × Value))
    | [] => pure []
    | (name, x) :: rest => return (name, ← x.read) :: (← readFields rest)

/-- The values that can be drawn, and what the drawing fails with after the last. -/
structure Supply where
  values : List Value
  failure? : Option Failure := none

/-- All values, if the drawing does not fail. -/
def Supply.all (s : Supply) : Except Failure (List Value) :=
  match s.failure? with
  | some failure => throw failure
  | none => return s.values

inductive Source where
  | values (items : List Operand)
  /-- sums of a start and the multiples of a step -/
  | range (start : Value) (count : Nat) (step : Value)
  /-- pseudo-random numbers below a modulus -/
  | random (seed count : Nat) (modulus : Binary64)
  | numbered (stem : Text) (count : Nat)
  | characters (t : Text)
  /-- values of which one cannot be drawn -/
  | failing (items : List Operand) (failsAt : Nat)
  /-- sources that are drawn to their ends, one after another -/
  | chain (sources : List Source)
  | array (name : String)
  | set (name : String)

namespace Source

/-- The states of a linear congruential generator after its seed. -/
def congruential : Nat → Nat → List Nat
  | 0, _ => []
  | count + 1, x =>
    let next := (x * 1664525 + 1013904223) % 0x100000000
    next :: congruential count next

def read : Source → Reading Supply
  | values items => return ⟨← items.mapM Operand.read, none⟩
  | range start count step => do
    let values ← (List.range count).mapM fun i => do
      start.plus (.number (.ofNat i * (← step.toNumber)))
    return ⟨values, none⟩
  | random seed count modulus =>
    return ⟨(congruential count seed).map fun x => .number (.ofNat x % modulus), none⟩
  | numbered stem count =>
    return ⟨(List.range count).map fun i => .text (stem ++ toString i), none⟩
  | characters t => return ⟨t.characters.map .text, none⟩
  | failing items failsAt => do
    let drawn ← items.mapM Operand.read
    if failsAt < drawn.length then
      return ⟨drawn.take failsAt, some (.raised ("source failed at " ++ toString failsAt))⟩
    else return ⟨drawn, none⟩
  | chain sources => return ⟨← readAll sources, none⟩
  | array name => return ⟨(← lookUp name (← get).arrays).toList.map (·.getD .undefined), none⟩
  | set name => return ⟨(← lookUp name (← get).sets).elements, none⟩
where
  readAll : List Source → Reading (List Value)
    | [] => return []
    | s :: rest => do
      let drawn ← (← s.read).all
      return drawn ++ (← readAll rest)

end Source
end SealedSets
