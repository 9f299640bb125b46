import SealedSets.Value.Coercion

/-!
Arrays whose positions and lengths are values of any kind. A value that is no number names a place
by its text.
-/
namespace SealedSets

/-- What a position names in an array. -/
inductive Place where
  | slot (i : Nat)
  /-- the length, which can be written to -/
  | length
  /-- nothing that is read or written -/
  | nowhere

namespace Value

def place : Value → Except Failure Place
  | number x => return ofIndex? (Slots.index? x)
  | symbol .. => return .nowhere
  | v => do
    let t ← v.toText
    return if t = lengthField then .length else ofIndex? t.toIndex?
where
  ofIndex? (i? : Option Nat) : Place := i?.elim .nowhere .slot

/-- What an array has at a position; a hole is undefined. -/
def readFrom (a : Slots Value) (position : Value) : Except Failure Value := do
  match ← position.place with
  | .slot i => return (a.read? i).getD undefined
  | .length => return number (.ofNat a.size)
  | .nowhere => return undefined

/-- The array for a length. What is no number is not a length but the one item. -/
def slots : Value → Except Failure (Slots Value)
  | number x => Slots.blank x
  | _ => pure #[none]

/-- How many numbers, from zero on, are below a value. -/
def countBelow (bound : Value) : Except Failure Nat := do
  match ← bound.plain with
  | bigint n => return n.toNat
  | v => return Slots.countBelow (← v.toNumber)

/-- An offset lies in an array of this length or at its end. Only numbers are offsets. -/
def isOffset (length : Nat) : Value → Bool
  | number x => x.isNonNegativeInteger && !(Binary64.ofNat length).less x
  | _ => false

end Value

/-- A computation that writes to an array and may fail. What it wrote before a failure stays. -/
abbrev Edit := EStateM Failure (Slots Value)

namespace Edit

/-- A write to the length cuts or extends the array. -/
def write (position x : Value) : Edit Unit := do
  match ← position.place with
  | .slot i => modify (·.write i x)
  | .length => set (← (← get).resize (← x.asNumber))
  | .nowhere => return ()

/-- Writes what `source` has `i` places behind one position `i` places behind another one. -/
def copySlot (source : Slots Value) (sourceStart targetStart : Value) (i : Nat) : Edit Unit := do
  let position ← targetStart.plus (.number (.ofNat i))
  write position (← Value.readFrom source (← sourceStart.plus (.number (.ofNat i))))

/-- Copies so many slots of `source`. The result is the position after the last. -/
def overwrite (source : Slots Value) (sourceStart targetStart length : Value) : Edit Value := do
  (List.range (← length.countBelow)).forM (copySlot source sourceStart targetStart)
  targetStart.plus length

/-- Writes the elements of a set from an offset on. The result is the position after the last. -/
def writeElements (offset : Value) : SealedSet Rule Value → Edit Value
  | .empty => return offset
  | .singleton _ _ x _ => do
    write offset x
    offset.plus (.number (.ofNat 1))
  | .table _ _ t =>
    overwrite (t.elements.map some) (.number .zero) offset (.number (.ofNat t.size))

/-- The result and the array, if nothing fails. -/
def finish {α : Type} (edit : Edit α) (a : Slots Value) : Except Failure (Slots Value × α) :=
  match edit a with
  | .ok x a => .ok (a, x)
  | .error failure _ => .error failure

end Edit

def Value.writeTo (a : Slots Value) (position x : Value) : Except Failure (Slots Value) :=
  return (← (Edit.write position x).finish a).1

def Value.overwrite (source : Slots Value) (sourceStart : Value) (target : Slots Value)
    (targetStart length : Value) : Except Failure (Slots Value × Value) :=
  (Edit.overwrite source sourceStart targetStart length).finish target

namespace SealedSet

/-- Copies the elements from an offset on, which is checked before anything is written. The array is
as it is after the copy, which may have failed. -/
def copyInto (checked : Bool) (s : SealedSet Rule Value) (target : Slots Value)
    (offset : Value) : Slots Value × Except Report Value :=
  if checked && !offset.isOffset target.size then
    match offset.asText with
    | .ok t => (target, .error (.outside offset target.size t))
    | .error failure => (target, .error failure.report)
  else
    match Edit.writeElements offset s target with
    | .ok position copy => (copy, .ok position)
    | .error failure copy => (copy, .error failure.report)

end SealedSet
end SealedSets
