/-!
Text as a sequence of 16-bit units. A character above `0xffff` takes two units, a high and a low
surrogate; a surrogate may also stand alone, so not every text is a sequence of characters.
-/
namespace SealedSets

structure Text where
  units : List UInt16
deriving DecidableEq, Inhabited

namespace Text

def ofChar (c : Char) : List UInt16 :=
  let n := c.toNat
  if n < 0x10000 then [n.toUInt16]
  else [(0xd800 + (n - 0x10000) / 0x400).toUInt16, (0xdc00 + (n - 0x10000) % 0x400).toUInt16]

def ofString (s : String) : Text := ⟨s.toList.flatMap ofChar⟩

instance : Coe String Text := ⟨ofString⟩

instance : Append Text := ⟨fun s t => ⟨s.units ++ t.units⟩⟩

@[simp] theorem units_append (s t : Text) : (s ++ t).units = s.units ++ t.units := rfl

def length (t : Text) : Nat := t.units.length

/-- The order of texts is that of their units. -/
def less (s t : Text) : Bool := s.units < t.units

def join (separator : Text) (parts : List Text) : Text :=
  ⟨List.intercalate separator.units (parts.map units)⟩

def isHigh (u : UInt16) : Bool := 0xd800 ≤ u && u < 0xdc00

def isLow (u : UInt16) : Bool := 0xdc00 ≤ u && u < 0xe000

/-- At most so many units, and a mark where there are more. -/
def clipped (longest : Nat) (t : Text) : Text :=
  if t.length ≤ longest then t else ⟨t.units.take longest⟩ ++ ofString "…"

/-- Only so many units from either end if there are more than `longest`. -/
def abridged (longest kept : Nat) (t : Text) : Text :=
  if t.length ≤ longest then t
  else ⟨t.units.take kept⟩ ++ ofString "...<omitted>..." ++ ⟨t.units.drop (t.length - kept)⟩

/-- A high surrogate stays with the low one that follows it, every other unit stands alone. -/
def groups : List UInt16 → List (List UInt16)
  | [] => []
  | [u] => [[u]]
  | u :: v :: rest =>
    if isHigh u && isLow v then [u, v] :: groups rest else [u] :: groups (v :: rest)

/-- The characters of a text, each as a text; a lone surrogate counts as a character. -/
def characters (t : Text) : List Text := (groups t.units).map .mk

def toChar? : List UInt16 → Option Char
  | [u] => if isHigh u || isLow u then none else some (Char.ofNat u.toNat)
  | [u, v] => some (Char.ofNat (0x10000 + (u.toNat - 0xd800) * 0x400 + (v.toNat - 0xdc00)))
  | _ => none

/-- There is none if a surrogate stands alone. -/
def toString? (t : Text) : Option String :=
  (t.characters.mapM fun c => toChar? c.units).map String.ofList

end Text
end SealedSets
