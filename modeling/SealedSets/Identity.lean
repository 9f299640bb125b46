import SealedSets.HashCode

/-!
Identity hash codes. Objects are numbered in the order in which their hash codes are first asked
for, and the code of an object is its number times an odd constant.
-/
namespace SealedSets

/-- What makes an object, a symbol or a set the same one. All empty sets are one set. -/
inductive Ref where
  | symbol (n : Nat)
  | object (n : Nat)
  | set (n : Nat)
  | emptySet
  /-- a function that values have in common -/
  | shared (name : Text)
  /-- the object that all objects inherit from -/
  | ancestor
deriving DecidableEq

/-- The objects that have a code, in the order of their first request. -/
structure IdentityCodes where
  requested : List Ref := []

namespace IdentityCodes

/-- The fractional part of the golden ratio, which keeps successive codes far apart. -/
def goldenRatio : HashCode := 0x9e3779b9#32

/-- The code of the object with this number; the first object has number 1. -/
def codeAt (number : Nat) : HashCode := BitVec.ofNat 32 number * goldenRatio

/-- The code of an object, which is numbered now if it has no code yet. -/
def request (ref : Ref) (codes : IdentityCodes) : HashCode × IdentityCodes :=
  match codes.requested.idxOf? ref with
  | some i => (codeAt (i + 1), codes)
  | none => (codeAt (codes.requested.length + 1), ⟨codes.requested ++ [ref]⟩)

end IdentityCodes
end SealedSets
