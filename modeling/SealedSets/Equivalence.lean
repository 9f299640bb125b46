import SealedSets.Failure
import SealedSets.Identity

/-!
How a set tells its elements apart: which values it accepts, when two are equal, and their hash
codes. Each of the three may fail, and may number objects on the way.
-/
namespace SealedSets

/-- A computation that may number objects and may fail. Numbers given before a failure stay. -/
abbrev Action := EStateM Failure IdentityCodes

instance {σ : Type} : MonadLift (Except Failure) (EStateM Failure σ) :=
  ⟨MonadExcept.ofExcept⟩

namespace Action

def identityCode (ref : Ref) : Action HashCode := modifyGet (IdentityCodes.request ref)

/-- A failure counts as no. -/
def orFalse (test : Action Bool) : Action Bool := tryCatch test fun _ => pure false

end Action

/-- How values are looked up among stored elements. A hash is a number of any kind, and a hash code
only once it is wrapped. Of one family are those that have one hash function. -/
structure Matching (β α : Type) where
  accepts : α → Action Bool
  equal : β → α → Action Bool
  hash : α → Action Binary64
  family : Nat

/-- The hash code of an element to store. -/
def Matching.code {α β : Type} (E : Matching β α) (x : α) : Action HashCode :=
  return (← E.hash x).toHashCode

/-- What is stored are the values themselves. -/
abbrev Equivalence (α : Type) := Matching α α

/-- An equivalence that neither fails nor numbers objects. -/
def Equivalence.ofPure {α : Type} (accepts : α → Bool) (equal : α → α → Bool)
    (hash : α → Binary64) (family : Nat) : Equivalence α where
  accepts x := pure (accepts x)
  equal x y := pure (equal x y)
  hash x := pure (hash x)
  family := family

end SealedSets
