import SealedSets.Binary64
import SealedSets.Text

/-!
The equivalences that values can be told apart by, as data.
-/
namespace SealedSets

/-- Equivalences with a hash function of their own. -/
inductive Scheme where
  /-- all values are equal -/
  | always
  /-- texts, all with one hash -/
  | constant (hash : Binary64)
  /-- texts with the hashes of a list, and one hash for the others -/
  | listed (hashes : List (Text × Binary64)) (default : Binary64)
  /-- texts, equal if they are equally long -/
  | byLength
  /-- numbers, equal if they leave equal remainders -/
  | modulo (divisor : Binary64)
  /-- records, equal if their ids are -/
  | byId
  /-- texts, some of which it fails on -/
  | guarded
deriving DecidableEq

inductive Rule where
  /-- values that define their own equality are asked for it -/
  | natural
  /-- every object is equal to itself only -/
  | identity
  /-- hashes as `natural` does, and NaN is equal to nothing -/
  | strict
  /-- hashes as `natural` does, and nothing is equal -/
  | never
  /-- hashes and compares as `strict` does, and accepts nothing -/
  | closed
  /-- two definitions are two rules, even of one scheme -/
  | custom (definition : Nat) (scheme : Scheme)
deriving DecidableEq

/-- Two rules have one hash function if and only if they are of one family. -/
def Rule.family : Rule → Nat
  | natural | strict | never | closed => 0
  | identity => 1
  | custom definition _ => definition + 2

end SealedSets
