import SealedSets.Value

/-!
Hash codes of values. A set has the hash code that it was made with, so no hash looks into a set.
-/
namespace SealedSets.Value

/-- The hash code of a value by its content, or by its identity if it has one. -/
def plainHash : Value → Action HashCode
  | undefined | null => pure 0
  | boolean b => pure (HashCode.ofBool b)
  | number x => pure (HashCode.ofNumber x)
  | text t => pure (HashCode.ofText t)
  | bigint n => pure (HashCode.ofInteger n)
  | symbol _ description? => pure (HashCode.ofText (symbolText description?))
  | object ref _ => Action.identityCode ref
  | set s => Action.identityCode s.ref

/-- A value that defines its own hash code is asked for it. -/
def ownHash : Value → Action HashCode
  | object _ (.money _ cents) => pure cents.toHashCode
  | object _ (.scripted script) => return (← script.hash).toHashCode
  | set s => pure s.hashCode
  | v@(object _ (.record _)) => if v.hasOwnEquality then pure 0 else v.plainHash
  | v => v.plainHash

end SealedSets.Value
