import SealedSets.Table

/-!
Sets that are fixed when they are made. A set keeps the first of equal candidates, in the order of
arrival, and the equivalence that told them apart, in whatever form `ρ` its owner writes one.
-/
namespace SealedSets

/-- A single element needs no table. -/
inductive SealedSet (ρ α : Type) where
  | empty
  | singleton (ref : Ref) (rule : ρ) (element : α) (hashCode : HashCode)
  | table (ref : Ref) (rule : ρ) (table : Table α)

namespace SealedSet

variable {ρ σ α β : Type}

def ref : SealedSet ρ α → Ref
  | empty => .emptySet
  | singleton ref .. => ref
  | table ref .. => ref

def rule? : SealedSet ρ α → Option ρ
  | empty => none
  | singleton _ rule .. => some rule
  | table _ rule _ => some rule

def elements : SealedSet ρ α → List α
  | empty => []
  | singleton _ _ x _ => [x]
  | table _ _ t => t.elements.toList

def size : SealedSet ρ α → Nat
  | empty => 0
  | singleton .. => 1
  | table _ _ t => t.size

@[simp] theorem length_elements (s : SealedSet ρ α) : s.elements.length = s.size := by
  cases s <;> simp [elements, size, Table.size]

def capacity? : SealedSet ρ α → Option Nat
  | table _ _ t => some t.capacity
  | _ => none

def hashCode : SealedSet ρ α → HashCode
  | empty => HashCode.empty
  | singleton _ _ _ code => code
  | table _ _ t => t.hashCode

/-- The same set under another reading of its equivalence. -/
def mapRule (f : ρ → σ) : SealedSet ρ α → SealedSet σ α
  | empty => empty
  | singleton ref rule x code => singleton ref (f rule) x code
  | table ref rule t => table ref (f rule) t

@[simp] theorem ref_mapRule (f : ρ → σ) (s : SealedSet ρ α) : (s.mapRule f).ref = s.ref := by
  cases s <;> rfl

@[simp] theorem elements_mapRule (f : ρ → σ) (s : SealedSet ρ α) :
    (s.mapRule f).elements = s.elements := by
  cases s <;> rfl

@[simp] theorem hashCode_mapRule (f : ρ → σ) (s : SealedSet ρ α) :
    (s.mapRule f).hashCode = s.hashCode := by
  cases s <;> rfl

/-- The same set with something else in place of every element. -/
def map (f : α → β) : SealedSet ρ α → SealedSet ρ β
  | empty => empty
  | singleton ref rule x code => singleton ref rule (f x) code
  | table ref rule t => table ref rule (t.map f)

/-- The set of the candidates under the equivalence that `rule` stands for. -/
def ofCandidates (checked : Bool) (read : ρ → Equivalence α) (rule : ρ) (ref : Ref)
    (expected : Option Binary64) (candidates : List (Option α)) : Action (SealedSet ρ α) := do
  if candidates.isEmpty then return empty
  let t ← Table.ofCandidates checked (read rule) expected candidates
  match t.elements.toList with
  | [x] => return singleton ref rule x (← (read rule).code x)
  | _ => return table ref rule t

/-- Only a table asks for the hash code of the value. -/
def holds : SealedSet (Matching β α) β → α → Action Bool
  | empty, _ => pure false
  | singleton _ E x _, y => do if ← E.accepts y then E.equal x y else pure false
  | table _ E t, y => do if ← E.accepts y then t.contains E y else pure false

/-- A missing value is no member, and neither is one for which the equivalence fails. -/
def contains (s : SealedSet (Matching β α) β) : Option α → Action Bool
  | none => pure false
  | some x => (s.holds x).orFalse

/-- The number of values before the first that is no member. -/
def leading (s : SealedSet (Matching β α) β) : List (Option α) → Action Nat
  | [] => pure 0
  | x :: rest => do if ← s.contains x then return (← s.leading rest) + 1 else pure 0

def containsAll (s : SealedSet (Matching β α) β) (values : List (Option α)) : Action Bool :=
  return (← s.leading values) == values.length

/-- A set is equal to itself, and not to one of another hash function, size or hash code. A set
without elements has no hash function. -/
def verdict? (family : ρ → Nat) (s t : SealedSet ρ α) : Option Bool :=
  if s.ref = t.ref then some true
  else if s.size ≠ t.size then some false
  else if s.rule?.map family ≠ t.rule?.map family then some false
  else if s.hashCode ≠ t.hashCode then some false
  else none

/-- Sets on which there is no verdict yet are equal if the first contains every element of the
second. -/
def equals (s t : SealedSet (Equivalence α) α) : Action Bool :=
  match verdict? Matching.family s t with
  | some answer => pure answer
  | none => s.containsAll (t.elements.map some)

end SealedSet
end SealedSets
