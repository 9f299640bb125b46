import SealedSets.Value.Hash
import SealedSets.Value.Scheme

/-!
Equality of values, in which sets may be nested to any depth, and the equivalences of the rules.
-/
namespace SealedSets

namespace Value

/-- Whether a value is an amount of so much money; NaN cents are equal to none. -/
def isMoney (currency : Text) (cents : Binary64) : Value → Bool
  | object _ (.money currency' cents') => currency == currency' && cents.equal cents'
  | _ => false

/-- What a scripted object says about a value. -/
def scriptedEqual (b : Value) (ref : Ref) (script : Script) : Action Bool :=
  return (← script.equal).getD (b.ref? == some ref)

/-- An object that defines its own equality is asked for it, if it is on the left. -/
def ownEqual (a b : Value) : Action Bool :=
  match a with
  | object _ (.money currency cents) => pure (b.isMoney currency cents)
  | object ref (.scripted script) => b.scriptedEqual ref script
  | a => pure (!a.hasOwnEquality && a.same b)

end Value

/-- What is asked of an element: whether a value is equal to it under a rule. -/
abbrev Test := Rule → Value → Action Bool

namespace Rule

def accepts (v : Value) : Rule → Action Bool
  | closed => pure false
  | custom _ scheme => scheme.accepts v
  | _ => pure v.isPresent

/-- A hash before it is wrapped, which need not be a number. -/
def rawHash (v : Value) : Rule → Action Value
  | identity => return .number (← v.plainHash).toNumber
  | custom _ scheme => scheme.rawHash v
  | _ => return .number (← v.ownHash).toNumber

def hash (v : Value) (rule : Rule) : Action Binary64 := do
  (← rule.rawHash v).toNumber

/-- The equality of a rule, by which the elements of sets are not looked at. -/
def flatEqual (a b : Value) : Rule → Action Bool
  | natural => a.ownEqual b
  | identity => pure (a.same b)
  | strict | closed => pure (a.identical b)
  | never => pure false
  | custom _ scheme => scheme.equal a b

/-- A rule with a test in place of every element. -/
def matching (rule : Rule) : Matching Test Value where
  accepts v := rule.accepts v
  equal test v := test rule v
  hash v := rule.hash v
  family := rule.family

end Rule

namespace Value

/-- Whether two values are equal under a rule. The natural equality of two sets asks the elements
of the first about those of the second. -/
def equal (a : Value) (rule : Rule) (b : Value) : Action Bool :=
  match a, rule, b with
  | set s, .natural, set t =>
    match SealedSet.verdict? Rule.family s t with
    | some answer => pure answer
    | none => ((ofSet s).mapRule Rule.matching).containsAll (t.elements.map some)
  | set _, .natural, _ => pure false
  | a, rule, b => rule.flatEqual a b
termination_by structural a
where
  ofSet : SealedSet Rule Value → SealedSet Rule Test
    | .empty => .empty
    | .singleton ref rule x code => .singleton ref rule (fun rule b => x.equal rule b) code
    | .table ref rule t => .table ref rule (ofTable t)
  termination_by structural s => s
  ofTable : Table Value → Table Test
    | ⟨elements, slots, code⟩ => ⟨ofElements elements, ofSlots slots, code⟩
  termination_by structural t => t
  ofElements : Array Value → Array Test
    | ⟨xs⟩ => ofElementList #[] xs
  termination_by structural xs => xs
  ofElementList (done : Array Test) : List Value → Array Test
    | [] => done
    | x :: xs => ofElementList (done.push fun rule b => x.equal rule b) xs
  termination_by structural xs => xs
  ofSlots : Array (Option Value) → Array (Option Test)
    | ⟨slots⟩ => ofSlotList #[] slots
  termination_by structural slots => slots
  ofSlotList (done : Array (Option Test)) : List (Option Value) → Array (Option Test)
    | [] => done
    | x :: xs => ofSlotList (done.push (ofSlot x)) xs
  termination_by structural xs => xs
  ofSlot : Option Value → Option Test
    | none => none
    | some x => some fun rule b => x.equal rule b
  termination_by structural x => x

end Value

def Rule.equivalence (rule : Rule) : Equivalence Value where
  accepts v := rule.accepts v
  equal a b := a.equal rule b
  hash v := rule.hash v
  family := rule.family

end SealedSets
