/-!
Double-precision numbers as exact integers.

The values that are not negative are numbered in ascending order: zero is level 0, every next
double is one level up, and infinity is the last. A number is a sign and a level, so comparing
numbers is comparing integers. `units?` is the other view: the exact value of a finite number
as a multiple of the least positive one, on which all arithmetic is done.
-/
namespace SealedSets

namespace Binary64

/-- The number of fractions for each exponent, `2 ^ 52`. -/
abbrev fractions : Nat := 0x10000000000000

/-- The level of infinity, above 2046 exponents of normal numbers and one of subnormal ones. -/
abbrev topLevel : Nat := 2047 * fractions

end Binary64

inductive Binary64 where
  | nan
  | signed (negative : Bool) (level : Fin (Binary64.topLevel + 1))
deriving DecidableEq

namespace Binary64

/-- A level beyond the last one is infinity. -/
def ofLevel (negative : Bool) (level : Nat) : Binary64 :=
  .signed negative ⟨min level topLevel, by omega⟩

def infinity (negative : Bool) : Binary64 := ofLevel negative topLevel

def zero : Binary64 := ofLevel false 0

instance : Inhabited Binary64 := ⟨zero⟩

/-- How many units, of the least positive number each, a level is worth. -/
def unitsAt (level : Nat) : Nat :=
  if level < fractions then level
  else (fractions + level % fractions) <<< (level / fractions - 1)

/-- The number one in units. -/
def unitsPerOne : Nat := 1 <<< 1074

/-- The exact value in units; there is none for NaN and the infinities. -/
def units? : Binary64 → Option Int
  | .nan => none
  | .signed negative level =>
    if level.val = topLevel then none
    else some (if negative then -(unitsAt level.val : Int) else unitsAt level.val)

def isNan : Binary64 → Bool
  | .nan => true
  | .signed .. => false

/-- The sign bit; zero has one too, and NaN is written without it. -/
def isNegative : Binary64 → Bool
  | .nan => false
  | .signed negative _ => negative

/-- NaN is below nothing and above nothing. -/
def less : Binary64 → Binary64 → Bool
  | .signed false ⟨a, _⟩, .signed false ⟨b, _⟩ => a < b
  | .signed true ⟨a, _⟩, .signed true ⟨b, _⟩ => b < a
  | .signed true ⟨a, _⟩, .signed false ⟨b, _⟩ => 0 < a + b
  | _, _ => false

/-- Numeric equality: NaN differs from itself, and the two zeros are equal. -/
def equal : Binary64 → Binary64 → Bool
  | .signed p ⟨a, _⟩, .signed q ⟨b, _⟩ => a == b && (p == q || a == 0)
  | _, _ => false

/-- Numeric equality, with NaN equal to NaN. -/
def same (x y : Binary64) : Bool := x.equal y || (x.isNan && y.isNan)

/-- The place of a number among all numbers; the two zeros share one place, NaN has none. -/
def place? : Binary64 → Option Int
  | .nan => none
  | .signed negative level => some (if negative then -(level.val : Int) else level.val)

@[simp] theorem place?_nan : nan.place? = none := rfl

theorem less_iff {x y : Binary64} :
    x.less y ↔ ∃ a b, x.place? = some a ∧ y.place? = some b ∧ a < b := by
  rcases x with _ | ⟨p, a, ha⟩
  · simp [less]
  · rcases y with _ | ⟨q, b, hb⟩
    · simp [less]
    · cases p <;> cases q <;> simp [less, place?]
      omega

theorem equal_iff {x y : Binary64} :
    x.equal y ↔ ∃ a, x.place? = some a ∧ y.place? = some a := by
  rcases x with _ | ⟨p, a, ha⟩
  · simp [equal]
  · rcases y with _ | ⟨q, b, hb⟩
    · simp [equal]
    · cases p <;> cases q <;> simp [equal, place?] <;> omega

theorem same_iff {x y : Binary64} : x.same y ↔ x.place? = y.place? := by
  rcases x with _ | ⟨p, a, ha⟩
  · cases y <;> simp [same, equal, isNan, place?]
  · rcases y with _ | ⟨q, b, hb⟩
    · simp [same, equal, isNan, place?]
    · cases p <;> cases q <;> simp [same, equal, isNan, place?] <;> omega

/-- The whole part of what a level is worth. -/
def wholeAt (level : Nat) : Nat :=
  let digits := fractions + level % fractions
  let place := level / fractions
  if place < 1023 then 0
  else if place < 1075 then digits >>> (1075 - place)
  else digits <<< (place - 1075)

theorem wholeAt_eq (level : Nat) : wholeAt level = unitsAt level / unitsPerOne := by
  have split_pow {a b c : Nat} (h : a = b + c) : 2 ^ a = 2 ^ b * 2 ^ c := by rw [h, Nat.pow_add]
  have shift (k : Nat) : 1 <<< k = 2 ^ k := Nat.one_shiftLeft k
  have hp : unitsPerOne = 2 ^ 1074 := shift 1074
  have hm : level % fractions < fractions := Nat.mod_lt _ (by decide)
  unfold wholeAt unitsAt
  split <;> rename_i h
  · rw [if_pos, Nat.div_eq_of_lt]
    · have : fractions < unitsPerOne := by decide
      omega
    · simp [Nat.div_eq_of_lt h]
  · have hl : 0 < level / fractions := Nat.div_pos (Nat.le_of_not_lt h) (by decide)
    generalize hd : fractions + level % fractions = d
    generalize level / fractions = place at *
    obtain ⟨k, rfl⟩ : ∃ k, place = k + 1 := ⟨place - 1, by omega⟩
    have hd : d < 2 ^ 53 := by simp only [fractions] at *; omega
    simp only [Nat.add_sub_cancel, Nat.shiftLeft_eq, Nat.shiftRight_eq_div_pow, hp]
    have bound {m : Nat} (h : 53 + k ≤ m) : d * 2 ^ k < 2 ^ m :=
      calc d * 2 ^ k < 2 ^ 53 * 2 ^ k := Nat.mul_lt_mul_of_pos_right hd (Nat.two_pow_pos k)
        _ = 2 ^ (53 + k) := (Nat.pow_add ..).symm
        _ ≤ 2 ^ m := Nat.pow_le_pow_right (by decide) h
    split
    · have := bound (m := 1074) (by omega)
      exact (Nat.div_eq_of_lt this).symm
    · split
      · rw [split_pow (a := 1074) (b := 1075 - (k + 1)) (c := k) (by omega),
          Nat.mul_div_mul_right _ _ (Nat.two_pow_pos k)]
      · rw [split_pow (a := k) (b := k + 1 - 1075) (c := 1074) (by omega), ← Nat.mul_assoc,
          Nat.mul_div_cancel _ (Nat.two_pow_pos 1074)]

/-- The whole part, toward zero; 0 where there is no finite value. -/
def truncate : Binary64 → Int
  | .nan => 0
  | .signed negative level =>
    if level.val = topLevel then 0
    else if negative then -(wholeAt level.val : Int) else wholeAt level.val

theorem truncate_eq (x : Binary64) :
    x.truncate = (x.units?.map fun u => u.tdiv unitsPerOne).getD 0 := by
  cases x with
  | nan => rfl
  | signed negative level =>
    simp only [truncate, units?, wholeAt_eq]
    split
    · rfl
    · cases negative
      · exact (Int.ofNat_tdiv ..)
      · exact (congrArg Neg.neg (Int.ofNat_tdiv ..)).trans (Int.neg_tdiv ..).symm

def isInteger (x : Binary64) : Bool :=
  match x.units? with
  | some u => u % unitsPerOne == 0
  | none => false

/-- Minus zero counts as not negative. -/
def isNonNegativeInteger (x : Binary64) : Bool :=
  x.isInteger && !x.less zero

/-- The place value of the sign bit in the interchange format, `2 ^ 63`. -/
abbrev signBit : Nat := 0x8000000000000000

/-- The interchange format: a sign bit above the level. Every NaN is written as one. -/
def toBits : Binary64 → BitVec 64
  | .nan => 0x7ff8000000000000#64
  | .signed negative level => BitVec.ofNat 64 ((if negative then signBit else 0) + level.val)

def ofBits (bits : BitVec 64) : Binary64 :=
  let level := bits.toNat % signBit
  if topLevel < level then .nan else ofLevel (signBit ≤ bits.toNat) level

end Binary64
end SealedSets
