import SealedSets.Binary64

/-!
Arithmetic: every operation is computed exactly on units and rounded once, to the nearest level
and to the even one of two equally near levels.
-/
namespace SealedSets.Binary64

/-- The integer nearest to `num / den`, the even one of two. -/
def roundHalfEven (num den : Nat) : Nat :=
  let q := num / den
  let r := num % den
  if 2 * r < den then q else if den < 2 * r then q + 1 else q + q % 2

theorem roundHalfEven_mul {n d : Nat} (hd : 0 < d) : roundHalfEven (n * d) d = n := by
  rw [roundHalfEven, Nat.mul_mod_left, Nat.mul_zero, if_pos hd, Nat.mul_div_cancel _ hd]

/-- The level nearest to `num / den` units. A quotient of `53 + s` binary digits is rounded to a
multiple of `2 ^ s`; `fractions` levels further on, numbers are twice as large. -/
def nearestLevel (num den : Nat) : Nat :=
  let shift := (num / den).log2 - 52
  shift * fractions + roundHalfEven num (den <<< shift)

def nearest (negative : Bool) (num den : Nat) : Binary64 :=
  ofLevel negative (nearestLevel num den)

/-- The number nearest to so many units. The sign is given apart from them, as zero has one. -/
def ofUnits (negative : Bool) (u : Int) : Binary64 :=
  nearest negative u.natAbs 1

/-- The level of a positive integer of at most 53 binary digits. -/
def integerLevel (n : Nat) : Nat := (n.log2 + 1022) * fractions + (n <<< (52 - n.log2))

theorem log2_shiftLeft {n : Nat} (hn : 0 < n) (k : Nat) : (n <<< k).log2 = n.log2 + k := by
  rw [Nat.shiftLeft_eq,
    Nat.log2_eq_iff (Nat.mul_ne_zero (Nat.ne_of_gt hn) (Nat.ne_of_gt (Nat.two_pow_pos k)))]
  constructor
  · rw [Nat.pow_add]
    exact Nat.mul_le_mul_right _ (Nat.log2_self_le (Nat.ne_of_gt hn))
  · rw [Nat.add_right_comm, Nat.pow_add]
    exact Nat.mul_lt_mul_of_pos_right Nat.lt_log2_self (Nat.two_pow_pos k)

theorem nearestLevel_integer {n : Nat} (hn : 0 < n) (h : n < 0x20000000000000) :
    nearestLevel (n * unitsPerOne) 1 = integerLevel n := by
  have shift (k : Nat) : 1 <<< k = 2 ^ k := Nat.one_shiftLeft k
  have hp : unitsPerOne = 2 ^ 1074 := shift 1074
  have hlog : n.log2 ≤ 52 := by
    have := (Nat.log2_lt (n := n) (k := 53) (by omega)).mpr h
    omega
  have log (k : Nat) : (n * 2 ^ k).log2 = n.log2 + k := by
    rw [← Nat.shiftLeft_eq, log2_shiftLeft hn]
  have hq : n * 2 ^ 1074 = n * 2 ^ (52 - n.log2) * 2 ^ (n.log2 + 1022) := by
    rw [show 1074 = 52 - n.log2 + (n.log2 + 1022) by omega, Nat.pow_add, Nat.mul_assoc]
  simp only [nearestLevel, integerLevel, hp, Nat.div_one, log, Nat.shiftLeft_eq, Nat.one_mul]
  rw [show n.log2 + 1074 - 52 = n.log2 + 1022 by omega, hq, roundHalfEven_mul (Nat.two_pow_pos _)]

def ofInt (n : Int) : Binary64 :=
  if n = 0 then zero
  else if n.natAbs < 0x20000000000000 then ofLevel (n < 0) (integerLevel n.natAbs)
  else nearest (n < 0) (n.natAbs * unitsPerOne) 1

theorem ofInt_eq (n : Int) : ofInt n = nearest (n < 0) (n.natAbs * unitsPerOne) 1 := by
  unfold ofInt
  split
  · subst n; decide
  · split
    · rw [nearest, nearestLevel_integer (by omega) (by assumption)]
    · rfl

def ofNat (n : Nat) : Binary64 := ofInt n

/-- The number nearest to a decimal fraction `num / den`. -/
def ofFraction (num den : Nat) : Binary64 :=
  nearest false (num * unitsPerOne) den

def neg : Binary64 → Binary64
  | .nan => .nan
  | .signed negative level => .signed (!negative) level

/-- A sum that is exactly zero is minus zero only if both terms are. -/
def add (x y : Binary64) : Binary64 :=
  match x.units?, y.units? with
  | some a, some b =>
    if a + b = 0 then ofUnits (x.isNegative && y.isNegative) 0
    else ofUnits (a + b < 0) (a + b)
  | some _, none => y
  | none, some _ => x
  | none, none => if x = y then x else .nan

def sub (x y : Binary64) : Binary64 := add x y.neg

def mul (x y : Binary64) : Binary64 :=
  let negative := x.isNegative != y.isNegative
  match x.units?, y.units? with
  | some a, some b => nearest negative (a.natAbs * b.natAbs) unitsPerOne
  | some a, none => if a = 0 || y.isNan then .nan else infinity negative
  | none, some b => if b = 0 || x.isNan then .nan else infinity negative
  | none, none => if x.isNan || y.isNan then .nan else infinity negative

def div (x y : Binary64) : Binary64 :=
  let negative := x.isNegative != y.isNegative
  match x.units?, y.units? with
  | some a, some b =>
    if b = 0 then (if a = 0 then .nan else infinity negative)
    else nearest negative (a.natAbs * unitsPerOne) b.natAbs
  | some _, none => if y.isNan then .nan else ofUnits negative 0
  | none, some _ => if x.isNan then .nan else infinity negative
  | none, none => .nan

/-- The remainder of the division toward zero, with the sign of the dividend. -/
def rem (x y : Binary64) : Binary64 :=
  match x.units?, y.units? with
  | some a, some b => if b = 0 then .nan else ofUnits x.isNegative (a.tmod b)
  | some _, none => if y.isNan then .nan else x
  | none, _ => .nan

instance : Neg Binary64 := ⟨neg⟩
instance : Add Binary64 := ⟨add⟩
instance : Sub Binary64 := ⟨sub⟩
instance : Mul Binary64 := ⟨mul⟩
instance : Div Binary64 := ⟨div⟩
instance : Mod Binary64 := ⟨rem⟩

/-- The greatest integer not above; it keeps the sign of zero. -/
def floor (x : Binary64) : Binary64 :=
  match x.units? with
  | some u => ofUnits x.isNegative (u.fdiv unitsPerOne * unitsPerOne)
  | none => x

/-- The least integer not below; between minus one and zero it is minus zero. -/
def ceil (x : Binary64) : Binary64 := -(-x).floor

/-- NaN if either is NaN; minus zero is the smaller zero. -/
def min (x y : Binary64) : Binary64 :=
  if x.isNan || y.isNan then .nan
  else if x.less y || (x.equal y && x.isNegative) then x else y

/-- NaN if either is NaN; minus zero is the smaller zero. -/
def max (x y : Binary64) : Binary64 :=
  if x.isNan || y.isNan then .nan
  else if y.less x || (x.equal y && !x.isNegative) then x else y

end SealedSets.Binary64
