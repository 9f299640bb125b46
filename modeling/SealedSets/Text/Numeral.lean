import SealedSets.Binary64.Arithmetic
import SealedSets.Text

/-!
Numbers spelled in texts. Blanks around a numeral do not count, and blanks alone spell zero.
-/
namespace SealedSets.Text

/-- Spaces of every width, line ends and the byte order mark. -/
def isBlank (u : UInt16) : Bool :=
  (0x09 ≤ u && u ≤ 0x0d) || (0x2000 ≤ u && u ≤ 0x200a) ||
    [0x20, 0xa0, 0x1680, 0x2028, 0x2029, 0x202f, 0x205f, 0x3000, 0xfeff].contains u

def trimmed (t : Text) : List UInt16 :=
  ((t.units.dropWhile isBlank).reverse.dropWhile isBlank).reverse

/-- What a digit is worth, if it is one in this base. Letters of both cases follow the nine. -/
def digit? (base : Nat) (u : UInt16) : Option Nat :=
  let n := u.toNat
  let worth :=
    if 0x30 ≤ n && n ≤ 0x39 then n - 0x30
    else if 0x61 ≤ n && n ≤ 0x7a then n - 0x61 + 10
    else if 0x41 ≤ n && n ≤ 0x5a then n - 0x41 + 10
    else base
  if worth < base then some worth else none

/-- Digits and nothing else, at least one. -/
def natural? (base : Nat) (us : List UInt16) : Option Nat :=
  if us.isEmpty then none
  else (us.mapM (digit? base)).map (·.foldl (fun n d => n * base + d) 0)

def startsAs (us : List UInt16) (letter : String) : Bool :=
  us.take 2 == (ofString ("0" ++ letter)).units

/-- An integer in base 16, 8 or 2, which has no sign. -/
def based? (us : List UInt16) : Option Nat :=
  let natural (base : Nat) := natural? base (us.drop 2)
  if startsAs us "x" || startsAs us "X" then natural 16
  else if startsAs us "o" || startsAs us "O" then natural 8
  else if startsAs us "b" || startsAs us "B" then natural 2
  else none

/-- Whether there is a minus sign, and what follows the sign. -/
def signed : List UInt16 → Bool × List UInt16
  | [] => (false, [])
  | u :: us => if u = 0x2d then (true, us) else (false, if u = 0x2b then us else u :: us)

def integer? (us : List UInt16) : Option Int :=
  let (negative, us) := signed us
  (natural? 10 us).map fun n => if negative then -(n : Int) else n

/-- The part before the first unit that passes, and the part after it. -/
def cut (test : UInt16 → Bool) (us : List UInt16) : List UInt16 × Option (List UInt16) :=
  let (before, after) := us.span (!test ·)
  (before, if after.isEmpty then none else some (after.drop 1))

/-- Digits with or without a point, and a power of ten. -/
def decimal? (us : List UInt16) : Option (Nat × Int) := do
  let (mantissa, power?) := cut (fun u => u == 0x65 || u == 0x45) us
  let (whole, fraction?) := cut (· == 0x2e) mantissa
  let fraction := fraction?.getD []
  let digits ← natural? 10 (whole ++ fraction)
  let power ← match power? with
    | some power => integer? power
    | none => some 0
  return (digits, power - fraction.length)

/-- Numbers from `10 ^ 400` on are infinite, and below `10 ^ -400` they are zero. -/
def rounded (negative : Bool) (digits : Nat) (exponent : Int) : Binary64 :=
  let place := exponent + (digits.log2 + 1 : Nat)
  if digits = 0 || place < -400 then .ofUnits negative 0
  else if 400 < exponent then .infinity negative
  else .nearest negative (digits * Nat.pow 10 exponent.toNat * Binary64.unitsPerOne)
    (Nat.pow 10 (-exponent).toNat)

/-- A text that spells no number is worth NaN. -/
def toNumber (t : Text) : Binary64 :=
  let us := t.trimmed
  if us.isEmpty then .zero
  else match based? us with
    | some n => .ofNat n
    | none =>
      let (negative, us) := signed us
      if us = (ofString "Infinity").units then .infinity negative
      else match decimal? us with
        | some (digits, exponent) => rounded negative digits exponent
        | none => .nan

/-- The integer that a text spells without point and power. -/
def toInteger? (t : Text) : Option Int :=
  let us := t.trimmed
  if us.isEmpty then some 0
  else match based? us with
    | some n => some n
    | none => integer? us

end SealedSets.Text
