import SealedSets.Binary64.Arithmetic

/-!
The shortest decimal text of a number: the fewest digits that read back to it, and of those the
digits nearest to it. Exponents of the leading digit from -6 to 20 are written positionally.
-/
namespace SealedSets.Binary64

/-- `digits * 10 ^ exponent`. -/
structure Decimal where
  digits : Nat
  exponent : Int

namespace Decimal

/-- A power of ten, and one for negative exponents. -/
def tenTo (exponent : Int) : Nat := Nat.pow 10 exponent.toNat

/-- Numerator and denominator of a decimal, in half units. -/
def halfUnits (d : Decimal) : Nat × Nat :=
  (d.digits * tenTo d.exponent * 2 * unitsPerOne, tenTo (-d.exponent))

/-- A decimal reads back to a level if it is between the midpoints to the levels next to it. A
midpoint itself belongs to the even level. -/
def readsBack (d : Decimal) (level : Nat) : Bool :=
  let (num, den) := d.halfUnits
  let low := (unitsAt (level - 1) + unitsAt level) * den
  let high := (unitsAt level + unitsAt (level + 1)) * den
  if level % 2 = 0 then low ≤ num && num ≤ high else low < num && num < high

/-- The number of decimal digits before the point; below one tenth it is negative. -/
def pointPlace (level : Nat) : Int :=
  let whole := unitsAt level / unitsPerOne
  if whole = 0 then (Nat.toDigits 10 (unitsAt level * tenTo 400 / unitsPerOne)).length - 400
  else (Nat.toDigits 10 whole).length

/-- The greatest decimal with this exponent that is not above a level. -/
def below (level : Nat) (exponent : Int) : Decimal :=
  ⟨unitsAt level * tenTo (-exponent) / (unitsPerOne * tenTo exponent), exponent⟩

/-- Of a decimal and its successor, the one that reads back; of two, the nearer one, and the even
one of two equally near. -/
def select? (level : Nat) (d : Decimal) : Option Decimal :=
  let next : Decimal := ⟨d.digits + 1, d.exponent⟩
  match d.readsBack level, next.readsBack level with
  | true, false => some d
  | false, true => some next
  | false, false => none
  | true, true =>
    let (num, den) := Decimal.halfUnits ⟨2 * d.digits + 1, d.exponent⟩
    let twice := 4 * unitsAt level * den
    if twice < num || (twice = num && d.digits % 2 = 0) then some d else some next

/-- Seventeen digits always suffice; the exact value closes the search. -/
def shortest (level : Nat) : Decimal :=
  let place := pointPlace level
  let found := (List.range 17).findSome? fun (count : Nat) =>
    select? level (below level (place - (count + 1)))
  found.getD ⟨unitsAt level * Nat.pow 5 1074, -1074⟩

def zeros (n : Int) : List Char := List.replicate n.toNat '0'

/-- Digits without trailing zeros, and the place of the point among them. -/
def written (d : Decimal) : List Char × Int :=
  let digits := Nat.toDigits 10 d.digits
  ((digits.reverse.dropWhile (· == '0')).reverse, digits.length + d.exponent)

def layout (d : Decimal) : List Char :=
  let (digits, place) := d.written
  if 0 < place && place ≤ 21 then
    if digits.length ≤ place then digits ++ zeros (place - digits.length)
    else digits.take place.toNat ++ '.' :: digits.drop place.toNat
  else if -6 < place && place ≤ 0 then '0' :: '.' :: zeros (-place) ++ digits
  else
    let fraction := digits.drop 1
    let exponent := place - 1
    digits.take 1 ++ (if fraction.isEmpty then [] else '.' :: fraction) ++
      'e' :: (if exponent < 0 then '-' else '+') :: Nat.toDigits 10 exponent.natAbs

end Decimal

/-- Both zeros are written without a sign. -/
def toString : Binary64 → String
  | .nan => "NaN"
  | .signed negative level =>
    let magnitude :=
      if level.val = 0 then "0"
      else if level.val = topLevel then "Infinity"
      else String.ofList (Decimal.shortest level.val).layout
    if negative && level.val ≠ 0 then "-" ++ magnitude else magnitude

instance : ToString Binary64 := ⟨Binary64.toString⟩

end SealedSets.Binary64
