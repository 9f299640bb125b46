import SealedSets.Binary64.Arithmetic
import SealedSets.Text

/-!
Hash codes: 32-bit words, read as signed integers. Sums and products wrap.
-/
namespace SealedSets

abbrev HashCode := BitVec 32

/-- A number as a hash code: its whole part, wrapped; 0 for NaN and the infinities. -/
def Binary64.toHashCode (x : Binary64) : HashCode := BitVec.ofInt 32 x.truncate

/-- The same word, read as an integer that is not negative. -/
def Binary64.toUnsigned (x : Binary64) : Nat := (x.truncate % 0x100000000).toNat

/-- The bits of a power of two and of its predecessor are disjoint. Only the low 32 bits are
looked at. -/
def Binary64.isPowerOfTwo (x : Binary64) : Bool :=
  x.isInteger && Binary64.zero.less x &&
    x.toHashCode &&& (x - Binary64.ofNat 1).toHashCode == 0

namespace HashCode

def toNumber (code : HashCode) : Binary64 := Binary64.ofInt code.toInt

def spreadShift : Nat := 16

/-- Folds the high half into the low half, so that a short index depends on both. -/
def spread (code : HashCode) : HashCode := code ^^^ (code >>> spreadShift)

/-- Folds a number that was not wrapped before: it is wrapped for either half by itself. -/
def spreadNumber (x : Binary64) : HashCode :=
  x.toHashCode ^^^ BitVec.ofNat 32 (x.toUnsigned >>> spreadShift)

@[simp] theorem spreadNumber_eq (x : Binary64) : spreadNumber x = spread x.toHashCode := by
  have hw : BitVec.ofNat 32 (x.toUnsigned >>> spreadShift) = x.toHashCode >>> spreadShift := by
    apply BitVec.eq_of_toNat_eq
    have hx : x.toUnsigned = x.toHashCode.toNat := by
      simp [Binary64.toUnsigned, Binary64.toHashCode, BitVec.toNat_ofInt]
    rw [BitVec.toNat_ushiftRight, BitVec.toNat_ofNat, hx, Nat.mod_eq_of_lt]
    exact Nat.lt_of_le_of_lt (Nat.shiftRight_le ..) x.toHashCode.isLt
  rw [spreadNumber, spread, hw]

def mixBasis : HashCode := 0x811c9dc5#32

def mixPrime : HashCode := 0x01000193#32

/-- Each word is joined by exclusive or and spread by an odd factor. -/
def mix (state word : HashCode) : HashCode := (state ^^^ word) * mixPrime

def ofWords (words : List HashCode) : HashCode := words.foldl mix mixBasis

def ofText (t : Text) : HashCode :=
  ofWords (t.units.map fun u => u.toBitVec.setWidth 32)

def ofBool (b : Bool) : HashCode := if b then 1231#32 else 1237#32

/-- The hash code of the decimal text. -/
def ofInteger (n : Int) : HashCode := ofText (toString n)

/-- The one hash code of NaN. -/
def nan : HashCode := 0x7ff80000#32

/-- The low and the high word of the bits of a number. -/
def ofBits (x : Binary64) : HashCode :=
  ofWords [x.toBits.extractLsb' 0 32, x.toBits.extractLsb' 32 32]

/-- An integer of 32 bits is its own hash code, minus zero included; any other number is mixed
from the low and the high word of its bits. -/
def ofNumber (x : Binary64) : HashCode :=
  let code := x.toHashCode
  if (toNumber code).equal x then code
  else if x.isNan then nan
  else ofBits x

/-- The sum of two numbers as a hash code; it wraps for hash codes. -/
def ofSum (x y : Binary64) : HashCode := (x + y).toHashCode

/-- The hash code of no elements. -/
def empty : HashCode := 0#32

end HashCode
end SealedSets
