import Mathlib.Algebra.Group.Units.Basic
import Mathlib.Data.BitVec
import SealedSets.Proofs.HashSums

/-!
# Mixing and spreading

Neither loses anything. A word is mixed into a state by a bijection of the states, so texts that
have different codes keep them apart whatever is appended, and one unit that differs is enough to
tell texts of one length apart. Spreading a code twice gives the code back.

Numbers are mixed and spread as the words they are wrapped to, signed or not. So a lookup, which
spreads a hash as it is, starts from the slot that the wrapped hash was placed from.
-/
namespace SealedSets.HashCode

theorem toHashCode_ofNat {n : ℕ} (h : n < 0x20000000000000) :
    (Binary64.ofNat n).toHashCode = BitVec.ofNat 32 n := by
  rw [Binary64.ofNat, Binary64.toHashCode, Binary64.truncate_ofInt (by simpa using h),
    BitVec.ofInt_natCast]

section Mixing

variable {a b v w : HashCode}

/-- The inverse of the factor that mixed words are spread by. -/
def mixInverse : HashCode := 0x359c449b#32

theorem isUnit_mixPrime : IsUnit mixPrime :=
  .of_mul_eq_one mixInverse (by decide)

/-- Different states stay different, whatever word is mixed in. -/
theorem mix_left_inj : mix a w = mix b w ↔ a = b := by
  rw [mix, mix, isUnit_mixPrime.mul_left_inj, BitVec.xor_left_inj]

/-- Different words lead to different states. -/
theorem mix_right_inj : mix a v = mix a w ↔ v = w := by
  rw [mix, mix, isUnit_mixPrime.mul_left_inj, BitVec.xor_right_inj]

/-- The induction is on the words, each of which is mixed in by a bijection. -/
theorem foldl_mix_inj (words : List HashCode) :
    words.foldl mix a = words.foldl mix b ↔ a = b := by
  induction words generalizing a b with
  | nil => rfl
  | cons w words ih => rw [List.foldl_cons, List.foldl_cons, ih, mix_left_inj]

end Mixing

section Texts

variable {u v : UInt16} {p q s : Text}

/-- A unit as a word. -/
def ofUnit (u : UInt16) : HashCode := u.toBitVec.setWidth 32

theorem ofUnit_inj : ofUnit u = ofUnit v ↔ u = v := by
  have hnarrow (w : UInt16) : (ofUnit w).setWidth 16 = w.toBitVec := by
    rw [ofUnit, BitVec.setWidth_setWidth_of_le _ (by decide), BitVec.setWidth_eq]
  constructor
  · intro h
    rw [← UInt16.toBitVec_inj, ← hnarrow u, h, hnarrow v]
  · exact congrArg ofUnit

theorem ofText_append : ofText (p ++ s) = (s.units.map ofUnit).foldl mix (ofText p) := by
  rw [ofText, ofWords, Text.units_append, List.map_append, List.foldl_append]
  rfl

theorem ofText_append_inj : ofText (p ++ s) = ofText (q ++ s) ↔ ofText p = ofText q := by
  rw [ofText_append, ofText_append, foldl_mix_inj]

theorem ofText_singleton_append_inj :
    ofText (p ++ ⟨[u]⟩ ++ s) = ofText (p ++ ⟨[v]⟩ ++ s) ↔ u = v := by
  rw [ofText_append_inj, ofText_append, ofText_append]
  exact mix_right_inj.trans ofUnit_inj

/-- The state after one more unit, as a number. Either operation wraps the numbers that it is given,
and gives a signed one. -/
def mixNumber (state : Binary64) (unit : UInt16) : Binary64 :=
  let joined := (state.toHashCode ^^^ (Binary64.ofNat unit.toNat).toHashCode).toNumber
  (joined.toHashCode * (Binary64.ofNat mixPrime.toNat).toHashCode).toNumber

/-- The code of a text, mixed in numbers. The number to begin with is not signed, and is wrapped at
the end if there was no unit. -/
def numberOfText (t : Text) : Binary64 :=
  (t.units.foldl mixNumber (Binary64.ofNat mixBasis.toNat)).toHashCode.toNumber

theorem toHashCode_mixNumber (state : Binary64) (u : UInt16) :
    (mixNumber state u).toHashCode = mix state.toHashCode (ofUnit u) := by
  have hunit : BitVec.ofNat 32 u.toNat = ofUnit u := BitVec.ofNat_toNat 32 u.toBitVec
  have hprime : (Binary64.ofNat mixPrime.toNat).toHashCode = mixPrime := by
    rw [toHashCode_ofNat (by decide), BitVec.ofNat_toNat, BitVec.setWidth_eq]
  have hu := u.toNat_lt
  rw [mixNumber, toHashCode_toNumber, toHashCode_toNumber, toHashCode_ofNat (by omega), hunit,
    hprime, mix]

/-- Words are mixed as the numbers are. -/
theorem numberOfText_eq (t : Text) : numberOfText t = (ofText t).toNumber := by
  have hbasis : (Binary64.ofNat mixBasis.toNat).toHashCode = mixBasis := by
    rw [toHashCode_ofNat (by decide), BitVec.ofNat_toNat, BitVec.setWidth_eq]
  rw [numberOfText, ofText, ofWords, List.foldl_map, ← hbasis]
  exact congrArg toNumber (List.foldl_hom Binary64.toHashCode fun state u =>
    (toHashCode_mixNumber state u).symm).symm

/-- Two lists that differ in one place only are the same before it and behind it. -/
theorem exists_split_of_existsUnique {α : Type} {l m : List α} (hlen : l.length = m.length)
    (h : ∃! i : ℕ, l[i]? ≠ m[i]?) : ∃ p a b s, a ≠ b ∧ l = p ++ a :: s ∧ m = p ++ b :: s := by
  obtain ⟨i, hne, hunique⟩ := h
  have hl : i < l.length := by
    by_contra hi
    exact hne (by rw [List.getElem?_eq_none (by omega), List.getElem?_eq_none (by omega)])
  have hm : i < m.length := by omega
  have hset : m = l.set i m[i] := by
    refine List.ext_getElem? fun j => ?_
    by_cases hj : j = i
    · subst hj
      rw [List.getElem?_set_self hl, List.getElem?_eq_getElem hm]
    · rw [List.getElem?_set_ne (Ne.symm hj)]
      exact (not_not.mp fun hne' => hj (hunique j hne')).symm
  refine ⟨l.take i, l[i], m[i], l.drop (i + 1), ?_, ?_, ?_⟩
  · intro heq
    exact hne (by rw [List.getElem?_eq_getElem hl, List.getElem?_eq_getElem hm, heq])
  · rw [← List.drop_eq_getElem_cons hl, List.take_append_drop]
  · rw [List.set_eq_take_append_cons_drop, if_pos hl] at hset
    exact hset

/-- Mixing a text never brings two states together. Whatever two texts are followed by, they have
one code exactly if they had one before, and texts of one length that differ in a single unit have
different codes. The codes are those that come out if all states are numbers. -/
theorem ofText_separates (p q s : Text) :
    (ofText (p ++ s) = ofText (q ++ s) ↔ ofText p = ofText q) ∧
      (p.length = q.length → (∃! i : ℕ, p.units[i]? ≠ q.units[i]?) → ofText p ≠ ofText q) ∧
      (ofText p).toNumber = numberOfText p := by
  refine ⟨ofText_append_inj, fun hlen hone => ?_, (numberOfText_eq p).symm⟩
  obtain ⟨l, u, v, r, hne, hp, hq⟩ := exists_split_of_existsUnique hlen hone
  have hp : p = ⟨l⟩ ++ ⟨[u]⟩ ++ ⟨r⟩ := congrArg Text.mk (hp.trans (List.append_cons l u r))
  have hq : q = ⟨l⟩ ++ ⟨[v]⟩ ++ ⟨r⟩ := congrArg Text.mk (hq.trans (List.append_cons l v r))
  rw [hp, hq, Ne, ofText_singleton_append_inj]
  exact hne

/-- Two units with one low byte, the first of them half of a pair that the unit behind it
completes. -/
theorem ofText_separates_half :
    let p : Text := ⟨[0x61, 0xd862]⟩
    let q : Text := ⟨[0x61, 0x0062]⟩
    let s : Text := ⟨[0xdc00]⟩
    p.length = q.length ∧ (∃! i : ℕ, p.units[i]? ≠ q.units[i]?) ∧ ofText p ≠ ofText q ∧
      ofText (p ++ s) ≠ ofText (q ++ s) := by
  intro p q s
  have hone : ∃! i : ℕ, p.units[i]? ≠ q.units[i]? := by
    refine ⟨1, by decide, fun i hi => ?_⟩
    match i with
    | 0 => exact absurd rfl hi
    | 1 => rfl
    | _ + 2 => exact absurd rfl hi
  obtain ⟨happend, hdiffer, -⟩ := ofText_separates p q s
  have hne : ofText p ≠ ofText q := hdiffer rfl hone
  exact ⟨rfl, hone, hne, fun h => hne (happend.mp h)⟩

end Texts

section Spreading

/-- The high half stays as it is, and so it can be taken out of the low half again. -/
theorem spread_involutive : Function.Involutive spread := by
  intro k
  have hhigh : k >>> spreadShift >>> spreadShift = 0#32 := by
    rw [← BitVec.shiftRight_add, BitVec.ushiftRight_eq_zero (by decide)]
  rw [spread, spread, BitVec.ushiftRight_xor_distrib, hhigh, BitVec.xor_zero, BitVec.xor_assoc,
    BitVec.xor_self, BitVec.xor_zero]

theorem spreadNumber_toNumber (k : HashCode) : spreadNumber k.toNumber = spread k := by
  rw [spreadNumber_eq, toHashCode_toNumber]

/-- The code as a number is worth an integer of 32 bits. -/
theorem units?_toNumber (k : HashCode) :
    k.toNumber.units? = some (k.toInt * Binary64.unitsPerOne) := by
  have hk := natAbs_toInt_le k
  exact Binary64.units?_ofInt (by omega)

/-- Low bits are not negative, even if the word is, and count the slots of a table. -/
theorem toInt_and_mask (w : HashCode) {k : ℕ} (hk : k ≤ 30) :
    (w &&& (Binary64.ofNat (2 ^ k - 1)).toHashCode).toInt = (w.toNat % 2 ^ k : ℕ) := by
  have hpow : 2 ^ k ≤ 2 ^ 30 := Nat.pow_le_pow_right Nat.two_pos hk
  have hmod : w.toNat % 2 ^ k < 2 ^ k := Nat.mod_lt _ (Nat.two_pow_pos k)
  have hand : (w &&& BitVec.ofNat 32 (2 ^ k - 1)).toNat = w.toNat % 2 ^ k := by
    rw [BitVec.toNat_and, BitVec.toNat_ofNat, Nat.mod_eq_of_lt (by omega),
      Nat.and_two_pow_sub_one_eq_mod]
  rw [toHashCode_ofNat (by omega), BitVec.toInt_eq_toNat_of_lt (by omega), hand]

/-- Spreading a number loses nothing of the word that the number is wrapped to, and sees nothing
else of it. What comes out is signed, and a mask for at most `2 ^ 30` slots makes a slot of it, the
one that lookups of the number as well as of its word start from. -/
theorem spreadNumber_lossless (x : Binary64) {k : ℕ} (hk : k ≤ 30) :
    spreadNumber x = spreadNumber x.toHashCode.toNumber ∧
      (spreadNumber x).toNumber.units? = some ((spreadNumber x).toInt * Binary64.unitsPerOne) ∧
      -0x80000000 ≤ (spreadNumber x).toInt ∧ (spreadNumber x).toInt < 0x80000000 ∧
      spreadNumber (spreadNumber x).toNumber = x.toHashCode ∧
      Function.Bijective (fun code : HashCode => spreadNumber code.toNumber) ∧
      ∃ slot : ℕ, slot ≤ 2 ^ k - 1 ∧
        (spreadNumber x &&& (Binary64.ofNat (2 ^ k - 1)).toHashCode).toInt = slot ∧
        ∀ {α : Type} (t : Table α), t.capacity = 2 ^ k →
          t.start x = slot ∧ t.home x.toHashCode = slot := by
  have hslot : (spreadNumber x).toNat % 2 ^ k ≤ 2 ^ k - 1 :=
    Nat.le_sub_one_of_lt (Nat.mod_lt _ (Nat.two_pow_pos k))
  refine ⟨?_, units?_toNumber _, BitVec.le_toInt _, BitVec.toInt_lt, ?_, ?_, _, hslot,
    toInt_and_mask _ hk, fun t ht => ⟨?_, ?_⟩⟩
  · rw [spreadNumber_toNumber, spreadNumber_eq]
  · rw [spreadNumber_toNumber, spreadNumber_eq, spread_involutive]
  · simp only [spreadNumber_toNumber]
    exact spread_involutive.bijective
  · rw [Table.start, ht]
  · rw [Table.home, ht, spreadNumber_eq]

set_option maxRecDepth 4000 in
/-- A number of more than 32 bits with a fraction. Its word is negative, spread or not, and its slot
among 16 is not. -/
theorem spreadNumber_lossless_fraction :
    let x := Binary64.ofFraction 0x300000007 2
    let t : Table ℕ := .blank 16
    spreadNumber x = spreadNumber (Binary64.ofInt (-0x7ffffffd)) ∧
      (spreadNumber x).toInt = -0x7fff7ffd ∧
      spreadNumber (Binary64.ofInt (-0x7fff7ffd)) = x.toHashCode ∧
      (spreadNumber x &&& (Binary64.ofNat 15).toHashCode).toInt = 3 ∧
      t.start x = 3 ∧ t.home x.toHashCode = 3 := by
  intro x t
  have hword : x.toHashCode = BitVec.ofInt 32 (-0x7ffffffd) := by decide
  have hspread : spreadNumber x = BitVec.ofInt 32 (-0x7fff7ffd) := by
    rw [spreadNumber_eq, hword]
    decide
  have hmasked : (spreadNumber x &&& (Binary64.ofNat 15).toHashCode).toInt = 3 := by
    rw [hspread]
    decide
  obtain ⟨hwrap, -, -, -, hback, -, slot, -, hslot, hstart⟩ :=
    spreadNumber_lossless x (k := 4) (by decide)
  obtain rfl : slot = 3 := by exact_mod_cast hslot.symm.trans hmasked
  rw [hword] at hwrap
  rw [hspread] at hback
  exact ⟨hwrap, by rw [hspread]; decide, hback, hmasked, hstart t (by decide)⟩

end Spreading

end SealedSets.HashCode
