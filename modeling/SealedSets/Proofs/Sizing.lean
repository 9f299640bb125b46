import SealedSets.Proofs.Rounding
import SealedSets.Table.Sizing

/-!
# Tables are large enough

The slots that a number of elements calls for do not become fewer when the number grows. So what
the sizes are chosen for is settled at the limits of the thirty sizes, which are computed. Doubling
a word of 32 bits comes to the size that `leastSize` gives at once.
-/
namespace SealedSets

open Binary64

namespace Table

/-- What the load factor is worth. -/
def loadUnits : ℕ := unitsAt 0x3fe6666666666666

set_option maxRecDepth 4000 in
theorem units?_maxLoad : maxLoad.units? = some (loadUnits : ℤ) := by decide

theorem loadUnits_pos : 0 < loadUnits := by decide

theorem isNegative_maxLoad : maxLoad.isNegative = false := by decide

/-- `slotsFor` on the levels of numbers that are not negative. -/
def slotsLevel (l : ℕ) : ℕ := countLevel minSize ⊔ ceilLevel (quotientLevel loadUnits l)

theorem slotsLevel_mono : Monotone slotsLevel := fun _ _ h =>
  sup_le_sup_left (ceilLevel_mono (quotientLevel_mono loadUnits_pos h)) _

theorem slotsFor_ofLevel (l : ℕ) :
    slotsFor (ofLevel false l) = ofLevel false (slotsLevel l) := by
  rw [slotsFor, div_ofLevel units?_maxLoad loadUnits_pos isNegative_maxLoad, ceil_ofLevel,
    ofNat_eq, max_ofLevel, slotsLevel]

theorem slotsFor_negative (l : ℕ) : slotsFor (ofLevel true l) = .ofNat minSize := by
  obtain ⟨l', hl'⟩ := ceil_negative (quotientLevel loadUnits l)
  have hpos : 0 < countLevel minSize := countLevel_pos (by decide) (by decide)
  rw [slotsFor, div_ofLevel units?_maxLoad loadUnits_pos isNegative_maxLoad, hl', ofNat_eq,
    max_negative hpos]

set_option maxRecDepth 4000 in
theorem slotsFor_nan : slotsFor .nan = .nan := by decide

section Sizes

/-- The least power of two that is neither below 2 nor below `n`. -/
def leastSize (n : ℕ) : ℕ := 2 <<< (n - 1).log2

theorem leastSize_eq {n : ℕ} (h : n ≤ maxSize) : ∃ k < 30, leastSize n = 2 <<< k := by
  refine ⟨(n - 1).log2, ?_, rfl⟩
  by_cases hn : n - 1 = 0
  · simp [hn]
  · have hmax : maxSize = 2 ^ 30 := rfl
    exact (Nat.log2_lt hn).mpr (by omega)

theorem le_leastSize (n : ℕ) : n ≤ leastSize n := by
  have h := Nat.lt_log2_self (n := n - 1)
  rw [Nat.pow_succ, Nat.mul_comm] at h
  rw [leastSize, Nat.shiftLeft_eq]
  omega

theorem two_shiftLeft (k : ℕ) : 2 <<< k = 2 ^ (k + 1) := by
  rw [Nat.shiftLeft_eq, Nat.pow_succ, Nat.mul_comm]

theorem two_shiftLeft_lt {k : ℕ} (hk : k < 30) : 2 <<< k < 0x20000000000000 := by
  have hpow : 2 ^ (k + 1) ≤ 2 ^ 30 := Nat.pow_le_pow_right (by decide) hk
  rw [two_shiftLeft]
  omega

theorem leastSize_le_iff {k n : ℕ} : leastSize n ≤ 2 <<< k ↔ n ≤ 2 <<< k := by
  refine ⟨(le_leastSize n).trans, fun h => ?_⟩
  have hlog : (n - 1).log2 ≤ k := by
    by_cases hn : n - 1 = 0
    · simp [hn]
    · rw [two_shiftLeft] at h
      exact Nat.le_of_lt_succ ((Nat.log2_lt hn).mpr (by omega))
  rw [leastSize, two_shiftLeft, two_shiftLeft]
  exact Nat.pow_le_pow_right (by decide) (by omega)

set_option maxRecDepth 4000 in
theorem limit_lt : ∀ k < 30, limit (2 <<< k) < 2 <<< k := by decide

set_option maxRecDepth 4000 in
/-- One element more than the limit of a size calls for more slots. -/
theorem lt_slotsFor_limit : ∀ k < 30,
    2 <<< k < (slotsFor (.ofNat (limit (2 <<< k) + 1))).truncate.toNat := by decide

set_option maxRecDepth 4000 in
/-- The most elements that any table holds. -/
theorem limit_maxSize : limit maxSize = 751619276 := by decide

set_option maxRecDepth 4000 in
/-- As many elements as the limit of a size call for no more slots than that. -/
theorem not_less_slotsFor_limit : ∀ k < 30,
    (Binary64.ofNat (2 <<< k)).less (slotsFor (.ofNat (limit (2 <<< k)))) = false := by decide

theorem countLevel_maxSize_lt : countLevel maxSize < topLevel := countLevel_lt (by decide)

end Sizes

section Fitting

variable {checked : Bool} {x : Binary64} {l n size : ℕ}

theorem less_slotsFor_ofLevel {m : ℕ} (hm : m < 0x20000000000000) :
    (Binary64.ofNat m).less (slotsFor (ofLevel false l)) ↔ countLevel m < slotsLevel l := by
  rw [slotsFor_ofLevel, ofNat_eq, less_ofLevel]
  exact and_iff_right (countLevel_lt hm)

theorem less_maxSize_ofLevel :
    (Binary64.ofNat maxSize).less (slotsFor (ofLevel false l)) ↔
      countLevel maxSize < slotsLevel l := less_slotsFor_ofLevel (by decide)

/-- More elements call for no fewer slots, up to the largest size. -/
theorem truncate_slotsFor_mono {m : ℕ} (h : m ≤ n)
    (hn : (Binary64.ofNat maxSize).less (slotsFor (.ofNat n)) = false) :
    (slotsFor (.ofNat m)).truncate ≤ (slotsFor (.ofNat n)).truncate := by
  have hlevel := slotsLevel_mono (countLevel_mono h)
  have hmax := countLevel_maxSize_lt
  rw [← Bool.not_eq_true, ofNat_eq n, less_maxSize_ofLevel] at hn
  rw [ofNat_eq, ofNat_eq, slotsFor_ofLevel, slotsFor_ofLevel, truncate_ofLevel (by omega),
    truncate_ofLevel (by omega)]
  exact Int.ofNat_le.mpr (wholeAt_mono hlevel)

theorem not_less_of_le_limit (h : n ≤ limit maxSize) :
    (Binary64.ofNat maxSize).less (slotsFor (.ofNat n)) = false := by
  have hlimit : (Binary64.ofNat maxSize).less (slotsFor (.ofNat (limit maxSize))) = false :=
    not_less_slotsFor_limit 29 (by decide)
  have hlevel := slotsLevel_mono (countLevel_mono h)
  rw [← Bool.not_eq_true, ofNat_eq (limit maxSize), less_maxSize_ofLevel] at hlimit
  rw [← Bool.not_eq_true, ofNat_eq n, less_maxSize_ofLevel]
  omega

/-- Neither does a hint that is no more than the count, whatever number it is. -/
theorem not_less_min (hint : Binary64) (h : n ≤ limit maxSize) :
    (Binary64.ofNat maxSize).less (slotsFor (hint.min (.ofNat n))) = false := by
  unfold Binary64.min
  split_ifs with hnan hmin
  · rw [slotsFor_nan]
    rfl
  · rcases hint with _ | ⟨_ | _, l⟩
    · cases hnan (by rfl)
    · have hl : l.val < countLevel n := by
        have hsign : (ofLevel false l.val).isNegative = false := rfl
        rw [signed_eq_ofLevel, ofNat_eq, hsign, Bool.and_false, Bool.or_false] at hmin
        exact (less_ofLevel.mp hmin).2
      have hcount := not_less_of_le_limit h
      have hlevel := slotsLevel_mono hl.le
      rw [← Bool.not_eq_true, ofNat_eq n, less_maxSize_ofLevel] at hcount
      rw [← Bool.not_eq_true, signed_eq_ofLevel, less_maxSize_ofLevel]
      omega
    · have hmin : countLevel minSize ≤ countLevel maxSize := countLevel_mono (by decide)
      rw [signed_eq_ofLevel, slotsFor_negative, ofNat_eq, ofNat_eq, ← Bool.not_eq_true,
        less_ofLevel]
      omega
  · exact not_less_of_le_limit h

/-- The slots that fit into the largest table are a count, if they are a number at all. -/
theorem slotsFor_eq_ofNat (h : (Binary64.ofNat maxSize).less (slotsFor x) = false) :
    slotsFor x = .nan ∨ ∃ m ≤ maxSize, slotsFor x = .ofNat m := by
  rcases x with _ | ⟨_ | _, l⟩
  · exact Or.inl slotsFor_nan
  · have hmax := countLevel_maxSize_lt
    rw [signed_eq_ofLevel, ← Bool.not_eq_true, less_maxSize_ofLevel, slotsLevel, ceilLevel] at h
    rw [signed_eq_ofLevel, slotsFor_ofLevel, slotsLevel, ceilLevel]
    split at h
    · omega
    · next hfinite =>
      rw [if_neg hfinite]
      generalize (unitsAt _ + (unitsPerOne - 1)) / unitsPerOne = m at h ⊢
      have hlevel : countLevel minSize ⊔ countLevel m ⊓ topLevel = countLevel (minSize ⊔ m) := by
        rw [countLevel_mono.map_sup]
        omega
      rw [hlevel] at h ⊢
      refine Or.inr ⟨minSize ⊔ m, ?_, (ofNat_eq _).symm⟩
      rwa [countLevel_lt_iff (by decide), not_lt] at h
  · rw [signed_eq_ofLevel, slotsFor_negative]
    exact Or.inr ⟨minSize, by decide, rfl⟩

theorem toNat_truncate_ofNat {m : ℕ} (h : m < 0x20000000000000) :
    (Binary64.ofNat m).truncate.toNat = m := by
  rw [ofNat_eq, truncate_ofLevel (countLevel_lt h), wholeAt_countLevel h, Int.toNat_natCast]

theorem toNat_slotsFor_le (h : (Binary64.ofNat maxSize).less (slotsFor x) = false) :
    (slotsFor x).truncate.toNat ≤ maxSize := by
  obtain hnan | ⟨m, hm, hslots⟩ := slotsFor_eq_ofNat h
  · rw [hnan]
    exact Nat.zero_le _
  · rwa [hslots, toNat_truncate_ofNat (hm.trans_lt (by decide))]

/-- As a signed word, a size that is doubled up to 29 times is what it is as a number. -/
theorem toInt_word : ∀ k < 30, (BitVec.ofNat 32 (2 <<< k)).toInt = (2 <<< k : ℕ) := by decide

theorem word_shiftLeft : ∀ k < 30,
    BitVec.ofNat 32 (2 <<< k) <<< 1 = BitVec.ofNat 32 (2 <<< (k + 1)) := by decide

/-- A size is doubled until it is the least one. The induction is on the doublings to come. -/
theorem doubled_ofNat {d k m n : ℕ} (hk : k + d < 30) (hm : leastSize m = 2 <<< (k + d))
    (hn : d ≤ n) : doubled (.ofNat m) n (.ofNat 32 (2 <<< k)) = .ofNat 32 (leastSize m) := by
  have hless (k : ℕ) (hk : k < 30) :
      (Binary64.ofInt (BitVec.ofNat 32 (2 <<< k)).toInt).less (.ofNat m) ↔
        2 <<< k < leastSize m := by
    have hsize := two_shiftLeft_lt hk
    have hlt : 2 <<< k + 1 < 0x20000000000000 := by omega
    rw [toInt_word k hk, ← not_le, leastSize_le_iff, not_le]
    exact less_ofNat hlt
  induction d generalizing k n with
  | zero =>
      have hdone : ¬(Binary64.ofInt (BitVec.ofNat 32 (2 <<< k)).toInt).less (.ofNat m) := by
        rw [hless k hk, hm]
        exact lt_irrefl _
      rw [hm, Nat.add_zero]
      cases n with
      | zero => rfl
      | succ n => rw [doubled, if_neg hdone]
  | succ d ih =>
      have hnext : (Binary64.ofInt (BitVec.ofNat 32 (2 <<< k)).toInt).less (.ofNat m) := by
        rw [hless k (by omega), hm, two_shiftLeft, two_shiftLeft]
        exact Nat.pow_lt_pow_right (by decide) (by omega)
      obtain ⟨n, rfl⟩ := Nat.exists_eq_add_of_le' hn
      rw [← Nat.add_assoc, doubled, if_pos hnext, word_shiftLeft k (by omega)]
      exact ih (by omega) (by rw [hm, Nat.add_right_comm, Nat.add_assoc]) (by omega)

/-- Where the slots fit into the largest table, no doubling leaves the words. -/
theorem doubled_slotsFor (h : (Binary64.ofNat maxSize).less (slotsFor x) = false) :
    doubled (slotsFor x) 32 (.ofNat 32 minSize) =
      .ofNat 32 (leastSize (slotsFor x).truncate.toNat) := by
  obtain hnan | ⟨m, hm, hslots⟩ := slotsFor_eq_ofNat h
  · rw [hnan]
    rfl
  · obtain ⟨k, hk, hsize⟩ := leastSize_eq hm
    rw [hslots, toNat_truncate_ofNat (hm.trans_lt (by decide))]
    exact doubled_ofNat (d := k) (k := 0) (by omega) (by rw [hsize, Nat.zero_add]) (by omega)

set_option maxRecDepth 4000 in
/-- The sizes pass the test for powers of two, and they are what they are as words. -/
theorem isPowerOfTwo_word : ∀ k < 30,
    (Binary64.ofInt (BitVec.ofNat 32 (2 <<< k)).toInt).isPowerOfTwo ∧
      (BitVec.ofNat 32 (2 <<< k)).toNat = 2 <<< k := by decide

/-- The loop leaves the least size, which passes the last test. -/
theorem sizeFor_eq (checked : Bool) (x : Binary64) :
    sizeFor checked x =
      if checked && !x.isNonNegativeInteger then throw (.invalidCount x)
      else if (Binary64.ofNat maxSize).less (slotsFor x) then throw (.capacityExceeded x)
      else return leastSize (slotsFor x).truncate.toNat := by
  unfold sizeFor
  dsimp only
  split
  · rfl
  · split
    · rfl
    · next hless =>
      rw [Bool.not_eq_true] at hless
      obtain ⟨k, hk, hsize⟩ := leastSize_eq (toNat_slotsFor_le hless)
      obtain ⟨hpower, hword⟩ := isPowerOfTwo_word k hk
      rw [doubled_slotsFor hless, hsize, hpower, hword, Bool.not_true, Bool.and_false]
      rfl

theorem sizeFor_eq_ok : sizeFor checked x = .ok size ↔
    (checked → x.isNonNegativeInteger) ∧ (Binary64.ofNat maxSize).less (slotsFor x) = false ∧
      leastSize (slotsFor x).truncate.toNat = size := by
  rw [sizeFor_eq]
  cases checked <;> cases x.isNonNegativeInteger <;>
    cases (Binary64.ofNat maxSize).less (slotsFor x) <;> simp [throw, throwThe,
      MonadExceptOf.throw, pure, Except.pure]

theorem min_self (x : Binary64) : x.min x = x := by
  unfold Binary64.min
  split_ifs with hnan
  · cases x with
    | nan => rfl
    | signed => cases hnan
  · rfl
  · rfl

/-- Without a hint, a build expects as many elements as it has candidates. -/
theorem expectation_none (n : ℕ) : expectation none n = .ofNat n := by
  rw [expectation, Option.getD_none, min_self]

theorem hintFits_none (checked : Bool) (h : n ≤ limit maxSize) : HintFits checked none n := by
  intro _
  rw [limit_maxSize] at h
  rw [expectation_none]
  exact isNonNegativeInteger_ofNat (by omega)

theorem exists_sizeFor_expectation {expected : Option Binary64} (h : n ≤ limit maxSize)
    (fits : HintFits checked expected n) :
    ∃ size, sizeFor checked (expectation expected n) = .ok size :=
  ⟨_, sizeFor_eq_ok.mpr ⟨fits, not_less_min _ h, rfl⟩⟩

/-- A count may be checked whether it is a count. -/
theorem sizeFor_count (checked : Bool) (h : n ≤ limit maxSize) :
    ∃ size, sizeFor checked (.ofNat n) = .ok size := by
  rw [← expectation_none]
  exact exists_sizeFor_expectation h (hintFits_none checked h)

/-- Every size is a power of two, so remainders by it are bit masks. -/
theorem eq_two_pow_of_sizeFor (h : sizeFor checked x = .ok size) :
    ∃ k, 1 ≤ k ∧ k ≤ 30 ∧ size = 2 ^ k := by
  obtain ⟨-, hless, rfl⟩ := sizeFor_eq_ok.mp h
  obtain ⟨k, hk, hsize⟩ := leastSize_eq (toNat_slotsFor_le hless)
  refine ⟨k + 1, by omega, by omega, ?_⟩
  rw [hsize, Nat.shiftLeft_eq, Nat.pow_succ, Nat.mul_comm]

/-- A table that is filled to its limit has a free slot. -/
theorem limit_lt_of_sizeFor (h : sizeFor checked x = .ok size) : limit size < size := by
  obtain ⟨-, hless, rfl⟩ := sizeFor_eq_ok.mp h
  obtain ⟨k, hk, hsize⟩ := leastSize_eq (toNat_slotsFor_le hless)
  rw [hsize]
  exact limit_lt k hk

/-- The size for a count has room for that many elements. -/
theorem le_limit_of_sizeFor (h : sizeFor checked (.ofNat n) = .ok size) : n ≤ limit size := by
  obtain ⟨-, hless, rfl⟩ := sizeFor_eq_ok.mp h
  obtain ⟨k, hk, hsize⟩ := leastSize_eq (toNat_slotsFor_le hless)
  by_contra hlt
  have hmore := lt_slotsFor_limit k hk
  rw [← hsize] at hmore
  have hmono := truncate_slotsFor_mono (Nat.add_one_le_iff.mpr (Nat.lt_of_not_le hlt)) hless
  have hleast := le_leastSize (slotsFor (.ofNat n)).truncate.toNat
  omega

end Fitting
end Table
end SealedSets
