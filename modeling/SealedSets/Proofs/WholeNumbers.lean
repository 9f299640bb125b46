import SealedSets.Proofs.Rounding

/-!
# Whole numbers

Integers of at most 53 digits are numbers, and sums of such integers are rounded as the integers
are that they are worth. An integer of more digits is rounded to a multiple of a power of two.
-/
namespace SealedSets.Binary64

section Places

variable {x y : Binary64}

/-- Numbers in one place are worth the same. -/
theorem units?_congr (h : x.place? = y.place?) : x.units? = y.units? := by
  rcases x with _ | ⟨p, a, ha⟩ <;> rcases y with _ | ⟨q, b, hb⟩
  · rfl
  · cases h
  · cases h
  · simp only [place?, Option.some.injEq] at h
    obtain rfl : a = b := by
      split_ifs at h <;> omega
    by_cases hzero : a = 0
    · subst hzero
      cases p <;> cases q <;> rfl
    · obtain rfl : p = q := by
        cases p <;> cases q <;> simp at h ⊢ <;> omega
      rfl

theorem less_congr (h : x.place? = y.place?) (z : Binary64) : x.less z = y.less z := by
  rw [Bool.eq_iff_iff, less_iff, less_iff, h]

theorem less_congr_right (h : x.place? = y.place?) (z : Binary64) : z.less x = z.less y := by
  rw [Bool.eq_iff_iff, less_iff, less_iff, h]

theorem isNonNegativeInteger_congr (h : x.place? = y.place?) :
    x.isNonNegativeInteger = y.isNonNegativeInteger := by
  rw [isNonNegativeInteger, isNonNegativeInteger, isInteger, isInteger, units?_congr h,
    less_congr h]

theorem place?_eq_of_equal (h : x.equal y) : x.place? = y.place? := by
  obtain ⟨a, hx, hy⟩ := equal_iff.mp h
  rw [hx, hy]

end Places

variable {x y : Binary64} {m n : ℤ}

theorem unitsAt_eq_zero_iff {l : ℕ} : unitsAt l = 0 ↔ l = 0 := by
  constructor
  · intro h
    rw [← nearestLevel_unitsAt l, h]
    rfl
  · rintro rfl
    rfl

theorem ofInt_eq_ofLevel (n : ℤ) : ofInt n = ofLevel (n < 0) (countLevel n.natAbs) := by
  rw [ofInt_eq, nearest, countLevel]

theorem isNegative_ofInt (n : ℤ) : (ofInt n).isNegative = decide (n < 0) := by
  rw [ofInt_eq_ofLevel, ofLevel, isNegative]

/-- Integers of at most 53 digits are numbers. -/
theorem units?_ofInt (h : n.natAbs < 0x20000000000000) :
    (ofInt n).units? = some (n * unitsPerOne) := by
  rw [ofInt_eq_ofLevel, units?_ofLevel (countLevel_lt h), unitsAt_countLevel h, Nat.cast_mul,
    ← Int.neg_mul]
  by_cases hn : n < 0
  · simp [hn, abs_of_neg hn]
  · simp [hn, abs_of_nonneg (not_lt.mp hn)]

theorem truncate_of_units? (h : x.units? = some (n * unitsPerOne)) : x.truncate = n := by
  have hunits : (unitsPerOne : ℤ) ≠ 0 := by exact_mod_cast unitsPerOne_pos.ne'
  rw [truncate_eq, h, Option.map_some, Option.getD_some, Int.mul_tdiv_cancel _ hunits]

theorem truncate_ofInt (h : n.natAbs < 0x20000000000000) : (ofInt n).truncate = n :=
  truncate_of_units? (units?_ofInt h)

/-- Numbers that are worth integers have the sum that their integers have. Zero would be negative
only as a sum of two negative numbers. -/
theorem add_eq_ofInt (hx : x.units? = some (m * unitsPerOne))
    (hy : y.units? = some (n * unitsPerOne))
    (hsign : m + n = 0 → (x.isNegative && y.isNegative) = false) : x + y = ofInt (m + n) := by
  have hpos : (0 : ℤ) < unitsPerOne := by exact_mod_cast unitsPerOne_pos
  change add x y = _
  rw [add, hx, hy]
  dsimp only
  rw [← Int.add_mul]
  by_cases hzero : m + n = 0
  · rw [hsign hzero, hzero, Int.zero_mul, if_pos rfl]
    decide
  · have hneg : decide ((m + n) * unitsPerOne < 0) = decide (m + n < 0) :=
      decide_eq_decide.mpr
      (by simpa using mul_lt_mul_iff_left₀ hpos (b := m + n) (c := 0))
    rw [if_neg (mul_ne_zero hzero hpos.ne'), hneg, ofUnits, ofInt_eq, Int.natAbs_mul,
      Int.natAbs_natCast]

/-- A sum of integers is rounded as the integer is that it is worth. -/
theorem ofInt_add (hm : m.natAbs < 0x20000000000000) (hn : n.natAbs < 0x20000000000000) :
    ofInt m + ofInt n = ofInt (m + n) := by
  refine add_eq_ofInt (units?_ofInt hm) (units?_ofInt hn) fun hzero => ?_
  rw [isNegative_ofInt, isNegative_ofInt, Bool.and_eq_false_iff, decide_eq_false_iff_not,
    decide_eq_false_iff_not]
  omega

section Counts

variable {k n : ℕ}

theorem units?_of_equal_ofNat (hn : n < 0x20000000000000) (h : x.equal (ofNat n)) :
    x.units? = some ((n : ℤ) * unitsPerOne) := by
  rw [units?_congr (place?_eq_of_equal h)]
  exact units?_ofInt (by simpa using hn)

/-- Counting on from a count, whichever zero it is if it is zero. -/
theorem add_ofNat (hn : n < 0x20000000000000) (hk : k < 0x20000000000000)
    (h : x.equal (ofNat n)) : x + ofNat k = ofNat (n + k) := by
  refine add_eq_ofInt (units?_of_equal_ofNat hn h) (units?_ofInt (by simpa using hk)) fun _ => ?_
  rw [isNegative_ofInt, Bool.and_eq_false_iff, decide_eq_false_iff_not]
  omega

theorem equal_self_ofNat (n : ℕ) : (ofNat n).equal (ofNat n) := by
  rw [equal_iff, ofNat_eq]
  exact ⟨_, rfl, rfl⟩

theorem ceil_ofNat (hn : n < 0x20000000000000) : (ofNat n).ceil = ofNat n := by
  have hpos := unitsPerOne_pos
  have hlevel := countLevel_lt hn
  rw [ofNat_eq, ceil_ofLevel, ceilLevel, if_neg (by omega), ofLevel_min, unitsAt_countLevel hn,
    Nat.mul_comm, Nat.mul_add_div hpos, Nat.div_eq_of_lt (Nat.sub_one_lt_of_lt hpos), Nat.add_zero]

/-- What is a count at most another one is equal to some count that is not more. -/
theorem exists_equal_ofNat (h : x.isNonNegativeInteger) (hle : (ofNat n).less x = false) :
    ∃ m ≤ n, x.equal (ofNat m) := by
  obtain rfl | ⟨m, rfl⟩ := eq_ofNat_of_isNonNegativeInteger h
  · exact ⟨0, Nat.zero_le n, by decide⟩
  · by_cases hmn : m ≤ n
    · exact ⟨m, hmn, equal_self_ofNat m⟩
    · -- both are rounded to one number
      refine ⟨n, le_rfl, ?_⟩
      have hlevel := countLevel_mono (Nat.le_of_not_le hmn)
      rw [ofNat_eq, ofNat_eq, ← Bool.not_eq_true, less_ofLevel] at hle
      rw [ofNat_eq, ofNat_eq, equal_iff]
      refine ⟨_, rfl, ?_⟩
      simp only [ofLevel, place?, Option.some.injEq]
      simp only [Bool.false_eq_true, if_false, Nat.cast_inj]
      omega

end Counts

section Rounding

variable {c d m n p q : ℕ}

/-- The integer nearest to an integer, among those of 53 digits and zeros behind them. -/
def rounded (n : ℕ) : ℕ :=
  roundHalfEven n (2 ^ (n.log2 - 52)) * 2 ^ (n.log2 - 52)

theorem roundHalfEven_mul_right (hc : 0 < c) :
    roundHalfEven (m * c) (d * c) = roundHalfEven m d := by
  have hlt (a b : ℕ) : a * c < b * c ↔ a < b := Nat.mul_lt_mul_right hc
  rw [roundHalfEven, Nat.mul_div_mul_right _ _ hc, Nat.mul_mod_mul_right, ← Nat.mul_assoc]
  simp only [hlt]
  rfl

theorem unitsAt_add (hlow : fractions ≤ q) (hhigh : q ≤ 2 * fractions) :
    unitsAt (p * fractions + q) = q * 2 ^ p := by
  have hlevel : ¬p * fractions + q < fractions := by omega
  obtain ⟨r, rfl⟩ := Nat.exists_eq_add_of_le hlow
  rw [unitsAt, if_neg hlevel, Nat.shiftLeft_eq,
    show p * fractions + (fractions + r) = r + fractions * (p + 1) by ring,
    Nat.add_mul_mod_self_left, Nat.add_mul_div_left _ _ (by decide)]
  by_cases hr : r < fractions
  · rw [Nat.mod_eq_of_lt hr, Nat.div_eq_of_lt hr, Nat.zero_add, Nat.add_sub_cancel]
  · -- one place further on, where the digits start anew
    obtain rfl : r = fractions := by omega
    rw [Nat.mod_self, Nat.div_self (by decide), show 1 + (p + 1) - 1 = p + 1 by omega, Nat.pow_succ]
    ring

theorem rounded_of_lt (h : n < 0x20000000000000) : rounded n = n := by
  have hlog : n.log2 - 52 = 0 := by
    by_cases hn : n = 0
    · rw [hn]
      rfl
    · have := (Nat.log2_lt (k := 53) hn).mpr h
      omega
  have hround := roundHalfEven_mul (n := n) one_pos
  rw [Nat.mul_one] at hround
  rw [rounded, hlog, Nat.pow_zero, hround, Nat.mul_one]

/-- The number nearest to an integer is worth an integer. -/
theorem unitsAt_countLevel_eq (n : ℕ) : unitsAt (countLevel n) = rounded n * unitsPerOne := by
  by_cases h : n < 0x20000000000000
  · rw [unitsAt_countLevel h, rounded_of_lt h]
  · have shift (k : ℕ) : 1 <<< k = 2 ^ k := Nat.one_shiftLeft k
    obtain ⟨k, hone⟩ : ∃ k, unitsPerOne = 2 ^ k := ⟨1074, shift 1074⟩
    have hlog : 52 ≤ n.log2 := (Nat.le_log2 (by omega)).mpr (by omega)
    obtain ⟨e, he⟩ := Nat.exists_eq_add_of_le hlog
    have hlow : 2 ^ e * fractions ≤ n := by
      have := Nat.log2_self_le (n := n) (by omega)
      rwa [he, Nat.add_comm, Nat.pow_add] at this
    have hhigh : n < 2 ^ e * (2 * fractions) := by
      have := Nat.lt_log2_self (n := n)
      rwa [he, show 52 + e + 1 = e + 53 by omega, Nat.pow_add] at this
    rw [countLevel, nearestLevel, rounded, hone, Nat.div_one, ← Nat.shiftLeft_eq,
      log2_shiftLeft (by omega), he, Nat.shiftLeft_eq, Nat.shiftLeft_eq, Nat.one_mul,
      show 52 + e + k - 52 = e + k by omega, Nat.add_sub_cancel_left, Nat.pow_add,
      roundHalfEven_mul_right (Nat.two_pow_pos _),
      unitsAt_add (le_roundHalfEven (Nat.two_pow_pos e) hlow) (roundHalfEven_le hhigh),
      Nat.pow_add, Nat.mul_assoc]

theorem units?_ofNat (h : countLevel n < topLevel) :
    (ofNat n).units? = some ((rounded n : ℤ) * unitsPerOne) := by
  rw [ofNat_eq, units?_ofLevel h, unitsAt_countLevel_eq]
  simp

end Rounding

end SealedSets.Binary64
