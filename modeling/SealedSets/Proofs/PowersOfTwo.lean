import SealedSets.Proofs.WholeNumbers
import SealedSets.Validation

/-!
# The test for powers of two

The test sees the low 32 bits of an integer and of its predecessor. It is right up to `2 ^ 32`.
Behind that it also lets integers pass that only end like a power of two, or in zeros. From
`2 ^ 53` on, the predecessor is rounded besides.
-/
namespace SealedSets.Binary64

section Bits

variable {a b : ℕ}

/-- Two integers have no bit in common as words if they have none of the low bits in common. -/
theorem ofInt_and_ofInt_eq_zero_iff :
    BitVec.ofInt 32 (a : ℤ) &&& BitVec.ofInt 32 (b : ℤ) = 0 ↔ (a &&& b) % 2 ^ 32 = 0 := by
  rw [BitVec.ofInt_natCast, BitVec.ofInt_natCast, ← BitVec.ofNat_and, ← BitVec.toNat_inj,
    BitVec.toNat_ofNat]
  rfl

theorem and_pred_mod_eq_zero_iff (ha : 0 < a) :
    (a &&& (a - 1)) % 2 ^ 32 = 0 ↔ a % 2 ^ 32 = 0 ∨ ∃ k, a % 2 ^ 32 = 2 ^ k := by
  rw [Nat.and_mod_two_pow]
  by_cases hzero : a % 2 ^ 32 = 0
  · rw [hzero, Nat.zero_and]
    exact iff_of_true rfl (Or.inl rfl)
  · have hpred : (a - 1) % 2 ^ 32 = a % 2 ^ 32 - 1 := by omega
    rw [hpred, Nat.and_sub_one_eq_zero_iff_isPowerOfTwo hzero]
    exact ⟨Or.inr, fun h => h.resolve_left hzero⟩

/-- What twice an odd number has in common with the even number before it is that number. -/
theorem and_sub_two_mod_eq_zero_iff (ha : a % 4 = 2) :
    (a &&& (a - 2)) % 2 ^ 32 = 0 ↔ a % 2 ^ 32 = 2 := by
  obtain ⟨b, rfl⟩ : ∃ b, a = 4 * b + 2 := ⟨a / 4, by omega⟩
  have hor : 4 * b + 2 = 4 * b ||| 2 := Nat.two_pow_add_eq_or_of_lt (i := 2) (by decide) b
  have hand : (4 * b + 2) &&& (4 * b) = 4 * b := by
    refine Nat.eq_of_testBit_eq fun i => ?_
    rw [hor, Nat.testBit_and, Nat.testBit_or]
    cases (4 * b).testBit i <;> simp
  rw [Nat.add_sub_cancel, hand]
  omega

end Bits

section Rounding

variable {c d n : ℕ}

/-- The predecessor of a multiple of two is half way between two multiples. That of a multiple of
more than two is nearest to the multiple. -/
theorem roundHalfEven_pred (hc : 0 < c) (hd : 2 ≤ d) :
    roundHalfEven (c * d - 1) d = if d = 2 ∧ c % 2 = 1 then c - 1 else c := by
  obtain ⟨b, rfl⟩ : ∃ b, c = b + 1 := ⟨c - 1, by omega⟩
  have hnum : (b + 1) * d - 1 = (d - 1) + d * b := by
    rw [Nat.add_mul, Nat.one_mul, Nat.mul_comm]
    omega
  have hdiv : ((b + 1) * d - 1) / d = b := by
    rw [hnum, Nat.add_mul_div_left _ _ (by omega), Nat.div_eq_of_lt (by omega), Nat.zero_add]
  have hmod : ((b + 1) * d - 1) % d = d - 1 := by
    rw [hnum, Nat.add_mul_mod_self_left, Nat.mod_eq_of_lt (by omega)]
  rw [roundHalfEven, hdiv, hmod]
  split_ifs <;> omega

theorem dvd_of_rounded_eq (h : rounded n = n) : 2 ^ (n.log2 - 52) ∣ n :=
  ⟨_, by rw [Nat.mul_comm]; exact h.symm⟩

/-- The predecessor of a number of more than 53 digits is rounded back to the number. Only that of
twice an odd number is rounded down. -/
theorem rounded_pred (h : rounded n = n) (hn : 0x20000000000000 < n) :
    rounded (n - 1) = if n < 0x40000000000000 ∧ n % 4 = 2 then n - 2 else n := by
  have hlog : 53 ≤ (n - 1).log2 := (Nat.le_log2 (by omega)).mpr (by omega)
  have hmono : (n - 1).log2 ≤ n.log2 := by
    rw [Nat.log2_eq_log_two, Nat.log2_eq_log_two]
    exact Nat.log_mono_right (by omega)
  obtain ⟨e, he⟩ := Nat.exists_eq_add_of_le hlog
  obtain ⟨c, hc⟩ : 2 ^ (e + 1) ∣ n :=
    (Nat.pow_dvd_pow 2 (by omega)).trans (dvd_of_rounded_eq h)
  rw [Nat.mul_comm] at hc
  have hpos : 0 < c := by
    apply Nat.pos_of_ne_zero
    intro hzero
    rw [hzero, Nat.zero_mul] at hc
    omega
  have htwo : 2 ≤ 2 ^ (e + 1) := Nat.le_self_pow (Nat.succ_ne_zero e) 2
  have hround : rounded (n - 1) =
      (if 2 ^ (e + 1) = 2 ∧ c % 2 = 1 then c - 1 else c) * 2 ^ (e + 1) := by
    rw [rounded, he, show 53 + e - 52 = e + 1 by omega, ← roundHalfEven_pred hpos htwo, ← hc]
  rw [hround]
  by_cases hzero : e = 0
  · have hhigh := Nat.lt_log2_self (n := n - 1)
    rw [he, hzero] at hhigh
    rw [hzero] at hc ⊢
    split_ifs <;> omega
  · have hfour : 2 ^ 2 ≤ 2 ^ (e + 1) := Nat.pow_le_pow_right Nat.two_pos (by omega)
    have hlow : 2 ^ 54 ≤ n - 1 :=
      (Nat.pow_le_pow_right Nat.two_pos (by omega)).trans (Nat.log2_self_le (n := n - 1) (by omega))
    rw [if_neg (by omega), if_neg (by omega), hc]

end Rounding

/-- What the test sees of an integer and of its predecessor, as far as both are numbers. -/
theorem and_rounded_pred_mod_eq_zero_iff {n : ℕ} (h : rounded n = n) (hn : 0 < n) :
    (n &&& rounded (n - 1)) % 2 ^ 32 = 0 ↔
      n % 2 ^ 32 = 0 ∨ ∃ k, n % 2 ^ 32 = 2 ^ k ∧ (n ≤ 2 ^ 53 ∨ k = 1 ∧ n < 2 ^ 54) := by
  by_cases hexact : n ≤ 2 ^ 53
  · rw [rounded_of_lt (by omega), and_pred_mod_eq_zero_iff hn]
    simp only [hexact, true_or, and_true]
  · rw [rounded_pred h (by omega)]
    have htwo (k : ℕ) : n % 2 ^ 32 = 2 ^ k ∧ (n ≤ 2 ^ 53 ∨ k = 1 ∧ n < 2 ^ 54) ↔
        k = 1 ∧ n % 2 ^ 32 = 2 ∧ n < 2 ^ 54 := by
      constructor
      · rintro ⟨hk, hle | ⟨rfl, hlt⟩⟩
        · exact absurd hle hexact
        · exact ⟨rfl, hk, hlt⟩
      · rintro ⟨rfl, hk, hlt⟩
        exact ⟨hk, Or.inr ⟨rfl, hlt⟩⟩
    simp only [htwo, exists_eq_left]
    split_ifs with hodd
    · rw [and_sub_two_mod_eq_zero_iff hodd.2]
      omega
    · rw [Nat.and_self]
      omega

section Values

variable {x : Binary64} {n : ℕ}

/-- What is worth a positive integer is the number nearest to it, and so the integer is not
rounded. -/
theorem eq_ofNat_of_units? (hn : 0 < n) (h : x.units? = some ((n : ℤ) * unitsPerOne)) :
    x = ofNat n ∧ countLevel n < topLevel ∧ rounded n = n := by
  rcases x with _ | ⟨negative, l⟩
  · cases h
  · have hpos : 0 < n * unitsPerOne := Nat.mul_pos hn unitsPerOne_pos
    by_cases htop : l.val = topLevel
    · simp [units?, htop] at h
    · rw [units?, if_neg htop, Option.some.injEq, ← Nat.cast_mul] at h
      have hnegative : negative = false := by
        cases negative
        · rfl
        · simp only [if_true] at h
          omega
      subst hnegative
      simp only [Bool.false_eq_true, if_false, Nat.cast_inj] at h
      have hlevel := countLevel_of_unitsAt h
      have hunits := unitsAt_countLevel_eq n
      rw [hlevel, h] at hunits
      refine ⟨?_, by omega, (Nat.eq_of_mul_eq_mul_right unitsPerOne_pos hunits).symm⟩
      rw [ofNat_eq, hlevel, signed_eq_ofLevel]

theorem zero_less_iff {u : ℤ} (h : x.units? = some u) : zero.less x ↔ 0 < u := by
  rcases x with _ | ⟨negative, l⟩
  · cases h
  · have hl : 0 < unitsAt l.val ↔ 0 < l.val := by
      rw [Nat.pos_iff_ne_zero, Nat.pos_iff_ne_zero, Ne, unitsAt_eq_zero_iff]
    by_cases htop : l.val = topLevel
    · simp [units?, htop] at h
    · rw [units?, if_neg htop, Option.some.injEq] at h
      subst h
      cases negative <;> simp [zero, ofLevel, less, hl]

theorem isInteger_and_less_iff :
    (x.isInteger && zero.less x) = true ↔
      ∃ n : ℕ, 0 < n ∧ x.units? = some ((n : ℤ) * unitsPerOne) := by
  have hpos : (0 : ℤ) < unitsPerOne := by exact_mod_cast unitsPerOne_pos
  rw [Bool.and_eq_true, isInteger]
  cases h : x.units? with
  | none => simp
  | some u =>
      simp only [zero_less_iff h, beq_iff_eq, Option.some.injEq]
      constructor
      · rintro ⟨hint, hu⟩
        obtain ⟨m, rfl⟩ := Int.dvd_of_emod_eq_zero hint
        have hm : 0 < m := (mul_pos_iff_of_pos_left hpos).mp hu
        refine ⟨m.toNat, by omega, ?_⟩
        rw [Int.toNat_of_nonneg hm.le, Int.mul_comm]
      · rintro ⟨n, hn, rfl⟩
        exact ⟨Int.mul_emod_left .., Int.mul_pos (by omega) hpos⟩

theorem truncate_sub_one (hn : 0 < n) (h : x.units? = some ((n : ℤ) * unitsPerOne)) :
    (x - ofNat 1).truncate = rounded (n - 1) := by
  obtain ⟨hx, htop, -⟩ := eq_ofNat_of_units? hn h
  have hone : (neg (ofNat 1)).units? = some (-1 * (unitsPerOne : ℤ)) := by decide
  have hsub : x - ofNat 1 = ofNat (n - 1) := by
    change x + neg (ofNat 1) = _
    rw [add_eq_ofInt h hone, ofNat]
    · congr 1
      omega
    · intro _
      rw [hx, ofNat_eq]
      rfl
  rw [hsub, truncate_of_units? (units?_ofNat ((countLevel_mono (Nat.sub_le n 1)).trans_lt htop))]

end Values

/-- Up to `2 ^ 32`, only powers of two end like one or in 32 zeros. -/
theorem low_bits_iff {n : ℕ} {exact : ℕ → Prop} (hn : 0 < n) (hexact : ∀ k, n < 2 ^ 32 → exact k) :
    (n % 2 ^ 32 = 0 ∨ ∃ k, n % 2 ^ 32 = 2 ^ k ∧ exact k) ↔
      (∃ k, n = 2 ^ k) ∨ 2 ^ 32 < n ∧ (n % 2 ^ 32 = 0 ∨ ∃ k, n % 2 ^ 32 = 2 ^ k ∧ exact k) := by
  constructor
  · intro h
    rcases lt_trichotomy n (2 ^ 32) with hlt | rfl | hgt
    · rw [Nat.mod_eq_of_lt hlt] at h
      obtain ⟨k, hk, -⟩ := h.resolve_left hn.ne'
      exact Or.inl ⟨k, hk⟩
    · exact Or.inl ⟨32, rfl⟩
    · exact Or.inr ⟨hgt, h⟩
  · rintro (⟨k, rfl⟩ | ⟨-, h⟩)
    · by_cases hk : k < 32
      · have hlt : 2 ^ k < 2 ^ 32 := Nat.pow_lt_pow_right (by decide) hk
        exact Or.inr ⟨k, Nat.mod_eq_of_lt hlt, hexact k hlt⟩
      · exact Or.inl (Nat.mod_eq_zero_of_dvd (Nat.pow_dvd_pow 2 (by omega)))
    · exact h

/-- A number passes if it is a power of two. Above `2 ^ 32` an integer also passes if its low 32
bits are all zero or those of a power of two. From `2 ^ 53` on, where predecessors are rounded, the
power can only be two, and from `2 ^ 54` on there is none. -/
theorem isPowerOfTwo_iff (x : Binary64) :
    x.isPowerOfTwo ↔ ∃ n : ℕ, 0 < n ∧ x.units? = some ((n : ℤ) * unitsPerOne) ∧
      ((∃ k, n = 2 ^ k) ∨ 2 ^ 32 < n ∧ (n % 2 ^ 32 = 0 ∨
        ∃ k, n % 2 ^ 32 = 2 ^ k ∧ (n ≤ 2 ^ 53 ∨ k = 1 ∧ n < 2 ^ 54))) := by
  have hbits {n : ℕ} (hn : 0 < n) (h : x.units? = some ((n : ℤ) * unitsPerOne)) :
      (x.toHashCode &&& (x - ofNat 1).toHashCode == 0) = true ↔
        n % 2 ^ 32 = 0 ∨ ∃ k, n % 2 ^ 32 = 2 ^ k ∧ (n ≤ 2 ^ 53 ∨ k = 1 ∧ n < 2 ^ 54) := by
    obtain ⟨-, -, hrounded⟩ := eq_ofNat_of_units? hn h
    rw [beq_iff_eq, toHashCode, toHashCode, truncate_of_units? h, truncate_sub_one hn h,
      ofInt_and_ofInt_eq_zero_iff, and_rounded_pred_mod_eq_zero_iff hrounded hn]
  rw [isPowerOfTwo, Bool.and_eq_true, isInteger_and_less_iff]
  constructor
  · rintro ⟨⟨n, hn, h⟩, hcommon⟩
    exact ⟨n, hn, h, (low_bits_iff hn fun _ _ => Or.inl (by omega)).mp ((hbits hn h).mp hcommon)⟩
  · rintro ⟨n, hn, h, hlow⟩
    exact ⟨⟨n, hn, h⟩, (hbits hn h).mpr ((low_bits_iff hn fun _ _ => Or.inl (by omega)).mpr hlow)⟩

set_option maxRecDepth 4000 in
example : (ofNat 4294967297).isPowerOfTwo = true := by decide

end SealedSets.Binary64
