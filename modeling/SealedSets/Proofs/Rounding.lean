import Mathlib.Algebra.Order.Floor.Semiring
import Mathlib.Data.Nat.Log
import Mathlib.Tactic.Ring
import SealedSets.Binary64.Arithmetic

/-!
# Rounding inverts no order

The results of division and of rounding up, read as levels, do not fall when the operand grows.
Numbers that lie on a level are their own nearest ones, as integers of at most 53 binary digits do.
-/
namespace SealedSets.Binary64

theorem roundHalfEven_mono {m n den : ℕ} (h : m ≤ n) :
    roundHalfEven m den ≤ roundHalfEven n den := by
  have hq : m / den ≤ n / den := Nat.div_le_div_right h
  have hm := Nat.div_add_mod m den
  have hn := Nat.div_add_mod n den
  unfold roundHalfEven
  rcases Nat.lt_or_eq_of_le hq with hlt | heq
  · dsimp only
    split_ifs <;> omega
  · have hr : m % den ≤ n % den := by
      rw [heq] at hm
      omega
    dsimp only
    rw [heq]
    split_ifs <;> omega

theorem roundHalfEven_le {num den q : ℕ} (h : num < den * q) : roundHalfEven num den ≤ q := by
  have hq : num / den < q := Nat.div_lt_of_lt_mul h
  unfold roundHalfEven
  dsimp only
  split_ifs <;> omega

theorem le_roundHalfEven {num den q : ℕ} (hden : 0 < den) (h : den * q ≤ num) :
    q ≤ roundHalfEven num den := by
  have hq : q ≤ num / den := (Nat.le_div_iff_mul_le hden).mpr (by rwa [Nat.mul_comm])
  unfold roundHalfEven
  dsimp only
  split_ifs <;> omega

/-- Rounding to the nearest level inverts no order, also where the distance of levels grows. -/
theorem nearestLevel_mono {m n den : ℕ} (hden : 0 < den) (h : m ≤ n) :
    nearestLevel m den ≤ nearestLevel n den := by
  have hlog : (m / den).log2 ≤ (n / den).log2 := by
    rw [Nat.log2_eq_log_two, Nat.log2_eq_log_two]
    exact Nat.log_mono_right (Nat.div_le_div_right h)
  unfold nearestLevel
  dsimp only
  generalize hs : (m / den).log2 - 52 = s
  generalize ht : (n / den).log2 - 52 = t
  rcases Nat.lt_or_eq_of_le (show s ≤ t by omega) with hlt | rfl
  · have hm : roundHalfEven m (den <<< s) ≤ 2 * fractions := by
      apply roundHalfEven_le
      have hm' : m / den < 2 ^ (s + 53) := by
        by_cases hz : m / den = 0
        · rw [hz]
          exact Nat.two_pow_pos _
        · exact (Nat.log2_lt hz).mp (by omega)
      have hmul := (Nat.div_lt_iff_lt_mul hden).mp hm'
      rw [Nat.shiftLeft_eq]
      calc m < 2 ^ (s + 53) * den := hmul
        _ = den * 2 ^ s * (2 * fractions) := by rw [Nat.pow_add]; simp only [fractions]; ring
    have hn : fractions ≤ roundHalfEven n (den <<< t) := by
      rw [Nat.shiftLeft_eq]
      apply le_roundHalfEven (Nat.mul_pos hden (Nat.two_pow_pos t))
      have hne : n / den ≠ 0 := by
        intro hz
        rw [hz] at ht
        simp at ht
        omega
      have hn' : 2 ^ (t + 52) ≤ n / den := (Nat.le_log2 hne).mp (by omega)
      have hmul := (Nat.le_div_iff_mul_le hden).mp hn'
      calc den * 2 ^ t * fractions = 2 ^ (t + 52) * den := by
            rw [Nat.pow_add]; simp only [fractions]; ring
        _ ≤ n := hmul
    have hst : (s + 1) * fractions ≤ t * fractions := Nat.mul_le_mul_right _ hlt
    rw [Nat.add_mul] at hst
    omega
  · exact Nat.add_le_add_left (roundHalfEven_mono h) _

theorem unitsAt_mono : Monotone unitsAt := by
  apply monotone_nat_of_le_succ
  intro l
  unfold unitsAt
  by_cases hl : l + 1 < fractions
  · rw [if_pos hl, if_pos (by omega)]
    omega
  · rw [if_neg hl]
    by_cases hl' : l < fractions
    · obtain rfl : l = fractions - 1 := by omega
      decide
    · rw [if_neg hl']
      have hdiv := Nat.div_add_mod l fractions
      have hmod := Nat.mod_lt l (show 0 < fractions by decide)
      have hpos : 0 < l / fractions := Nat.div_pos (by omega) (by decide)
      generalize l / fractions = q at *
      generalize l % fractions = r at *
      subst hdiv
      obtain ⟨p, rfl⟩ : ∃ p, q = p + 1 := ⟨q - 1, by omega⟩
      by_cases hr : r + 1 < fractions
      · rw [show fractions * (p + 1) + r + 1 = r + 1 + fractions * (p + 1) by omega,
          Nat.add_mul_mod_self_left, Nat.add_mul_div_left _ _ (by decide),
          Nat.mod_eq_of_lt hr, Nat.div_eq_of_lt hr, Nat.zero_add]
        simp only [Nat.shiftLeft_eq]
        exact Nat.mul_le_mul_right _ (by omega)
      · obtain rfl : r = fractions - 1 := by omega
        rw [show fractions * (p + 1) + (fractions - 1) + 1 = fractions * (p + 2) by
            simp only [fractions]; omega,
          Nat.mul_mod_right, Nat.mul_div_cancel_left _ (by decide)]
        simp only [Nat.shiftLeft_eq, Nat.add_sub_cancel, show p + 2 - 1 = p + 1 from rfl,
          Nat.pow_succ]
        calc (fractions + (fractions - 1)) * 2 ^ p ≤ 2 * fractions * 2 ^ p :=
              Nat.mul_le_mul_right _ (by simp only [fractions]; omega)
          _ = (fractions + 0) * (2 ^ p * 2) := by ring

theorem wholeAt_mono : Monotone wholeAt := by
  intro l l' h
  rw [wholeAt_eq, wholeAt_eq]
  exact Nat.div_le_div_right (unitsAt_mono h)

section Levels

variable {negative : Bool} {l : ℕ}

theorem signed_eq_ofLevel (l : Fin (topLevel + 1)) :
    .signed negative l = ofLevel negative l.val := by
  simp only [ofLevel, signed.injEq, Fin.ext_iff, true_and]
  omega

theorem ofLevel_top (h : topLevel ≤ l) : ofLevel negative l = infinity negative := by
  simp only [infinity, ofLevel, signed.injEq, Fin.mk.injEq, true_and]
  omega

theorem units?_ofLevel (h : l < topLevel) :
    (ofLevel negative l).units? = some (if negative then -(unitsAt l : ℤ) else unitsAt l) := by
  have hmin : l ⊓ topLevel = l := by omega
  simp only [ofLevel, units?, hmin]
  rw [if_neg (by omega)]

theorem truncate_ofLevel (h : l < topLevel) : (ofLevel false l).truncate = wholeAt l := by
  have hmin : l ⊓ topLevel = l := by omega
  simp only [ofLevel, truncate, hmin]
  rw [if_neg (by omega)]
  rfl

theorem less_ofLevel {l' : ℕ} :
    (ofLevel false l).less (ofLevel false l') ↔ l < topLevel ∧ l < l' := by
  simp only [ofLevel, less, decide_eq_true_eq]
  omega

/-- The level of the number nearest to a count. -/
def countLevel (n : ℕ) : ℕ := nearestLevel (n * unitsPerOne) 1

theorem ofNat_eq (n : ℕ) : ofNat n = ofLevel false (countLevel n) := by
  rw [ofNat, ofInt_eq, nearest, Int.natAbs_natCast, countLevel, decide_eq_false (by omega)]

theorem countLevel_mono : Monotone countLevel := fun _ _ h =>
  nearestLevel_mono one_pos (Nat.mul_le_mul_right _ h)

/-- The level of a quotient, where the divisor is worth `units`. -/
def quotientLevel (units l : ℕ) : ℕ :=
  if topLevel ≤ l then topLevel else nearestLevel (unitsAt l * unitsPerOne) units ⊓ topLevel

theorem quotientLevel_mono {units : ℕ} (h : 0 < units) : Monotone (quotientLevel units) := by
  intro l l' hl
  unfold quotientLevel
  split_ifs
  · exact le_rfl
  · omega
  · exact min_le_right _ _
  · exact min_le_min_right _ (nearestLevel_mono h (Nat.mul_le_mul_right _ (unitsAt_mono hl)))

theorem ofLevel_min : ofLevel negative (l ⊓ topLevel) = ofLevel negative l := by
  simp only [ofLevel, signed.injEq, Fin.mk.injEq, true_and]
  omega

theorem div_ofLevel {y : Binary64} {units : ℕ} (hy : y.units? = some (units : ℤ))
    (hpos : 0 < units) (hsign : y.isNegative = false) :
    ofLevel negative l / y = ofLevel negative (quotientLevel units l) := by
  change div (ofLevel negative l) y = _
  have hneg : (ofLevel negative l).isNegative = negative := rfl
  have hunits : (units : ℤ) ≠ 0 := by omega
  unfold quotientLevel
  by_cases hl : topLevel ≤ l
  · have hnan : (infinity negative).isNan = false := rfl
    have hnone : (infinity negative).units? = none := rfl
    rw [if_pos hl, ofLevel_top hl, ofLevel_top le_rfl]
    simp only [div, hnone, hy, hnan, hsign]
    cases negative <;> rfl
  · rw [if_neg hl, ofLevel_min]
    simp only [div, units?_ofLevel (Nat.lt_of_not_le hl), hy, hneg, hsign, if_neg hunits, nearest,
      Int.natAbs_natCast, Bool.bne_false]
    cases negative <;> simp

/-- The level of the least integer that is not below a level. -/
def ceilLevel (l : ℕ) : ℕ :=
  if topLevel ≤ l then topLevel
  else countLevel ((unitsAt l + (unitsPerOne - 1)) / unitsPerOne) ⊓ topLevel

theorem ceilLevel_mono : Monotone ceilLevel := by
  intro l l' hl
  unfold ceilLevel
  split_ifs
  · exact le_rfl
  · omega
  · exact min_le_right _ _
  · have hu := unitsAt_mono hl
    exact min_le_min_right _ (countLevel_mono (Nat.div_le_div_right (by omega)))

theorem unitsPerOne_pos : 0 < unitsPerOne := by decide

/-- Rounding a negative number down is rounding its opposite up. -/
theorem neg_fdiv (a : ℕ) {u : ℕ} (hu : 0 < u) :
    (-(a : ℤ)).fdiv u = -(((a + (u - 1)) / u : ℕ) : ℤ) := by
  have hdiv := Nat.div_add_mod (a + (u - 1)) u
  have hmod := Nat.mod_lt (a + (u - 1)) hu
  rw [Int.fdiv_eq_ediv_of_nonneg _ (by omega), Int.ediv_eq_iff_of_pos (by omega)]
  generalize (a + (u - 1)) / u = q at *
  have hq : (u : ℤ) * q = (u * q : ℕ) := by push_cast; rfl
  rw [Int.neg_mul, Int.mul_comm, hq]
  omega

theorem neg_ofLevel : neg (ofLevel negative l) = ofLevel (!negative) l := rfl

theorem ceil_ofLevel (l : ℕ) : (ofLevel false l).ceil = ofLevel false (ceilLevel l) := by
  change neg (floor (neg (ofLevel false l))) = _
  rw [neg_ofLevel, Bool.not_false]
  unfold ceilLevel
  by_cases hl : topLevel ≤ l
  · rw [if_pos hl, ofLevel_top hl, ofLevel_top le_rfl]
    rfl
  · have habs : ∀ q u : ℕ, (-(q : ℤ) * u).natAbs = q * u := by
      intro q u
      rw [Int.neg_mul, Int.natAbs_neg, Int.natAbs_mul, Int.natAbs_natCast, Int.natAbs_natCast]
    have hsign : (ofLevel true l).isNegative = true := rfl
    have hfloor : (ofLevel true l).floor = ofLevel true
        (countLevel ((unitsAt l + (unitsPerOne - 1)) / unitsPerOne)) := by
      simp only [floor, units?_ofLevel (Nat.lt_of_not_le hl), hsign, if_pos]
      rw [neg_fdiv (unitsAt l) unitsPerOne_pos, ofUnits, habs, nearest, countLevel]
    rw [if_neg hl, ofLevel_min, hfloor, neg_ofLevel, Bool.not_true]

/-- Rounding up and dividing by a positive number keep the sign. -/
theorem ceil_negative (l : ℕ) : ∃ l', (ofLevel true l).ceil = ofLevel true l' := by
  change ∃ l', neg (floor (neg (ofLevel true l))) = _
  rw [neg_ofLevel, Bool.not_true]
  by_cases hl : topLevel ≤ l
  · refine ⟨topLevel, ?_⟩
    rw [ofLevel_top hl]
    rfl
  · have hsign : (ofLevel false l).isNegative = false := rfl
    simp only [floor, units?_ofLevel (Nat.lt_of_not_le hl), hsign, ofUnits, nearest, neg_ofLevel,
      Bool.not_false]
    exact ⟨_, rfl⟩

theorem max_ofLevel {l' : ℕ} :
    max (ofLevel false l) (ofLevel false l') = ofLevel false (l ⊔ l') := by
  unfold max
  split_ifs with hnan h
  · cases hnan
  · have hle : l' ⊓ topLevel ≤ l ⊓ topLevel := by
      simp [ofLevel, less, equal, isNegative] at h
      omega
    simp only [ofLevel, signed.injEq, Fin.mk.injEq, true_and]
    omega
  · have hle : l ⊓ topLevel ≤ l' ⊓ topLevel := by
      simp [ofLevel, less] at h
      omega
    simp only [ofLevel, signed.injEq, Fin.mk.injEq, true_and]
    omega

theorem max_negative {l' : ℕ} (hl : 0 < l) :
    max (ofLevel false l) (ofLevel true l') = ofLevel false l := by
  have hless : (ofLevel true l').less (ofLevel false l) = true := by
    have htop : 0 < topLevel := by decide
    simp only [ofLevel, less, decide_eq_true_eq]
    omega
  simp only [max, hless]
  rfl

end Levels

/-- A positive integer of at most 53 binary digits lies on a level. -/
theorem unitsAt_integerLevel {n : ℕ} (hn : 0 < n) (h : n < 0x20000000000000) :
    unitsAt (integerLevel n) = n * unitsPerOne := by
  have hlog : n.log2 ≤ 52 := by
    have := (Nat.log2_lt (n := n) (k := 53) (by omega)).mpr h
    omega
  have shift (k : ℕ) : 1 <<< k = 2 ^ k := Nat.one_shiftLeft k
  have hexp : 52 - n.log2 + (n.log2 + 1022) = 1074 := by omega
  have hp : unitsPerOne = 2 ^ (52 - n.log2 + (n.log2 + 1022)) :=
    (shift 1074).trans (congrArg (2 ^ ·) hexp.symm)
  have hlow : fractions ≤ n * 2 ^ (52 - n.log2) := by
    calc fractions = 2 ^ n.log2 * 2 ^ (52 - n.log2) := by
          rw [← Nat.pow_add, Nat.add_sub_cancel' hlog]
      _ ≤ _ := Nat.mul_le_mul_right _ (Nat.log2_self_le (by omega))
  have hhigh : n * 2 ^ (52 - n.log2) < 2 * fractions := by
    calc n * 2 ^ (52 - n.log2) < 2 ^ (n.log2 + 1) * 2 ^ (52 - n.log2) :=
          Nat.mul_lt_mul_of_pos_right Nat.lt_log2_self (Nat.two_pow_pos _)
      _ = 2 ^ 53 := by rw [← Nat.pow_add, show n.log2 + 1 + (52 - n.log2) = 53 by omega]
      _ = 2 * fractions := by decide
  obtain ⟨r, hr⟩ := Nat.exists_eq_add_of_le hlow
  have hr' : r < fractions := by omega
  have hlevel : integerLevel n = r + fractions * (n.log2 + 1023) := by
    rw [integerLevel, Nat.shiftLeft_eq, hr]
    ring
  unfold unitsAt
  rw [hlevel, if_neg (by simp only [fractions]; omega), Nat.add_mul_mod_self_left,
    Nat.mod_eq_of_lt hr', Nat.add_mul_div_left _ _ (by decide), Nat.div_eq_of_lt hr', ← hr,
    Nat.shiftLeft_eq, hp, Nat.mul_assoc, ← Nat.pow_add,
    show 0 + (n.log2 + 1023) - 1 = n.log2 + 1022 by omega]

set_option maxRecDepth 4000 in
theorem unitsAt_countLevel {n : ℕ} (h : n < 0x20000000000000) :
    unitsAt (countLevel n) = n * unitsPerOne := by
  by_cases hn : n = 0
  · subst n
    decide
  · rw [countLevel, nearestLevel_integer (by omega) h, unitsAt_integerLevel (by omega) h]

theorem wholeAt_countLevel {n : ℕ} (h : n < 0x20000000000000) : wholeAt (countLevel n) = n := by
  rw [wholeAt_eq, unitsAt_countLevel h, Nat.mul_div_cancel _ unitsPerOne_pos]

set_option maxRecDepth 4000 in
theorem countLevel_lt {n : ℕ} (h : n < 0x20000000000000) : countLevel n < topLevel :=
  (countLevel_mono h.le).trans_lt (by decide)

theorem countLevel_pos {n : ℕ} (hn : 0 < n) (h : n < 0x20000000000000) : 0 < countLevel n := by
  have hwhole := wholeAt_countLevel h
  by_contra hzero
  rw [Nat.eq_zero_of_not_pos hzero] at hwhole
  exact hn.ne hwhole

theorem isNonNegativeInteger_ofNat {n : ℕ} (h : n < 0x20000000000000) :
    (ofNat n).isNonNegativeInteger = true := by
  have hzero : (ofNat n).less zero = false := by
    rw [ofNat_eq, zero, ← Bool.not_eq_true, less_ofLevel]
    omega
  have hint : (ofNat n).isInteger = true := by
    rw [isInteger, ofNat_eq, units?_ofLevel (countLevel_lt h), unitsAt_countLevel h]
    simp
  rw [isNonNegativeInteger, hint, hzero]
  rfl

/-- The number on a level is the one nearest to what the level is worth. -/
theorem nearestLevel_unitsAt (l : ℕ) : nearestLevel (unitsAt l) 1 = l := by
  unfold unitsAt
  split
  · next hl =>
    have hlog : l.log2 - 52 = 0 := by
      by_cases hz : l = 0
      · rw [hz]
        rfl
      · have := (Nat.log2_lt (k := 52) hz).mpr hl
        omega
    simp [nearestLevel, roundHalfEven, hlog, Nat.mod_one]
  · next hl =>
    have hmod := Nat.mod_lt l (show 0 < fractions by decide)
    have hdiv := Nat.div_add_mod l fractions
    obtain ⟨p, hp⟩ : ∃ p, l / fractions = p + 1 :=
      Nat.exists_eq_add_of_le' (Nat.div_pos (by omega) (by decide))
    generalize l % fractions = r at *
    have hlog : ((fractions + r) * 2 ^ p).log2 = 52 + p := by
      have hdigits : (fractions + r).log2 = 52 := by
        rw [Nat.log2_eq_iff (by omega)]
        simp only [fractions] at *
        omega
      rw [← Nat.shiftLeft_eq, log2_shiftLeft (by omega), hdigits]
    rw [hp, Nat.add_sub_cancel, Nat.shiftLeft_eq, nearestLevel, Nat.div_one, hlog,
      Nat.add_sub_cancel_left, Nat.shiftLeft_eq, Nat.one_mul, roundHalfEven_mul (Nat.two_pow_pos p)]
    rw [hp] at hdiv
    rw [← hdiv]
    ring

theorem countLevel_of_unitsAt {l n : ℕ} (h : unitsAt l = n * unitsPerOne) : countLevel n = l := by
  rw [countLevel, ← h, nearestLevel_unitsAt]

/-- Different counts lie on different levels, as long as the lesser one has at most 53 digits. -/
theorem countLevel_lt_iff {m n : ℕ} (h : m + 1 < 0x20000000000000) :
    countLevel m < countLevel n ↔ m < n := by
  constructor
  · intro hlt
    by_contra hle
    exact absurd (countLevel_mono (Nat.le_of_not_lt hle)) (Nat.not_le_of_lt hlt)
  · intro hlt
    have hne : countLevel m ≠ countLevel (m + 1) := by
      intro heq
      have hwhole := wholeAt_countLevel h
      rw [← heq, wholeAt_countLevel (by omega)] at hwhole
      omega
    exact (lt_of_le_of_ne (countLevel_mono (Nat.le_succ m)) hne).trans_le (countLevel_mono hlt)

theorem less_ofNat {m n : ℕ} (h : m + 1 < 0x20000000000000) :
    (ofNat m).less (ofNat n) ↔ m < n := by
  rw [ofNat_eq, ofNat_eq, less_ofLevel, countLevel_lt_iff h]
  exact and_iff_right (countLevel_lt (by omega))

/-- What may be checked to be a count is a count or minus zero. -/
theorem eq_ofNat_of_isNonNegativeInteger {x : Binary64} (h : x.isNonNegativeInteger) :
    x = ofLevel true 0 ∨ ∃ n, x = ofNat n := by
  rcases x with _ | ⟨negative, l, hl⟩
  · cases h
  · simp only [isNonNegativeInteger, isInteger, Bool.and_eq_true, Bool.not_eq_true'] at h
    cases negative with
    | true =>
        have hzero : l = 0 := by
          have := h.2
          simp [less, zero, ofLevel] at this
          omega
        subst hzero
        exact Or.inl rfl
    | false =>
        obtain ⟨hint, -⟩ := h
        by_cases htop : l = topLevel
        · simp [units?, htop] at hint
        · have hdvd : unitsPerOne ∣ unitsAt l := by
            simp only [units?, if_neg htop, beq_iff_eq] at hint
            exact Int.natCast_dvd_natCast.mp (Int.dvd_of_emod_eq_zero hint)
          obtain ⟨n, hn⟩ := hdvd
          refine Or.inr ⟨n, ?_⟩
          rw [ofNat_eq, countLevel_of_unitsAt (hn.trans (Nat.mul_comm ..))]
          exact signed_eq_ofLevel ⟨l, hl⟩

end SealedSets.Binary64
