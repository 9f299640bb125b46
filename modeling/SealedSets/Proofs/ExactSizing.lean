import Mathlib.Order.Bounds.Basic
import SealedSets.Proofs.Sizing
import SealedSets.Proofs.WholeNumbers
import SealedSets.Report

/-!
# The least table that is large enough

The number of slots is found by a division, and the number of elements that they may hold by a
multiplication. Both are rounded. They agree all the same: slots are enough for a count if and only
if the count is within their limit. The size is found by doubling a word of 32 bits. This ends,
since neither the size nor any word on the way to it is negative.
-/
namespace SealedSets

open Binary64

namespace Table

section Doubling

/-- The loop that doubles a word as long as it is below the target, without a bound on its steps. A
loop that does not end has no last word. -/
inductive Doubles (target : Binary64) : BitVec 32 → BitVec 32 → Prop
  | done {size : BitVec 32} (h : (ofInt size.toInt).less target = false) :
      Doubles target size size
  | next {size last : BitVec 32} (h : (ofInt size.toInt).less target)
      (rest : Doubles target (size <<< 1) last) : Doubles target size last

variable {target : Binary64} {size last : BitVec 32} {n : ℕ}

theorem Doubles.not_less (h : Doubles target size last) :
    (ofInt last.toInt).less target = false := by
  induction h with
  | done h => exact h
  | next _ _ ih => exact ih

/-- No doubling changes zero. -/
theorem Doubles.eq_zero (h : Doubles target size last) (hsize : size = 0) : last = 0 := by
  induction h with
  | done => exact hsize
  | next _ _ ih =>
      rw [hsize] at ih
      exact ih rfl

/-- Steps beyond those that leave zero do not matter. The induction is on the steps to come. -/
theorem Doubles.doubled_eq (h : Doubles target size last) (hn : size <<< n = 0) :
    doubled target n size = last := by
  induction n generalizing size with
  | zero =>
      rw [BitVec.shiftLeft_zero] at hn
      rw [doubled, hn, h.eq_zero hn]
  | succ n ih =>
      cases h with
      | done h => rw [doubled, h, if_neg Bool.false_ne_true]
      | next h rest =>
          rw [doubled, if_pos h]
          exact ih rest (by rwa [← BitVec.shiftLeft_add, Nat.add_comm])

theorem doubles_of_not_less (h : (ofInt (doubled target n size).toInt).less target = false) :
    Doubles target size (doubled target n size) := by
  induction n generalizing size with
  | zero => exact .done h
  | succ n ih =>
      rw [doubled] at h ⊢
      split at h
      · next hless =>
        rw [if_pos hless]
        exact .next hless (ih h)
      · next hless =>
        rw [if_neg hless]
        exact .done h

/-- The loop ends if and only if 32 steps bring it to a word that is not below the target, and it
ends with that word. -/
theorem doubles_iff : Doubles target size last ↔
    doubled target 32 size = last ∧ (ofInt last.toInt).less target = false := by
  constructor
  · intro h
    exact ⟨h.doubled_eq (BitVec.shiftLeft_eq_zero le_rfl), h.not_less⟩
  · rintro ⟨rfl, h⟩
    exact doubles_of_not_less h

end Doubling

variable {checked : Bool} {x y : Binary64} {k l m n size : ℕ}

theorem not_less_slotsFor_of_sizeFor (h : sizeFor checked x = .ok size) :
    (Binary64.ofNat size).less (slotsFor x) = false := by
  obtain ⟨-, hless, rfl⟩ := sizeFor_eq_ok.mp h
  obtain hnan | ⟨m, hm, hslots⟩ := slotsFor_eq_ofNat hless
  · rw [hnan]
    rfl
  · obtain ⟨k, hk, hsize⟩ := leastSize_eq hm
    have hlt := two_shiftLeft_lt hk
    have hle := le_leastSize m
    rw [hslots, toNat_truncate_ofNat (hm.trans_lt (by decide)), ← Bool.not_eq_true,
      less_ofNat (by omega)]
    omega

/-- The loop that chooses a size ends, and only with that size, read as a signed word. -/
theorem doubles_slotsFor_iff (h : sizeFor checked x = .ok size) (last : BitVec 32) :
    Doubles (slotsFor x) (.ofNat 32 minSize) last ↔ last.toInt = size := by
  have hstop := not_less_slotsFor_of_sizeFor h
  obtain ⟨-, hless, rfl⟩ := sizeFor_eq_ok.mp h
  obtain ⟨k, hk, hsize⟩ := leastSize_eq (toNat_slotsFor_le hless)
  have hword := toInt_word k hk
  rw [hsize] at hstop ⊢
  rw [doubles_iff, doubled_slotsFor hless, hsize, ← hword, BitVec.toInt_inj, eq_comm]
  refine and_iff_left_of_imp ?_
  rintro rfl
  rwa [hword]

theorem less_slotsFor_ofNat (hm : m < 0x20000000000000) :
    (Binary64.ofNat m).less (slotsFor (.ofNat n)) ↔ countLevel m < slotsLevel (countLevel n) := by
  rw [ofNat_eq n, less_slotsFor_ofLevel hm]

/-- Slots that are not fewer than a count calls for are so in whole numbers. -/
theorem toNat_slotsFor_le_of_not_less (hm : m < 0x20000000000000)
    (h : ¬(Binary64.ofNat m).less (slotsFor (.ofNat n))) :
    (slotsFor (.ofNat n)).truncate.toNat ≤ m := by
  have hmax := countLevel_lt hm
  rw [less_slotsFor_ofNat hm] at h
  rw [ofNat_eq n, slotsFor_ofLevel, truncate_ofLevel (by omega), Int.toNat_natCast]
  exact (wholeAt_mono (Nat.le_of_not_lt h)).trans (wholeAt_countLevel hm).le

/-- A count calls for more slots than a size has if and only if it is beyond the limit. -/
theorem less_slotsFor_iff (hk : k < 30) :
    (Binary64.ofNat (2 <<< k)).less (slotsFor (.ofNat n)) ↔ limit (2 <<< k) < n := by
  have hsize := two_shiftLeft_lt hk
  constructor
  · intro hless
    by_contra hle
    have hlimit := not_less_slotsFor_limit k hk
    have hlevel := slotsLevel_mono (countLevel_mono (Nat.le_of_not_lt hle))
    rw [← Bool.not_eq_true, less_slotsFor_ofNat hsize] at hlimit
    rw [less_slotsFor_ofNat hsize] at hless
    omega
  · intro hlt
    have hmore : (Binary64.ofNat (2 <<< k)).less (slotsFor (.ofNat (limit (2 <<< k) + 1))) := by
      by_contra hle
      have hwhole := toNat_slotsFor_le_of_not_less hsize hle
      exact absurd (lt_slotsFor_limit k hk) (Nat.not_lt_of_le hwhole)
    have hlevel := slotsLevel_mono (countLevel_mono (Nat.add_one_le_iff.mpr hlt))
    rw [less_slotsFor_ofNat hsize] at hmore ⊢
    omega

/-- The size that is chosen for a count is at most another one if and only if that one is enough. -/
theorem size_le_iff (hk : k < 30) (h : sizeFor checked x = .ok size)
    (hx : slotsFor x = slotsFor (.ofNat n)) : size ≤ 2 <<< k ↔ n ≤ limit (2 <<< k) := by
  obtain ⟨-, hless, rfl⟩ := sizeFor_eq_ok.mp h
  rw [hx] at hless ⊢
  rw [leastSize_le_iff]
  constructor
  · intro hle
    by_contra hlt
    have hmono := truncate_slotsFor_mono (Nat.add_one_le_iff.mpr (Nat.lt_of_not_le hlt)) hless
    have hmore := lt_slotsFor_limit k hk
    omega
  · intro hle
    refine toNat_slotsFor_le_of_not_less (two_shiftLeft_lt hk) ?_
    rw [less_slotsFor_iff hk]
    omega

set_option maxRecDepth 4000 in
/-- What the slots of a table may hold is a count. -/
theorem fillBound_eq : ∀ k < 30, fillBound (.ofNat (2 <<< k)) = .ofNat (limit (2 <<< k)) := by
  decide

set_option maxRecDepth 4000 in
/-- Minus zero is worth what zero is. -/
theorem exists_count (h : x.isNonNegativeInteger) :
    ∃ n, x.place? = (Binary64.ofNat n).place? ∧ slotsFor x = slotsFor (.ofNat n) := by
  obtain rfl | ⟨n, rfl⟩ := eq_ofNat_of_isNonNegativeInteger h
  · refine ⟨0, by decide, ?_⟩
    rw [slotsFor_negative]
    decide
  · exact ⟨n, rfl, rfl⟩

/-- Counts beyond the limit of the largest table have no size. The size of any other is the least
power of two that has room for it, and it is more than the count. Doubling the least size brings it
there, and nowhere else, without a bound on the steps. -/
theorem sizeFor_isLeast (checked : Bool) {x : Binary64} (hx : x.isNonNegativeInteger) :
    (sizeFor checked x = .error (.capacityExceeded x) ↔ (fillBound (.ofNat maxSize)).less x) ∧
      (¬(fillBound (.ofNat maxSize)).less x → ∃ size, sizeFor checked x = .ok size ∧
        IsLeast {s | (∃ k, 1 ≤ k ∧ s = 2 ^ k) ∧ ¬(fillBound (.ofNat s)).less x} size ∧
        x.less (.ofNat size) ∧
        ∀ last, Doubles (slotsFor x) (.ofNat 32 minSize) last ↔ last.toInt = size) ∧
      (Failure.capacityExceeded x).report.name = "SetError" ∧
      (Failure.capacityExceeded x).report.category? =
        some (.text SetCategory.capacityExceeded.toText) := by
  obtain ⟨n, hplace, hslots⟩ := exists_count hx
  have hlimit := limit_maxSize
  have bound : ∀ k < 30, (fillBound (.ofNat (2 <<< k))).less x ↔ limit (2 <<< k) < n := by
    intro k hk
    have hlt := limit_lt k hk
    have hsize := two_shiftLeft_lt hk
    rw [less_congr_right hplace, fillBound_eq k hk, less_ofNat (by omega)]
  have hmax : (fillBound (.ofNat maxSize)).less x ↔ limit maxSize < n := bound 29 (by decide)
  have hslotsMax : (Binary64.ofNat maxSize).less (slotsFor x) ↔ limit maxSize < n := by
    rw [hslots]
    exact less_slotsFor_iff (k := 29) (by decide)
  rw [hmax]
  refine ⟨?_, ?_, rfl, rfl⟩
  · rw [sizeFor_eq, hx, Bool.not_true, Bool.and_false, if_neg Bool.false_ne_true]
    split
    · next hless => exact iff_of_true rfl (hslotsMax.mp hless)
    · next hless => exact iff_of_false nofun (mt hslotsMax.mpr hless)
  · intro hn
    obtain ⟨size, hok⟩ : ∃ size, sizeFor checked x = .ok size := ⟨_, sizeFor_eq_ok.mpr
      ⟨fun _ => hx, Bool.eq_false_iff.mpr (mt hslotsMax.mp hn), rfl⟩⟩
    obtain ⟨k, hk, hk', rfl⟩ := eq_two_pow_of_sizeFor hok
    obtain ⟨k, rfl⟩ := Nat.exists_eq_add_of_le' hk
    rw [← two_shiftLeft] at hok
    have hroom : n ≤ limit (2 <<< k) := (size_le_iff (by omega) hok hslots).mp le_rfl
    have hlt := limit_lt k (by omega)
    refine ⟨_, hok, ⟨⟨⟨k + 1, hk, two_shiftLeft k⟩, ?_⟩, ?_⟩, ?_, doubles_slotsFor_iff hok⟩
    · rw [bound k (by omega)]
      omega
    · rintro _ ⟨⟨j, hj, rfl⟩, henough⟩
      obtain ⟨j, rfl⟩ := Nat.exists_eq_add_of_le' hj
      rw [← two_shiftLeft] at henough ⊢
      by_cases hj' : j < 30
      · rw [bound j hj'] at henough
        exact (size_le_iff hj' hok hslots).mpr (by omega)
      · -- no size is larger than that of the largest table
        rw [two_shiftLeft, two_shiftLeft]
        exact Nat.pow_le_pow_right (by decide) (by omega)
    · rw [less_congr hplace, less_ofNat (by omega)]
      omega

set_option maxRecDepth 4000 in
/-- The largest table is chosen for as many elements as it may hold, and no table for one more. Its
size is the last power of two that is not negative as a signed word. -/
theorem sizeFor_isLeast_limit :
    (∃ size, sizeFor true (.ofNat 751619276) = .ok size ∧
      IsLeast {s | (∃ k, 1 ≤ k ∧ s = 2 ^ k) ∧
        ¬(fillBound (.ofNat s)).less (.ofNat 751619276)} size ∧
      (Binary64.ofNat 751619276).less (.ofNat size) ∧
      ∀ last, Doubles (slotsFor (.ofNat 751619276)) (.ofNat 32 minSize) last ↔
        last.toInt = size) ∧
    sizeFor true (.ofNat 751619277) = .error (.capacityExceeded (.ofNat 751619277)) :=
  ⟨(sizeFor_isLeast true (by decide)).2.1 (by decide), (sizeFor_isLeast true (by decide)).1.mpr
    (by decide)⟩

end Table
end SealedSets
