import Mathlib.Algebra.Order.Group.Int
import Mathlib.Data.List.Lex
import SealedSets.Comparison
import SealedSets.Proofs.Likeness
import SealedSets.Proofs.StableSorting

/-!
# The natural order

Booleans, numbers, bigints and texts have positions in one linear order, one kind after another: NaN
comes after all other numbers, both zeros have one position, and texts are in the order of their
units. Comparing values compares their positions, and values of one position are the same.
-/
namespace SealedSets

/-- The units of a text as integers. -/
def Text.codes (t : Text) : List ℤ := t.units.map fun u => (u.toNat : ℤ)

theorem Text.codes_inj {s t : Text} : s.codes = t.codes ↔ s = t := by
  have hinj : Function.Injective fun u : UInt16 => (u.toNat : ℤ) :=
    Int.ofNat_injective.comp fun _ _ => UInt16.toNat_inj.mp
  rw [codes, codes, (List.map_injective_iff.mpr hinj).eq_iff]
  cases s
  cases t
  simp

theorem Text.less_iff {s t : Text} : s.less t ↔ s.codes < t.codes := by
  have hunits : ∀ us vs : List UInt16, us < vs ↔
      (us.map fun u => (u.toNat : ℤ)) < vs.map fun u => (u.toNat : ℤ) := by
    intro us
    induction us with
    | nil => rintro (_ | ⟨v, vs⟩) <;> simp
    | cons u us ih =>
        rintro (_ | ⟨v, vs⟩)
        · simp
        · simp [List.cons_lt_cons_iff, UInt16.lt_iff_toNat_lt, UInt16.toNat_inj, ih]
  rw [less, decide_eq_true_iff]
  exact hunits s.units t.units

namespace Binary64

/-- NaN has no place among the numbers and is above all of them. -/
def height (x : Binary64) : List ℤ := x.place?.elim [1] fun place => [0, place]

theorem height_inj {x y : Binary64} : x.height = y.height ↔ x.place? = y.place? := by
  rw [height, height]
  cases x.place? <;> cases y.place? <;> simp

theorem isNan_eq (x : Binary64) : x.isNan = x.place?.isNone := by
  cases x <;> rfl

theorem compare_lt_zero_iff {x y : Binary64} : x.compare y < 0 ↔ x.height < y.height := by
  have less_eq (x y : Binary64) : x.less y =
      x.place?.any fun a => y.place?.any fun b => decide (a < b) := by
    rw [Bool.eq_iff_iff, less_iff]
    cases x.place? <;> cases y.place? <;> simp
  rw [compare, less_eq, less_eq, isNan_eq, isNan_eq, height, height]
  cases x.place? with
  | none => cases y.place? <;> simp [List.cons_lt_cons_iff]
  | some a =>
      cases y.place? with
      | none => simp [List.cons_lt_cons_iff]
      | some b =>
          have hsign : (if a < b then -1 else if b < a then 1 else (0 : ℤ)) < 0 ↔ a < b := by
            split_ifs <;> simp [*]
          simpa [List.cons_lt_cons_iff] using hsign

theorem less_asymm {x y : Binary64} (h : x.less y) : y.less x = false := by
  rw [Bool.eq_false_iff]
  intro h'
  obtain ⟨a, b, ha, hb, hab⟩ := less_iff.mp h
  obtain ⟨b', a', hb', ha', hba⟩ := less_iff.mp h'
  rw [Option.some.inj (ha'.symm.trans ha), Option.some.inj (hb'.symm.trans hb)] at hba
  exact hab.not_gt hba

theorem compare_swap (x y : Binary64) : y.compare x = -x.compare y := by
  rw [compare, compare]
  cases hxy : x.less y <;> cases hyx : y.less x
  · simp
  · simp
  · simp
  · rw [less_asymm hxy] at hyx
    cases hyx

end Binary64

namespace Value

variable {a b c : Value} {values : List Value}

@[simp] theorem sign_lt_zero_iff (less greater : Bool) : sign less greater < 0 ↔ less := by
  cases less <;> cases greater <;> decide

theorem sign_swap {less greater : Bool} (h : ¬(less ∧ greater)) :
    sign greater less = -sign less greater := by
  cases less <;> cases greater <;> simp [sign] at h ⊢

/-- A value of one of the kinds that have an order. -/
inductive Comparable : Value → Prop
  | boolean (b : Bool) : Comparable (.boolean b)
  | number (x : Binary64) : Comparable (.number x)
  | bigint (n : ℤ) : Comparable (.bigint n)
  | text (t : Text) : Comparable (.text t)

attribute [simp] Comparable.boolean Comparable.number Comparable.bigint Comparable.text

theorem Comparable.flat (h : a.Comparable) (describe : ℕ → Option Text) : a.Flat describe := by
  cases h with
  | boolean b => exact .boolean b
  | number x => exact .number x
  | bigint n => exact .bigint n
  | text t => exact .text t

theorem Comparable.equal_natural (h : a.Comparable) (b : Value) :
    a.equal .natural b = pure (a.same b) := by
  obtain ⟨s, t, rfl, -⟩ | ⟨s, rfl, -⟩ | ⟨-, hflat⟩ := a.equal_cases .natural b
  · cases h
  · cases h
  · rw [hflat]
    exact (h.flat fun _ => none).ownEqual_eq b

/-- The kind of a value, and where the value is among its kind. What has no order is put behind all
that has one. -/
def position : Value → List ℤ
  | boolean b => [0, b.toNat]
  | number x => 1 :: x.height
  | bigint n => [2, n]
  | text t => 3 :: t.codes
  | _ => [4]

theorem compare_lt_zero_iff (ha : a.Comparable) (hb : b.Comparable) :
    a.compare b < 0 ↔ a.position < b.position := by
  cases ha <;> cases hb <;> simp [compare, position, rank, List.cons_lt_cons_iff]
  case number.number x y => exact Binary64.compare_lt_zero_iff
  case text.text s t => exact Text.less_iff

theorem same_iff_position_eq (ha : a.Comparable) (hb : b.Comparable) :
    a.same b ↔ a.position = b.position := by
  rw [same_iff]
  cases ha <;> cases hb <;> simp [mark, position]
  case boolean.boolean p q => cases p <;> cases q <;> decide
  case number.number x y => exact Binary64.height_inj.symm
  case text.text s t => exact Text.codes_inj.symm

theorem compare_swap (ha : a.Comparable) (hb : b.Comparable) : b.compare a = -a.compare b := by
  cases ha <;> cases hb
  case boolean.boolean p q => exact (Int.neg_sub _ _).symm
  case number.number x y => exact Binary64.compare_swap x y
  case bigint.bigint m n => exact sign_swap (by simpa using fun hmn : m < n => hmn.le)
  case text.text s t =>
    exact sign_swap fun ⟨hst, hts⟩ => (Text.less_iff.mp hst).not_gt (Text.less_iff.mp hts)
  all_goals rfl

theorem compare_le_zero_iff (ha : a.Comparable) (hb : b.Comparable) :
    a.compare b ≤ 0 ↔ a.position ≤ b.position := by
  rw [← not_lt (a := b.position), ← compare_lt_zero_iff hb ha, compare_swap ha hb, neg_lt_zero,
    not_lt]

theorem compare_eq_zero_iff (ha : a.Comparable) (hb : b.Comparable) :
    a.compare b = 0 ↔ a.position = b.position := by
  rw [le_antisymm_iff, le_antisymm_iff, compare_le_zero_iff ha hb, ← compare_le_zero_iff hb ha,
    compare_swap ha hb, neg_nonpos]

/-- The natural order is a total preorder on the values of the four kinds, mixed as they come. The
other way round a comparison has the opposite sign, and values tie if and only if they are equal,
which natural equality always answers. -/
theorem compare_totalPreorder (ha : a.Comparable) (hb : b.Comparable) (hc : c.Comparable) :
    b.compare a = -a.compare b ∧ (a.compare b ≤ 0 → b.compare c ≤ 0 → a.compare c ≤ 0) ∧
      Rule.natural.equivalence.equal a b = pure (decide (a.compare b = 0)) := by
  refine ⟨compare_swap ha hb, fun hab hbc => ?_, ?_⟩
  · rw [compare_le_zero_iff ha hb] at hab
    rw [compare_le_zero_iff hb hc] at hbc
    exact (compare_le_zero_iff ha hc).mpr (hab.trans hbc)
  · have hsame : a.same b = decide (a.compare b = 0) := by
      rw [Bool.eq_iff_iff, decide_eq_true_iff, same_iff_position_eq ha hb,
        compare_eq_zero_iff ha hb]
    rw [← hsame]
    exact ha.equal_natural b

/-- The two zeros tie, and a bigint comes after all numbers, even one below zero. -/
theorem compare_totalPreorder_zeros :
    let a : Value := .number (.ofLevel true 0)
    let b : Value := .number .zero
    let c : Value := .bigint (-1)
    b.compare a = 0 ∧ a.compare c ≤ 0 ∧ Rule.natural.equivalence.equal a b = pure true := by
  intro a b c
  obtain ⟨hswap, htrans, hequal⟩ :=
    compare_totalPreorder (a := a) (b := b) (c := c) (.number _) (.number _) (.bigint _)
  exact ⟨hswap, htrans (by decide) (by decide), hequal⟩

/-- Whether a value's position is not behind that of another. -/
def precedes (a b : Value) : Bool := a.position ≤ b.position

theorem precedes_iff : a.precedes b ↔ a.position ≤ b.position := by
  simp [precedes]

theorem totalPreorder_precedes : Sorting.TotalPreorder precedes where
  trans a b c := by simpa only [precedes_iff] using le_trans
  total a b := by simpa [precedes] using le_total a.position b.position

end Value

namespace Comparison

variable {values : List Value}

theorem decides_natural (h : ∀ v ∈ values, v.Comparable) :
    Sorting.Decides natural.before Value.precedes values values := by
  intro a ha b hb
  have hlt : decide (b.compare a < 0) = !a.precedes b := by
    rw [Bool.eq_iff_iff]
    simpa [Value.precedes] using Value.compare_lt_zero_iff (h b hb) (h a ha)
  exact congrArg Except.ok hlt

/-- Values that have an order are put in the order of their positions. -/
theorem sort_natural (h : ∀ v ∈ values, v.Comparable) :
    natural.sort values = .ok (values.mergeSort Value.precedes) :=
  Sorting.sort_eq Value.totalPreorder_precedes (decides_natural h)

end Comparison
end SealedSets
