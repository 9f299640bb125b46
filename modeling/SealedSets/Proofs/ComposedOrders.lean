import SealedSets.Order
import SealedSets.Proofs.NaturalOrder
import SealedSets.Value.Equality

/-!
# Orders made of other orders

What is made of the natural order by keys and by reversal is again a total preorder, on the values
it is meant for. So sorting by it has one answer, which keeps values that tie as they were, also
where the order is reversed.
-/
namespace SealedSets

namespace Comparison

variable {α β : Type} {c c' : Comparison α} {D D' : Set α} {a b : α} {values sorted : List α}

/-- Whether the second value does not come before the first. -/
def Precedes (c : Comparison α) (a b : α) : Prop := ∃ m ≤ 0, c a b = .ok m

/-- Whether neither value comes before the other. -/
def ties (c : Comparison α) (a b : α) : Bool :=
  match c a b with
  | .ok m => m == 0
  | .error _ => false

/-- Among the values of `D` every comparison has an answer, which has the opposite sign the other
way round, and what comes in between keeps the order. -/
structure Preorders (c : Comparison α) (D : Set α) : Prop where
  opposite : ∀ a ∈ D, ∀ b ∈ D, ∃ m, c a b = .ok m ∧ c b a = .ok (-m)
  trans : ∀ a ∈ D, ∀ b ∈ D, ∀ d ∈ D, c.Precedes a b → c.Precedes b d → c.Precedes a d

/-- The second list is the first one in order, and values that tie are as they were. -/
structure SortsStably (c : Comparison α) (values sorted : List α) : Prop where
  perm : sorted.Perm values
  ordered : sorted.Pairwise c.Precedes
  ties : ∀ a ∈ values, sorted.filter (c.ties a) = values.filter (c.ties a)

/-- A comparison that is made of the natural one, and the values that it is meant for: those that
have an order of their own, or have keys that the comparison of the keys is meant for. -/
inductive Composed : {α : Type} → Comparison α → Set α → Prop
  | natural : Composed natural {v | v.Comparable}
  | reverse {α : Type} {c : Comparison α} {D : Set α} (h : Composed c D) : Composed c.reverse D
  | byKey {α β : Type} (key : α → Except Failure β) {c : Comparison β} {D : Set β}
      (h : Composed c D) : Composed (byKey key c) {a | ∃ x ∈ D, key a = .ok x}
  | byNumber {α : Type} (key : α → Except Failure Value) :
      Composed (byKey key numeric) {a | ∃ x, key a = .ok (.number x)}
  | byBigint {α : Type} (key : α → Except Failure Value) :
      Composed (byKey key natural) {a | ∃ n, key a = .ok (.bigint n)}

section Laws

theorem precedes_iff {m : ℤ} (h : c a b = .ok m) : c.Precedes a b ↔ m ≤ 0 := by
  constructor
  · rintro ⟨n, hn, hok⟩
    rw [h] at hok
    obtain rfl := Except.ok.inj hok
    exact hn
  · intro hm
    exact ⟨m, hm, h⟩

theorem byKey_eq {key : α → Except Failure β} {c : Comparison β} {x y : β} (hx : key a = .ok x)
    (hy : key b = .ok y) : byKey key c a b = c x y := by
  simp only [byKey, hx, hy]
  rfl

theorem preorders_natural : natural.Preorders {v | v.Comparable} where
  opposite a ha b hb := by
    refine ⟨a.compare b, rfl, ?_⟩
    rw [← Value.compare_swap ha hb]
    rfl
  trans a ha b hb d hd hab hbd := by
    rw [precedes_iff rfl, Value.compare_le_zero_iff] at hab hbd ⊢
    · exact hab.trans hbd
    all_goals assumption

namespace Preorders

theorem mono (h : c.Preorders D) (hD : D' ⊆ D) : c.Preorders D' where
  opposite a ha b hb := h.opposite a (hD ha) b (hD hb)
  trans a ha b hb d hd := h.trans a (hD ha) b (hD hb) d (hD hd)

theorem congr (h : c.Preorders D) (heq : ∀ a ∈ D, ∀ b ∈ D, c' a b = c a b) : c'.Preorders D where
  opposite a ha b hb := by
    rw [heq a ha b hb, heq b hb a ha]
    exact h.opposite a ha b hb
  trans a ha b hb d hd := by
    simp only [Precedes, heq a ha b hb, heq b hb d hd, heq a ha d hd]
    exact h.trans a ha b hb d hd

theorem reverse (h : c.Preorders D) : c.reverse.Preorders D where
  opposite a ha b hb := h.opposite b hb a ha
  trans a ha b hb d hd hab hbd := h.trans d hd b hb a ha hbd hab

/-- Values are in the order of their keys. -/
theorem byKey {c : Comparison β} {D : Set β} (key : α → Except Failure β) (h : c.Preorders D) :
    (byKey key c).Preorders {a | ∃ x ∈ D, key a = .ok x} where
  opposite := by
    rintro a ⟨x, hx, ha⟩ b ⟨y, hy, hb⟩
    rw [byKey_eq ha hb, byKey_eq hb ha]
    exact h.opposite x hx y hy
  trans := by
    rintro a ⟨x, hx, ha⟩ b ⟨y, hy, hb⟩ d ⟨z, hz, hd⟩
    simp only [Precedes, byKey_eq ha hb, byKey_eq hb hd, byKey_eq ha hd]
    exact h.trans x hx y hy z hz

end Preorders

/-- Among numbers the numeric comparison is the natural one. -/
theorem preorders_numeric : numeric.Preorders {v | ∃ x, v = .number x} := by
  refine (preorders_natural.mono ?_).congr ?_
  · rintro _ ⟨x, rfl⟩
    exact .number x
  · rintro _ ⟨x, rfl⟩ _ ⟨y, rfl⟩
    exact Value.compareNumeric_number x y

/-- The induction is on how the comparison is made. -/
theorem Composed.preorders (h : c.Composed D) : c.Preorders D := by
  induction h with
  | natural => exact preorders_natural
  | reverse _ ih => exact ih.reverse
  | byKey key _ ih => exact ih.byKey key
  | byNumber key =>
      refine (preorders_numeric.byKey key).mono ?_
      rintro a ⟨x, ha⟩
      exact ⟨_, ⟨x, rfl⟩, ha⟩
  | byBigint key =>
      refine (preorders_natural.byKey key).mono ?_
      rintro a ⟨n, ha⟩
      exact ⟨_, .bigint n, ha⟩

end Laws

section Sorting

open scoped Classical in
/-- The order of a comparison, with all behind it that the comparison is not meant for. -/
noncomputable def extended (c : Comparison α) (D : Set α) (a b : α) : Bool :=
  decide (b ∈ D → a ∈ D ∧ c.Precedes a b)

theorem extended_iff (ha : a ∈ D) (hb : b ∈ D) : c.extended D a b ↔ c.Precedes a b := by
  simp [extended, ha, hb]

theorem tie_extended (h : c.Preorders D) (ha : a ∈ D) (hb : b ∈ D) :
    Sorting.tie (c.extended D) a b = c.ties a b := by
  obtain ⟨m, hab, hba⟩ := h.opposite a ha b hb
  rw [Bool.eq_iff_iff, Sorting.tie_iff, extended_iff ha hb, extended_iff hb ha, precedes_iff hab,
    precedes_iff hba, ties, hab]
  simp only [beq_iff_eq]
  omega

theorem Preorders.totalPreorder (h : c.Preorders D) : Sorting.TotalPreorder (c.extended D) where
  trans a b d hab hbd := by
    simp only [extended, decide_eq_true_eq] at hab hbd ⊢
    intro hd
    obtain ⟨hb, hbd⟩ := hbd hd
    obtain ⟨ha, hab⟩ := hab hb
    exact ⟨ha, h.trans a ha b hb d hd hab hbd⟩
  total a b := by
    by_cases ha : a ∈ D
    · by_cases hb : b ∈ D
      · obtain ⟨m, hab, hba⟩ := h.opposite a ha b hb
        rw [Bool.or_eq_true, extended_iff ha hb, extended_iff hb ha, precedes_iff hab,
          precedes_iff hba]
        omega
      · simp [extended, hb]
    · simp [extended, ha]

theorem Preorders.decides (h : c.Preorders D) (hv : ∀ v ∈ values, v ∈ D) :
    Sorting.Decides c.before (c.extended D) values values := by
  intro a ha b hb
  obtain ⟨m, hab, hba⟩ := h.opposite a (hv a ha) b (hv b hb)
  have hlt : decide (-m < 0) = !c.extended D a b := by
    rw [Bool.eq_iff_iff, Bool.not_eq_true', Bool.eq_false_iff, Ne, extended_iff (hv a ha) (hv b hb),
      precedes_iff hab, decide_eq_true_eq]
    omega
  rw [before, hba, ← hlt]
  rfl

theorem sortsStably_iff (h : c.Preorders D) (hv : ∀ v ∈ values, v ∈ D) :
    c.SortsStably values sorted ↔ Sorting.Sorts (c.extended D) values sorted := by
  have hs (hperm : sorted.Perm values) : ∀ v ∈ sorted, v ∈ D :=
    fun v hmem => hv v (hperm.mem_iff.mp hmem)
  have hties (a : α) (ha : a ∈ D) (xs : List α) (hxs : ∀ x ∈ xs, x ∈ D) :
      xs.filter (Sorting.tie (c.extended D) a) = xs.filter (c.ties a) :=
    List.filter_congr fun x hx => tie_extended h ha (hxs x hx)
  constructor
  · intro hsorts
    have hsorted := hs hsorts.perm
    refine ⟨hsorts.perm, hsorts.ordered.imp_of_mem fun ha hb hab =>
      (extended_iff (hsorted _ ha) (hsorted _ hb)).mpr hab, fun a => ?_⟩
    by_cases htie : ∃ b ∈ values, Sorting.tie (c.extended D) a b
    · obtain ⟨b, hb, hab⟩ := htie
      rw [h.totalPreorder.tie_eq hab, hties b (hv b hb) sorted hsorted, hties b (hv b hb) values hv]
      exact hsorts.ties b hb
    · -- `a` is then not among the values either, and nothing is left of either list
      have hnone : ∀ xs : List α, xs ⊆ values → xs.filter (Sorting.tie (c.extended D) a) = [] :=
        fun xs hxs => List.filter_eq_nil_iff.mpr fun b hb hab => htie ⟨b, hxs hb, hab⟩
      rw [hnone sorted hsorts.perm.subset, hnone values (List.Subset.refl values)]
  · intro hsorts
    have hsorted := hs hsorts.perm
    refine ⟨hsorts.perm, hsorts.ordered.imp_of_mem fun ha hb hab =>
      (extended_iff (hsorted _ ha) (hsorted _ hb)).mp hab, fun a ha => ?_⟩
    rw [← hties a (hv a ha) sorted hsorted, ← hties a (hv a ha) values hv]
    exact hsorts.ties a

/-- Where comparing is a total preorder, sorting has the one answer that leaves ties as they are. -/
theorem Preorders.exists_sort (h : c.Preorders D) (hv : ∀ v ∈ values, v ∈ D) :
    ∃ sorted, c.sort values = .ok sorted ∧
      ∀ other, c.SortsStably values other ↔ other = sorted := by
  have hsorts := Sorting.sorts_mergeSort h.totalPreorder values
  refine ⟨_, Sorting.sort_eq h.totalPreorder (h.decides hv), fun other => ?_⟩
  rw [sortsStably_iff h hv]
  constructor
  · intro hother
    exact hother.eq h.totalPreorder hsorts
  · rintro rfl
    exact hsorts

end Sorting

end Comparison

namespace Order

/-- The values that an order is meant for. -/
def domain : Order → Set Value
  | natural => {v | v.Comparable}
  | reverse order => order.domain
  | byKey key order => {v | ∃ x ∈ order.domain, key.of v = .ok x}
  | byNumber key => {v | ∃ x, key.of v = .ok (.number x)}
  | byBigint key => {v | ∃ n, key.of v = .ok (.bigint n)}

/-- All orders that can be written as data are composed of the natural one. -/
theorem composed (order : Order) : order.comparison.Composed order.domain := by
  induction order with
  | natural => exact .natural
  | reverse order ih => exact ih.reverse
  | byKey key order ih => exact ih.byKey (key.of ·)
  | byNumber key => exact .byNumber (key.of ·)
  | byBigint key => exact .byBigint (key.of ·)

end Order

namespace SealedSet

variable {ρ α : Type} {c : Comparison α} {D : Set α} {s : SealedSet ρ α}

/-- However a comparison is made of the natural one, it is a total preorder on the values that it is
meant for, and a set of such values is sorted in the one way that leaves ties in the order of the
elements. -/
theorem sort_elements_of_composed (h : c.Composed D) (hs : ∀ x ∈ s.elements, x ∈ D) :
    c.Preorders D ∧ ∃ sorted, c.sort s.elements = .ok sorted ∧
      ∀ other, c.SortsStably s.elements other ↔ other = sorted :=
  ⟨h.preorders, h.preorders.exists_sort hs⟩

set_option maxRecDepth 4000 in
/-- The odd numbers have NaN as their key. It comes first where the order is reversed, and they
stay as they came. -/
theorem sort_elements_of_composed_reversed :
    let order : Order := .reverse (.byNumber .even)
    let values := List.map fun n : ℕ => Value.number (.ofNat n)
    ∃ s d, ofCandidates true Rule.equivalence .natural (.set 0) none
        ((values [3, 4, 1, 2]).map Value.present?) {} = .ok s d ∧
      s.elements = values [3, 4, 1, 2] ∧ (∀ x ∈ s.elements, x ∈ order.domain) ∧
      order.comparison.Preorders order.domain ∧
      order.comparison.sort s.elements = .ok (values [3, 1, 4, 2]) := by
  intro order values
  obtain ⟨s, d, hs, helements⟩ : ∃ s d, ofCandidates true Rule.equivalence .natural (.set 0) none
      ((values [3, 4, 1, 2]).map Value.present?) {} = .ok s d ∧
      s.elements = values [3, 4, 1, 2] := by
    simp only [values]
    exact ⟨_, _, rfl, rfl⟩
  have hdomain : ∀ x ∈ s.elements, x ∈ order.domain := by
    rw [helements]
    simp only [values, List.map_cons, List.map_nil, List.forall_mem_cons]
    exact ⟨⟨_, rfl⟩, ⟨_, rfl⟩, ⟨_, rfl⟩, ⟨_, rfl⟩, nofun⟩
  have hstable : order.comparison.SortsStably s.elements (values [3, 1, 4, 2]) := by
    rw [helements]
    refine ⟨List.Perm.map _ (by decide), ?_, ?_⟩
    · simp only [values, List.map_cons, List.map_nil, List.pairwise_cons, List.forall_mem_cons]
      simp only [List.Pairwise.nil, List.not_mem_nil, false_implies, implies_true, and_true]
      exact ⟨⟨⟨0, le_rfl, rfl⟩, ⟨-1, by decide, rfl⟩, ⟨-1, by decide, rfl⟩⟩,
        ⟨⟨-1, by decide, rfl⟩, ⟨-1, by decide, rfl⟩⟩, ⟨-1, by decide, rfl⟩⟩
    · simp only [values, List.map_cons, List.map_nil, List.forall_mem_cons]
      exact ⟨rfl, rfl, rfl, rfl, nofun⟩
  obtain ⟨hpreorders, sorted, hok, hiff⟩ := sort_elements_of_composed order.composed hdomain
  obtain rfl := (hiff _).mp hstable
  exact ⟨s, d, hs, helements, hdomain, hpreorders, hok⟩

end SealedSet
end SealedSets
