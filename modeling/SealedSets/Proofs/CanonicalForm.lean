import Mathlib.Data.List.Sort
import SealedSets.Proofs.NaturalEquality
import SealedSets.Proofs.NaturalOrder

/-!
# A canonical form of sets

The elements of a set in the natural order are a form that equal sets share. The order does not use
hash codes and equality does not use the order, but both tell the same values apart: no two elements
tie, and which positions are taken decides which sets are equal.
-/
namespace SealedSets

variable {values us vs : List Value} {a b : Value}

/-- No look is taken into values that have an order. -/
theorem Value.Comparable.alike_iff (ha : a.Comparable) (hb : b.Comparable) (rule : Rule) :
    a.alike rule b ↔ a.position = b.position := by
  rw [← Value.same_iff_position_eq ha hb]
  obtain ⟨s, t, rfl, -⟩ | hsame := a.alike_cases rule b
  · cases ha
  · rw [hsame]

theorem forall₂_same_iff (hus : ∀ u ∈ us, u.Comparable) (hvs : ∀ v ∈ vs, v.Comparable) :
    List.Forall₂ (fun u v => u.same v) us vs ↔
      us.map Value.position = vs.map Value.position := by
  induction us generalizing vs with
  | nil => cases vs <;> simp
  | cons u us ih =>
      cases vs with
      | nil => simp
      | cons v vs =>
          obtain ⟨hu, hus⟩ := List.forall_mem_cons.mp hus
          obtain ⟨hv, hvs⟩ := List.forall_mem_cons.mp hvs
          simp [Value.same_iff_position_eq hu hv, ih hus hvs]

theorem covered_alike_iff (hus : ∀ u ∈ us, u.Comparable) (hvs : ∀ v ∈ vs, v.Comparable) :
    Covered (fun x y => x.alike .natural y) us vs ↔
      ∀ p ∈ us.map Value.position, p ∈ vs.map Value.position := by
  rw [List.forall_mem_map]
  refine forall₂_congr fun u hu => ?_
  rw [List.mem_map]
  refine exists_congr fun v => and_congr_right fun hv => ?_
  rw [(hus u hu).alike_iff (hvs v hv), eq_comm]

/-- Elements that are not equal are sorted strictly. -/
theorem exists_sorted (h : ∀ v ∈ values, v.Comparable)
    (distinct : values.Pairwise fun x y => ¬x.alike .natural y) :
    ∃ us, Comparison.natural.sort values = .ok us ∧ us.Perm values ∧
      (us.map Value.position).Pairwise (· < ·) := by
  have hperm := List.mergeSort_perm values Value.precedes
  have hordered := List.pairwise_mergeSort Value.totalPreorder_precedes.trans
    Value.totalPreorder_precedes.total values
  refine ⟨_, Comparison.sort_natural h, hperm, ?_⟩
  have hnodup : (values.map Value.position).Nodup :=
    List.pairwise_map.mpr (distinct.imp_of_mem fun hx hy hne => by
      rwa [(h _ hx).alike_iff (h _ hy)] at hne)
  have hne := List.pairwise_map.mp ((hperm.map Value.position).nodup_iff.mpr hnodup)
  exact List.pairwise_map.mpr ((hordered.and hne).imp fun ⟨hle, hne⟩ =>
    lt_of_le_of_ne (Value.precedes_iff.mp hle) hne)

/-- Two sorted lists cover each other if and only if they are the same, value by value. -/
theorem covered_sorted_iff {xs ys : List Value} (hxs : ∀ x ∈ xs, x.Comparable)
    (hys : ∀ y ∈ ys, y.Comparable) (hus : us.Perm xs) (hvs : vs.Perm ys)
    (hu : (us.map Value.position).Pairwise (· < ·))
    (hv : (vs.map Value.position).Pairwise (· < ·)) :
    (Covered (fun x y => x.alike .natural y) xs ys ∧
      Covered (fun x y => x.alike .natural y) ys xs) ↔
      List.Forall₂ (fun u v => u.same v) us vs := by
  rw [forall₂_same_iff (fun u h => hxs u (hus.mem_iff.mp h)) (fun v h => hys v (hvs.mem_iff.mp h)),
    covered_alike_iff hxs hys, covered_alike_iff hys hxs]
  have hup := fun p => (hus.map Value.position).mem_iff (a := p)
  have hvp := fun p => (hvs.map Value.position).mem_iff (a := p)
  constructor
  · rintro ⟨hxy, hyx⟩
    refine hu.eq_of_mem_iff hv fun p => ?_
    rw [hup, hvp]
    exact ⟨hxy p, hyx p⟩
  · intro heq
    simp only [← hup, ← hvp, heq]
    exact ⟨fun _ => id, fun _ => id⟩

theorem ascends (hus : us.Perm values) (h : ∀ v ∈ values, v.Comparable)
    (hu : (us.map Value.position).Pairwise (· < ·)) : us.Pairwise fun a b => a.compare b < 0 :=
  (List.pairwise_map.mp hu).imp_of_mem fun ha hb hab =>
    (Value.compare_lt_zero_iff (h _ (hus.mem_iff.mp ha)) (h _ (hus.mem_iff.mp hb))).mpr hab

namespace SealedSet

variable {xs ys : List Value} {checked : Bool} {expected expected' : Option Binary64}
  {c c₁ c₂ d d₁ d₂ : IdentityCodes} {ref : Ref} {m n : ℕ} {s t : SealedSet Rule Value}

section Made

/-- Without sets among the values, this holds whatever objects have codes. -/
theorem lawful_natural (c : IdentityCodes) : Rule.natural.equivalence.Lawful c
    (Known (fun _ => none) []) fun x y => x.alike .natural y :=
  ((Nested.nil c).known (Set.empty_subset _)).law .natural .natural

theorem mem_known_of_comparable (hxs : ∀ x ∈ xs, x.Comparable) :
    ∀ x ∈ xs, x ∈ Known (fun _ => none) [] :=
  fun x hx => Or.inl ((hxs x hx).flat _)

theorem ofCandidates_of_comparable (hxs : ∀ x ∈ xs, x.Comparable)
    (hs : ofCandidates checked Rule.equivalence .natural ref expected (xs.map Value.present?) c =
      .ok s d) :
    ofCandidates checked id Rule.natural.equivalence ref expected (xs.map some) c =
      .ok (s.mapRule Rule.equivalence) d := by
  have hpresent : xs.map Value.present? = xs.map some :=
    List.map_congr_left fun x hx => by cases hxs x hx <;> rfl
  rw [hpresent] at hs
  exact ofCandidates_mapRule hs

theorem comparable_of_mem (hxs : ∀ x ∈ xs, x.Comparable)
    (hs : ofCandidates checked Rule.equivalence .natural ref expected (xs.map Value.present?) c =
      .ok s d) : ∀ x ∈ s.elements, x.Comparable := by
  intro x hx
  have hmap := ofCandidates_of_comparable hxs hs
  have hmem := mem_of_ofCandidates Rule.natural.grows hmap (by rwa [elements_mapRule])
  obtain ⟨y, hy, hyx⟩ := List.mem_map.mp hmem
  rw [← Option.some.inj hyx]
  exact hxs y hy

theorem proper_of_comparable (hxs : ∀ x ∈ xs, x.Comparable)
    (hs : ofCandidates checked Rule.equivalence .natural ref expected (xs.map Value.present?) c =
      .ok s d₁) (hd : d₁ ≤ d) :
    (s.mapRule Rule.equivalence).Proper Rule.natural.equivalence d (Known (fun _ => none) [])
      fun x y => x.alike .natural y := by
  refine proper_of_ofCandidates (lawful_natural c) ?_ le_rfl hd (ofCandidates_of_comparable hxs hs)
  rw [elements_mapRule]
  exact mem_known_of_comparable (comparable_of_mem hxs hs)

theorem shape_of_comparable (hxs : ∀ x ∈ xs, x.Comparable)
    (hs : ofCandidates checked Rule.equivalence .natural ref expected (xs.map Value.present?) c =
      .ok s d) :
    s.mapRule Rule.equivalence = .empty ∨ (s.mapRule Rule.equivalence).elements ≠ [] ∧
      (s.mapRule Rule.equivalence).rule? = some Rule.natural.equivalence ∧
      (s.mapRule Rule.equivalence).ref = ref :=
  have hmap := ofCandidates_of_comparable hxs hs
  shape_of_ofCandidates hmap
    (elements_of_ofCandidates (lawful_natural c).toSteady (mem_known_of_comparable hxs) hmap)

/-- Each element comes before the next one in the natural order. -/
theorem exists_sorted_elements (hxs : ∀ x ∈ xs, x.Comparable)
    (hs : ofCandidates checked Rule.equivalence .natural ref expected (xs.map Value.present?) c =
      .ok s d) :
    ∃ us, Comparison.natural.sort s.elements = .ok us ∧ us.Perm s.elements ∧
      (us.map Value.position).Pairwise (· < ·) := by
  have hproper := proper_of_comparable hxs hs le_rfl
  exact exists_sorted (comparable_of_mem hxs hs) (by simpa using hproper.distinct)

end Made

/-- Sets are equal if and only if their elements in the natural order are the same, one by one. In
that order each element comes before all that follow. One number stands for one set. -/
theorem equals_iff_sorted_same (hxs : ∀ x ∈ xs, x.Comparable) (hys : ∀ y ∈ ys, y.Comparable)
    (hs : ofCandidates checked Rule.equivalence .natural (.set m) expected
      (xs.map Value.present?) c₁ = .ok s d₁)
    (ht : ofCandidates checked Rule.equivalence .natural (.set n) expected'
      (ys.map Value.present?) c₂ = .ok t d₂)
    (hst : m = n → s = t) :
    ∃ us vs, Comparison.natural.sort s.elements = .ok us ∧ us.Perm s.elements ∧
      us.Pairwise (fun a b => a.compare b < 0) ∧
      Comparison.natural.sort t.elements = .ok vs ∧ vs.Perm t.elements ∧
      vs.Pairwise (fun a b => a.compare b < 0) ∧
      ∀ d, d₁ ≤ d → d₂ ≤ d → ∃ answer : Bool,
        ((s.mapRule Rule.equivalence).equals (t.mapRule Rule.equivalence)).Always d answer ∧
        (answer ↔ List.Forall₂ (fun u v => u.same v) us vs) := by
  have hsc := comparable_of_mem hxs hs
  have htc := comparable_of_mem hys ht
  obtain ⟨us, hussort, husperm, hus⟩ := exists_sorted_elements hxs hs
  obtain ⟨vs, hvssort, hvsperm, hvs⟩ := exists_sorted_elements hys ht
  refine ⟨us, vs, hussort, husperm, ascends husperm hsc hus, hvssort, hvsperm,
    ascends hvsperm htc hvs, fun d hd₁ hd₂ => ?_⟩
  have law := lawful_natural d
  have ha := proper_of_comparable hxs hs hd₁
  have hb := proper_of_comparable hys ht hd₂
  refine ⟨_, equals_always law ha hb.mem, ?_⟩
  have hiff := answer_iff_covered law ha hb
  rw [← covered_sorted_iff hsc htc husperm hvsperm hus hvs]
  simp only [elements_mapRule] at hiff ⊢
  by_cases hmn : m = n
  · obtain rfl := hst hmn
    have hself : Covered (fun x y => x.alike .natural y) s.elements s.elements := by
      simpa using Covered.refl law.toEquivalentOn ha.mem
    exact hiff (fun _ => ⟨hself, hself⟩) fun _ _ => Or.inl rfl
  · obtain ⟨href, hrule⟩ :=
      ref_eq_of_shape hmn (shape_of_comparable hxs hs) (shape_of_comparable hys ht)
    simp only [elements_mapRule] at href hrule
    refine hiff (fun hsame => ?_) fun hcov hcov' => hrule ⟨fun hnil => ?_, fun hnil => ?_⟩
    · obtain ⟨hsnil, htnil⟩ := href hsame
      simp [hsnil, htnil]
    · simpa [hnil] using hcov'
    · simpa [hnil] using hcov

set_option maxRecDepth 4000 in
/-- A text and a bigint of one digit, NaN, and another zero in each set. The sets answer that they
are equal, so their elements, which are in another order, are the same in the natural one. -/
theorem equals_iff_sorted_same_mixed :
    ∃ s d₁ t d₂ us vs,
      ofCandidates true Rule.equivalence .natural (.set 0) none
        ([.text ⟨[49]⟩, .bigint 1, .number .nan, .boolean true, .number .zero].map
          Value.present?) {} = .ok s d₁ ∧
      ofCandidates true Rule.equivalence .natural (.set 1) none
        ([.number (.ofLevel true 0), .number .nan, .number .zero, .boolean true, .bigint 1,
          .text ⟨[49]⟩].map Value.present?) {} = .ok t d₂ ∧
      Comparison.natural.sort s.elements = .ok us ∧
      Comparison.natural.sort t.elements = .ok vs ∧
      us.Pairwise (fun a b => a.compare b < 0) ∧ vs.Pairwise (fun a b => a.compare b < 0) ∧
      ((s.mapRule Rule.equivalence).equals (t.mapRule Rule.equivalence)).Always {} true ∧
      List.Forall₂ (fun u v => u.same v) us vs := by
  let a : Value := .text ⟨[49]⟩
  let b : Value := .bigint 1
  let x : Value := .number .nan
  let p : Value := .boolean true
  let y : Value := .number .zero
  let z : Value := .number (.ofLevel true 0)
  let s : SealedSet Rule Value := .table (.set 0) .natural ⟨#[a, b, x, p, y],
    #[some a, some b, some x, some y, none, none, none, some p], 0xe8115307#32⟩
  let t : SealedSet Rule Value := .table (.set 1) .natural ⟨#[z, x, p, b, a],
    #[some z, some b, some a, none, none, none, none, none, some x, none, none, none, none, none,
      none, some p], 0xe8115307#32⟩
  have hs : ofCandidates true Rule.equivalence .natural (.set 0) none
      ([a, b, x, p, y].map Value.present?) {} = .ok s {} := by
    simp only [a, b, x, p, y, s]
    rfl
  have ht : ofCandidates true Rule.equivalence .natural (.set 1) none
      ([z, x, y, p, b, a].map Value.present?) {} = .ok t {} := by
    simp only [a, b, x, p, y, z, t]
    rfl
  have hrun :
      (s.mapRule Rule.equivalence).equals (t.mapRule Rule.equivalence) {} = .ok true {} := by
    simp only [a, b, x, p, y, z, s, t]
    rfl
  obtain ⟨us, vs, hus, -, huasc, hvs, -, hvasc, h⟩ := equals_iff_sorted_same
    (by simp [a, b, x, p, y]) (by simp [a, b, x, p, y, z]) hs ht (by simp)
  obtain ⟨answer, halways, hiff⟩ := h {} le_rfl le_rfl
  obtain rfl := halways.eq le_rfl hrun
  exact ⟨s, _, t, _, us, vs, hs, ht, hus, hvs, huasc, hvasc, halways, hiff.mp rfl⟩

end SealedSet
end SealedSets
