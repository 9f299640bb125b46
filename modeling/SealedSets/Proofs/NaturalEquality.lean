import SealedSets.Proofs.Likeness
import SealedSets.Proofs.SetEquality

/-!
# The natural equality of nested values

A set of values is compared by looking up values, which may be sets again. The values that can be
made from values without an equality of their own, by putting them into sets of either standard
rule to any depth, are told apart by one equivalence relation, and equal values are hashed in one
way. This holds whatever objects have codes.
-/
namespace SealedSets

/-- Sets with elements in `S`, each under a standard rule, and no two of them of one identity. -/
structure Nested (c : IdentityCodes) (S : Set Value) (T : List (SealedSet Rule Value)) : Prop where
  law : ∀ rule : Rule, rule.Standard → rule.equivalence.Lawful c S fun x y => x.alike rule y
  standard : ∀ s ∈ T, s.ruleOf.Standard
  proper : ∀ s ∈ T, (s.mapRule Rule.equivalence).Proper s.ruleOf.equivalence c S
    fun x y => x.alike s.ruleOf y
  numbered : ∀ s ∈ T, s.Numbered
  unique : ∀ s ∈ T, ∀ t ∈ T, s.ref = t.ref → s = t

namespace Nested

variable {describe : ℕ → Option Text} {c d : IdentityCodes} {S : Set Value}
  {T : List (SealedSet Rule Value)} {a b : Value} {s t : SealedSet Rule Value} {rule : Rule}

theorem mem (h : Nested c S T) (hs : s ∈ T) : ∀ x ∈ s.elements, x ∈ S := by
  simpa using (h.proper s hs).mem

theorem alike_set_iff (h : Nested c S T) (hs : s ∈ T) (ht : t ∈ T) :
    (Value.set s).alike .natural (.set t) ↔ s.ref = t.ref ∨ s.rule? = t.rule? ∧
      Covered (fun x y => x.alike s.ruleOf y) s.elements t.elements ∧
      Covered (fun x y => x.alike s.ruleOf y) t.elements s.elements := by
  have hlaw := (h.law _ (h.standard s hs)).toEquivalentOn
  have hsymm : (∀ y ∈ t.elements, ∃ x ∈ s.elements, x.alike s.ruleOf y) ↔
      Covered (fun x y => x.alike s.ruleOf y) t.elements s.elements := by
    simpa using Covered.all_any hlaw (h.mem ht) (h.mem hs)
  rw [Value.alike_set_iff, hsymm]

theorem proper_of_rule?_eq (h : Nested c S T) (ht : t ∈ T) (hrule : s.rule? = t.rule?) :
    (t.mapRule Rule.equivalence).Proper s.ruleOf.equivalence c S
      fun x y => x.alike s.ruleOf y := by
  rw [SealedSet.ruleOf_eq hrule]
  exact h.proper t ht

/-- Two sets are equal as `alike` says, whichever of them is asked. -/
theorem equal_set_always (h : Nested c S T) (hs : s ∈ T) (ht : t ∈ T) :
    (Rule.natural.equivalence.equal (.set s) (.set t)).Always c
      ((Value.set s).alike .natural (.set t)) := by
  have hlaw := h.law _ (h.standard s hs)
  have hmem : ∀ y ∈ (t.mapRule Rule.equivalence).elements, y ∈ S := by simpa using h.mem ht
  have hequals := SealedSet.equals_always hlaw (h.proper s hs) hmem
  rw [Rule.natural_equal_set]
  convert hequals using 1
  rw [Bool.eq_iff_iff, h.alike_set_iff hs ht]
  by_cases hrule : s.rule? = t.rule?
  · -- one object covers itself
    have href : s.ref = t.ref → Covered (fun x y => x.alike s.ruleOf y) s.elements t.elements ∧
        Covered (fun x y => x.alike s.ruleOf y) t.elements s.elements := by
      intro href
      obtain rfl := h.unique s hs t ht href
      have hself := Covered.refl hlaw.toEquivalentOn (h.mem hs)
      exact ⟨hself, hself⟩
    rw [SealedSet.answer_iff_covered hlaw (h.proper s hs) (h.proper_of_rule?_eq ht hrule)
      (by simpa using href) (fun _ _ => Or.inr (by simp [hrule]))]
    simp only [SealedSet.elements_mapRule, hrule, true_and, or_iff_right_iff_imp]
    exact href
  · have hfamily : s.rule?.map Rule.family ≠ t.rule?.map Rule.family :=
      mt (Rule.eq_of_family (h.standard s hs) (h.standard t ht)) hrule
    rw [SealedSet.verdict?_mapRule, SealedSet.verdict?_getD_iff]
    constructor
    · rintro (href | ⟨hrule', -⟩)
      · exact Or.inl href
      · exact absurd hrule' hrule
    · rintro (href | ⟨-, hfamily', -⟩)
      · exact Or.inl href
      · exact absurd hfamily' hfamily

theorem hashCode_eq (h : Nested c S T) (hs : s ∈ T) (ht : t ∈ T)
    (hst : (Value.set s).alike .natural (.set t)) : s.hashCode = t.hashCode := by
  obtain href | ⟨hrule, hcov, hcov'⟩ := (h.alike_set_iff hs ht).mp hst
  · rw [h.unique s hs t ht href]
  · have hlaw := h.law _ (h.standard s hs)
    have hproper := h.proper_of_rule?_eq ht hrule
    have hlen := Covered.length_le hlaw.toEquivalentOn (h.mem ht) (h.mem hs)
      (by simpa using hproper.distinct) hcov'
    simpa using SealedSet.hashCode_eq_of_covered hlaw (h.proper s hs) hproper (by simpa using hlen)
      (by simpa using hcov)

/-- Of the known values, those of one mark are flat or one set. -/
theorem cases_of_mark_eq (h : Nested c S T) (ha : a ∈ Known describe T) (hb : b ∈ Known describe T)
    (hab : a.mark = b.mark) :
    a.Flat describe ∧ b.Flat describe ∨ ∃ s ∈ T, a = .set s ∧ b = .set s := by
  rcases ha with ha | ⟨s, hs, rfl⟩ <;> rcases hb with hb | ⟨t, ht, rfl⟩
  · exact Or.inl ⟨ha, hb⟩
  · exact absurd hab (ha.mark_ne_set (h.numbered t ht))
  · exact absurd hab.symm (hb.mark_ne_set (h.numbered s hs))
  · have hst := h.unique s hs t ht (Mark.identity.inj hab)
    exact Or.inr ⟨s, hs, rfl, by rw [hst]⟩

/-- Known values that are alike have one mark, or they are sets of one rule and cover each other. -/
theorem cases_of_alike (h : Nested c S T) (ha : a ∈ Known describe T) (hb : b ∈ Known describe T)
    (hab : a.alike rule b) :
    a.mark = b.mark ∨ ∃ s ∈ T, ∃ t ∈ T, a = .set s ∧ rule = .natural ∧ b = .set t ∧
      s.rule? = t.rule? ∧ Covered (fun x y => x.alike s.ruleOf y) s.elements t.elements ∧
      Covered (fun x y => x.alike s.ruleOf y) t.elements s.elements := by
  obtain ⟨s, t, rfl, rfl, rfl⟩ | hsame := a.alike_cases rule b
  · obtain href | hcov := (h.alike_set_iff (mem_of_set_known ha) (mem_of_set_known hb)).mp hab
    · exact Or.inl (congrArg Mark.identity href)
    · exact Or.inr ⟨s, mem_of_set_known ha, t, mem_of_set_known hb, rfl, rfl, rfl, hcov⟩
  · rw [hsame] at hab
    exact Or.inl (Value.same_iff.mp hab)

theorem equivalentOn (h : Nested c S T) (rule : Rule) :
    EquivalentOn (Known describe T) fun x y => x.alike rule y where
  refl x _ := Value.alike_of_mark_eq rule rfl
  symm x hx y hy hxy := by
    obtain hmark | ⟨s, hs, t, ht, rfl, rfl, rfl, hrule, hcov, hcov'⟩ := h.cases_of_alike hx hy hxy
    · exact Value.alike_of_mark_eq rule hmark.symm
    · rw [h.alike_set_iff ht hs, ← SealedSet.ruleOf_eq hrule]
      exact Or.inr ⟨hrule.symm, hcov', hcov⟩
  trans x hx y hy z hz hxy hyz := by
    obtain hmark | ⟨s, hs, t, ht, rfl, rfl, rfl, hrule, hst, hts⟩ := h.cases_of_alike hx hy hxy
    · obtain ⟨-, hflat⟩ | ⟨s, hs, rfl, rfl⟩ := h.cases_of_mark_eq hx hy hmark
      · obtain hmark' | ⟨s, -, -, -, rfl, -⟩ := h.cases_of_alike hy hz hyz
        · exact Value.alike_of_mark_eq rule (hmark.trans hmark')
        · cases hflat
      · exact hyz
    · obtain hmark | ⟨_, -, u, hu, ht', -, rfl, hrule', htu, hut⟩ := h.cases_of_alike hy hz hyz
      · obtain ⟨hflat, -⟩ | ⟨_, -, ht', rfl⟩ := h.cases_of_mark_eq hy hz hmark
        · cases hflat
        · cases ht'
          exact hxy
      · cases ht'
        have hlaw := (h.law _ (h.standard s hs)).toEquivalentOn
        rw [← SealedSet.ruleOf_eq hrule] at htu hut
        rw [h.alike_set_iff hs hu]
        exact Or.inr ⟨hrule.trans hrule',
          Covered.trans hlaw (h.mem hs) (h.mem ht) (h.mem hu) hst htu,
          Covered.trans hlaw (h.mem hu) (h.mem ht) (h.mem hs) hut hts⟩

theorem equal_always (h : Nested c S T) (hrule : rule.Standard) (ha : a ∈ Known describe T)
    (hb : b ∈ Known describe T) : (rule.equivalence.equal a b).Always c (a.alike rule b) := by
  obtain ⟨s, t, rfl, rfl, rfl⟩ | ⟨s, rfl, rfl, hset, hequal⟩ | ⟨hset, hequal⟩ :=
    a.equal_cases rule b
  · exact h.equal_set_always (mem_of_set_known ha) (mem_of_set_known hb)
  · -- a set is not equal to a flat value
    have hunlike : (Value.set s).alike .natural b = false := by
      rw [Bool.eq_false_iff]
      intro hab
      obtain hmark | ⟨_, -, t, -, -, -, rfl, -⟩ := h.cases_of_alike ha hb hab
      · obtain ⟨hflat, -⟩ | ⟨t, -, -, rfl⟩ := h.cases_of_mark_eq ha hb hmark
        · cases hflat
        · exact hset t rfl
      · exact hset t rfl
    change ((Value.set s).equal .natural b).Always c _
    rw [hequal, hunlike]
    exact Action.always_pure c false
  · have hflat : rule.flatEqual a b = pure (a.alike rule b) := by
      cases hrule with
      | identity =>
          rw [Value.alike_identity]
          rfl
      | natural =>
          rcases ha with ha | ⟨s, -, rfl⟩
          · obtain ⟨s, -, rfl, -⟩ | hsame := a.alike_cases .natural b
            · cases ha
            · rw [hsame]
              exact ha.ownEqual_eq b
          · exact absurd rfl (hset s rfl)
    change (a.equal rule b).Always c _
    rw [hequal, hflat]
    exact Action.always_pure c _

/-- Values that are alike are hashed by one action. -/
theorem hash_eq (h : Nested c S T) (hrule : rule.Standard) (ha : a ∈ Known describe T)
    (hb : b ∈ Known describe T) (hab : a.alike rule b) :
    rule.equivalence.hash a = rule.equivalence.hash b := by
  obtain hmark | ⟨s, hs, t, ht, rfl, rfl, rfl, -⟩ := h.cases_of_alike ha hb hab
  · obtain ⟨haf, hbf⟩ | ⟨s, -, rfl, rfl⟩ := h.cases_of_mark_eq ha hb hmark
    · have hplain := haf.plainHash_eq hbf hmark
      cases hrule with
      | natural => rw [Rule.natural_hash_eq, Rule.natural_hash_eq, haf.ownHash_eq, hbf.ownHash_eq,
          hplain]
      | identity => rw [Rule.identity_hash_eq, Rule.identity_hash_eq, hplain]
    · rfl
  · rw [Rule.natural_hash_eq, Rule.natural_hash_eq, Value.ownHash, Value.ownHash,
      h.hashCode_eq hs ht hab]

/-- The laws of the elements are the laws of flat values and the sets themselves. -/
theorem lawful (h : Nested c S T) (hrule : rule.Standard) :
    rule.equivalence.Lawful c (Known describe T) fun x y => x.alike rule y where
  toEquivalentOn := h.equivalentOn rule
  grows := rule.grows
  equal _ hx _ hy := h.equal_always hrule hx hy
  code x hx d _ := (Rule.settles_hash hrule hx).map (rule.grows.hash x) _ d
  agree x hx y hy hxy d _ k hk := by
    rw [Matching.HasCode, Matching.code, ← h.hash_eq hrule hx hy hxy]
    exact hk
  accepts x hx := by
    rw [Rule.accepts_of_known hrule hx]
    exact Action.always_pure c true

/-- Without sets there is nothing to show. -/
theorem nil (c : IdentityCodes) : Nested c ∅ [] where
  law rule _ :=
    { grows := rule.grows
      equal := fun _ hx => False.elim hx
      code := fun _ hx => False.elim hx
      agree := fun _ hx => False.elim hx
      refl := fun _ hx => False.elim hx
      symm := fun _ hx => False.elim hx
      trans := fun _ hx => False.elim hx
      accepts := fun _ hx => False.elim hx }
  standard := by simp
  proper := by simp
  numbered := by simp
  unique := by simp

theorem mono (h : Nested c S T) (hcd : c ≤ d) : Nested d S T where
  law rule hrule := (h.law rule hrule).mono hcd
  standard := h.standard
  proper s hs := (h.proper s hs).mono hcd subset_rfl
  numbered := h.numbered
  unique := h.unique

/-- The sets may have elements among themselves. -/
theorem known (h : Nested c S T) (hS : S ⊆ Known describe T) : Nested c (Known describe T) T where
  law _ hrule := h.lawful hrule
  standard := h.standard
  proper s hs := (h.proper s hs).mono le_rfl hS
  numbered := h.numbered
  unique := h.unique

/-- One set more, which is no set that was there before unless it has no elements. -/
theorem append {s : SealedSet Rule Value} (h : Nested c S T) (standard : s.ruleOf.Standard)
    (proper : (s.mapRule Rule.equivalence).Proper s.ruleOf.equivalence c S
      fun x y => x.alike s.ruleOf y)
    (numbered : s.Numbered) (fresh : ∀ t ∈ T, t.ref = s.ref → t = s) : Nested c S (T ++ [s]) where
  law := h.law
  standard := by simpa [or_imp, forall_and] using ⟨h.standard, standard⟩
  proper := by simpa [or_imp, forall_and] using ⟨h.proper, proper⟩
  numbered := by simpa [or_imp, forall_and] using ⟨h.numbered, numbered⟩
  unique t ht u hu htu := by
    rcases List.mem_append.mp ht with htT | hts <;> rcases List.mem_append.mp hu with huT | hus
    · exact h.unique t htT u huT htu
    · obtain rfl := List.mem_singleton.mp hus
      exact fresh t htT htu
    · obtain rfl := List.mem_singleton.mp hts
      exact (fresh u huT htu.symm).symm
    · rw [List.mem_singleton.mp hts, List.mem_singleton.mp hus]

end Nested

/-- The sets that were made of known values, one after another, each under a standard rule, and the
codes that objects have by then. Between two sets, other objects may be given codes. -/
inductive History (describe : ℕ → Option Text) : List (SealedSet Rule Value) → IdentityCodes → Prop
  | start (c : IdentityCodes) : History describe [] c
  | wait {made : List (SealedSet Rule Value)} {c d : IdentityCodes} (h : History describe made c)
      (hcd : c ≤ d) : History describe made d
  | make {made : List (SealedSet Rule Value)} {c d : IdentityCodes} {rule : Rule}
      {candidates : List (Option Value)} {checked : Bool} {expected : Option Binary64} {n : ℕ}
      {s : SealedSet Rule Value} (h : History describe made c) (hrule : rule.Standard)
      (known : ∀ v, some v ∈ candidates → v ∈ Known describe made)
      (fresh : ∀ t ∈ made, t.ref ≠ .set n)
      (hs : SealedSet.ofCandidates checked Rule.equivalence rule (.set n) expected candidates c =
        .ok s d) : History describe (made ++ [s]) d

namespace History

variable {describe : ℕ → Option Text} {made : List (SealedSet Rule Value)} {c d : IdentityCodes}

/-- Every set that is made has its elements among the values that were known before. -/
theorem nested (h : History describe made c) : Nested c (Known describe made) made := by
  induction h with
  | start c => exact (Nested.nil c).known (Set.empty_subset _)
  | wait h hcd ih => exact ih.mono hcd
  | @make made c d rule candidates checked expected n s h hrule known fresh hs ih =>
      have hmap := SealedSet.ofCandidates_mapRule hs
      obtain ⟨hcd, -⟩ := SealedSet.sound_of_ofCandidates rule.grows hmap
      have hmem : ∀ x ∈ (s.mapRule Rule.equivalence).elements, x ∈ Known describe made :=
        fun x hx => known x (SealedSet.mem_of_ofCandidates rule.grows hmap hx)
      refine ((ih.mono hcd).append ?_ ?_ ?_ ?_).known (known_append s)
      all_goals obtain ⟨-, rfl⟩ | ⟨-, hsrule, href⟩ := SealedSet.ofCandidates_shape hs
      · exact .natural
      · rw [SealedSet.ruleOf, hsrule]
        exact hrule
      · exact SealedSet.proper_empty
      · rw [SealedSet.ruleOf, hsrule]
        exact SealedSet.proper_of_ofCandidates (ih.law rule hrule) hmem le_rfl le_rfl hmap
      · exact Or.inl rfl
      · exact Or.inr ⟨n, href⟩
      · intro t ht htref
        obtain hempty | ⟨m, htn⟩ := ih.numbered t ht
        · exact hempty
        · rw [htn] at htref
          cases htref
      · intro t ht htref
        exact absurd (htref.trans href) (fresh t ht)

end History

/-- Natural equality is an equivalence relation on the values of every history. It always answers,
and so does the natural hash, which is one action for equal values and keeps to its answer. -/
theorem natural_equal_lawful {describe : ℕ → Option Text} {made : List (SealedSet Rule Value)}
    {c : IdentityCodes} (h : History describe made c) :
    EquivalentOn (Known describe made) (fun a b => a.alike .natural b) ∧
      ∀ a ∈ Known describe made, ∀ b ∈ Known describe made,
        (Rule.natural.equivalence.equal a b).Always c (a.alike .natural b) ∧
        (Rule.natural.equivalence.hash a).Settles ∧
        (a.alike .natural b →
          Rule.natural.equivalence.hash a = Rule.natural.equivalence.hash b) := by
  have hnested := h.nested
  refine ⟨hnested.equivalentOn .natural, fun a ha b hb => ⟨?_, ?_, fun hab => ?_⟩⟩
  · exact hnested.equal_always .natural ha hb
  · exact Rule.settles_hash .natural ha
  · exact hnested.hash_eq .natural ha hb hab

set_option maxRecDepth 4000 in
/-- Of NaN and the two zeros, the inner sets keep different numbers in another order, and the outer
sets hold one of them each beside one object. -/
theorem natural_equal_lawful_zeros :
    ∃ s t u v c, History (fun _ => none) [s, t, u, v] c ∧
      s.elements = [.number .nan, .number .zero] ∧
      t.elements = [.number (.ofLevel true 0), .number .nan] ∧
      u.elements = [.set s, .object (.object 0) (.function "f")] ∧
      v.elements = [.object (.object 0) (.function "f"), .set t] ∧
      (Rule.natural.equivalence.equal (.set u) (.set v)).Always c true ∧
      Rule.natural.equivalence.hash (.set u) = Rule.natural.equivalence.hash (.set v) := by
  let x : Value := .number .nan
  let y : Value := .number .zero
  let z : Value := .number (.ofLevel true 0)
  let f : Value := .object (.object 0) (.function "f")
  let s : SealedSet Rule Value :=
    .table (.set 0) .natural ⟨#[x, y], #[some x, some y, none, none], 0x7ff80000#32⟩
  let t : SealedSet Rule Value := .table (.set 1) .natural
    ⟨#[z, x], #[some z, some x, none, none, none, none, none, none], 0x7ff80000#32⟩
  let u : SealedSet Rule Value := .table (.set 2) .natural
    ⟨#[.set s, f], #[some (.set s), none, some f, none], 0x1e2f79b9#32⟩
  let v : SealedSet Rule Value := .table (.set 3) .natural
    ⟨#[f, .set t], #[some (.set t), none, some f, none], 0x1e2f79b9#32⟩
  have hs : SealedSet.ofCandidates true Rule.equivalence .natural (.set 0) none
      [some x, some y] {} = .ok s {} := by
    simp only [x, y, s]
    rfl
  have ht : SealedSet.ofCandidates true Rule.equivalence .natural (.set 1) none
      [some z, some x, some y] {} = .ok t {} := by
    simp only [x, y, z, t]
    rfl
  have hu : SealedSet.ofCandidates true Rule.equivalence .natural (.set 2) none
      [some (.set s), some f] {} = .ok u ⟨[.object 0]⟩ := by
    simp only [x, y, f, s, u]
    rfl
  have hv : SealedSet.ofCandidates true Rule.equivalence .natural (.set 3) none
      [some f, some (.set t)] ⟨[.object 0]⟩ = .ok v ⟨[.object 0]⟩ := by
    simp only [x, z, f, t, v]
    rfl
  have number (n : Binary64) {made : List (SealedSet Rule Value)} :
      .number n ∈ Known (fun _ => none) made := Or.inl (.number n)
  have flat : f.Flat (fun _ => none) := .object rfl rfl
  have hst : History (fun _ => none) [s, t] {} :=
    .make (.make (.start {}) .natural (by simp [x, y, number]) (by simp) hs) .natural
      (by simp [x, y, z, number]) (by simp [s, SealedSet.ref]) ht
  have huv : History (fun _ => none) [s, t, u, v] ⟨[.object 0]⟩ :=
    .make (.make hst .natural (by simp [flat, Known]) (by simp [s, t, SealedSet.ref]) hu) .natural
      (by simp [flat, Known]) (by simp [s, t, u, SealedSet.ref]) hv
  obtain ⟨-, h⟩ := natural_equal_lawful huv
  obtain ⟨hequal, -, hhash⟩ := h (.set u) (by simp [Known]) (.set v) (by simp [Known])
  have hx : x.alike .natural x := Value.alike_of_mark_eq _ rfl
  have hzero : y.alike .natural z := Value.alike_of_mark_eq _ rfl
  have hf : f.alike .natural f := Value.alike_of_mark_eq _ rfl
  have hinner : (Value.set s).alike .natural (.set t) :=
    Value.alike_set_iff.mpr (Or.inr ⟨rfl, by
      simp [Covered, SealedSet.elements, SealedSet.ruleOf, SealedSet.rule?, s, t, hx, hzero]⟩)
  have halike : (Value.set u).alike .natural (.set v) :=
    Value.alike_set_iff.mpr (Or.inr ⟨rfl, by
      simp [Covered, SealedSet.elements, SealedSet.ruleOf, SealedSet.rule?, u, v, hf, hinner]⟩)
  refine ⟨s, t, u, v, _, huv, rfl, rfl, rfl, rfl, ?_, hhash halike⟩
  rwa [halike] at hequal

end SealedSets
