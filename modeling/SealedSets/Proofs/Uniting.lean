import SealedSets.Proofs.SetEquality

/-!
# Uniting sets

A set of the elements of two sets is the set of all their candidates. A candidate that a part
drops is equal to one that the part keeps, and if equality is transitive, whatever is equal to the
first is equal to the other. So it is never missed, even if nothing is equal to itself.
-/
namespace SealedSets

variable {α : Type} {eq : α → α → Bool} {S : Set α} {xs ys kept : List α} {x y : α}

/-- Equality leads from an element to what is equal to an element that it is equal to. -/
def TransitiveOn (S : Set α) (eq : α → α → Bool) : Prop :=
  ∀ x ∈ S, ∀ y ∈ S, ∀ z ∈ S, eq x y → eq y z → eq x z

theorem firsts_concat (eq : α → α → Bool) (xs : List α) (x : α) :
    firsts eq (xs ++ [x]) = keep eq (firsts eq xs) x := by
  rw [firsts, List.foldl_append]
  rfl

/-- What was kept stays, and what is equal to something kept is not kept. -/
theorem pairwise_keep (h : kept.Pairwise fun x y => ¬eq x y) :
    (keep eq kept x).Pairwise fun x y => ¬eq x y := by
  by_cases hany : kept.any (eq · x)
  · rwa [keep_of_any hany]
  · rw [keep_of_not_any hany, List.pairwise_append]
    refine ⟨h, List.pairwise_singleton _ x, fun y hy z hz hyz => ?_⟩
    obtain rfl := List.mem_singleton.mp hz
    exact hany (List.any_eq_true.mpr ⟨y, hy, hyz⟩)

theorem pairwise_firsts (eq : α → α → Bool) (xs : List α) :
    (firsts eq xs).Pairwise fun x y => ¬eq x y := by
  induction xs using List.reverseRecOn with
  | nil => exact .nil
  | append_singleton xs x ih =>
      rw [firsts_concat]
      exact pairwise_keep ih

/-- If no candidate is equal to a later one, all of them are kept. -/
theorem firsts_eq_self (h : xs.Pairwise fun x y => ¬eq x y) : firsts eq xs = xs := by
  induction xs using List.reverseRecOn with
  | nil => rfl
  | append_singleton xs x ih =>
      obtain ⟨hxs, -, hx⟩ := List.pairwise_append.mp h
      have hany : ¬xs.any (eq · x) := by
        rw [List.any_eq_true]
        rintro ⟨y, hy, hyx⟩
        exact hx y hy x List.mem_cons_self hyx
      rw [firsts_concat, ih hxs, keep_of_not_any hany]

/-- What is equal to a candidate is equal to one that is kept, or the candidate is kept itself. -/
theorem any_foldl_keep (trans : TransitiveOn S eq) (hS : ∀ y ∈ kept, y ∈ S)
    (hys : ∀ y ∈ ys, y ∈ S) (hx : x ∈ S) (h : ys.any (eq · x)) :
    (ys.foldl (keep eq) kept).any (eq · x) := by
  induction ys generalizing kept with
  | nil => simp at h
  | cons y ys ih =>
      obtain ⟨hy, hys⟩ := List.forall_mem_cons.mp hys
      have hkeep : ∀ z ∈ keep eq kept y, z ∈ S := by
        intro z hz
        rcases mem_keep hz with hz | rfl
        · exact hS z hz
        · exact hy
      rw [List.any_cons, Bool.or_eq_true] at h
      rcases h with hyx | h
      · -- `y` is kept, or something that is kept is equal to it
        have hany : (keep eq kept y).any (eq · x) := by
          by_cases hky : kept.any (eq · y)
          · obtain ⟨z, hz, hzy⟩ := List.any_eq_true.mp hky
            rw [keep_of_any hky]
            exact List.any_eq_true.mpr ⟨z, hz, trans z (hS z hz) y hy x hx hzy hyx⟩
          · rw [keep_of_not_any hky]
            exact List.any_eq_true.mpr ⟨y, by simp, hyx⟩
        obtain ⟨z, hz, hzx⟩ := List.any_eq_true.mp hany
        exact List.any_eq_true.mpr ⟨z, (prefix_foldl_keep eq ys _).mem hz, hzx⟩
      · exact ih hkeep hys h

/-- Behind anything that is kept already, first occurrences stand for all candidates. -/
theorem foldl_keep_firsts (trans : TransitiveOn S eq) (hS : ∀ y ∈ kept, y ∈ S)
    (hys : ∀ y ∈ ys, y ∈ S) :
    (firsts eq ys).foldl (keep eq) kept = ys.foldl (keep eq) kept := by
  induction ys using List.reverseRecOn with
  | nil => rfl
  | append_singleton ys y ih =>
      have hy : y ∈ S := hys y (by simp)
      have hys : ∀ z ∈ ys, z ∈ S := fun z hz => hys z (List.mem_append_left [y] hz)
      have hfirsts : ∀ z ∈ firsts eq ys, z ∈ S := fun z hz => hys z (mem_of_mem_firsts hz)
      rw [firsts_concat, List.foldl_append, List.foldl_cons, List.foldl_nil, ← ih hys]
      by_cases hany : (firsts eq ys).any (eq · y)
      · -- the candidate is dropped early, and it would have been dropped anyway
        rw [keep_of_any hany, keep_of_any (any_foldl_keep trans hS hfirsts hy hany)]
      · rw [keep_of_not_any hany, List.foldl_append]
        rfl

/-- Dropping duplicates in two parts first changes nothing. -/
theorem firsts_append_firsts (trans : TransitiveOn S eq) (hxs : ∀ x ∈ xs, x ∈ S)
    (hys : ∀ y ∈ ys, y ∈ S) : firsts eq (firsts eq xs ++ firsts eq ys) = firsts eq (xs ++ ys) := by
  have hfirsts : ∀ x ∈ firsts eq xs, x ∈ S := fun x hx => hxs x (mem_of_mem_firsts hx)
  calc firsts eq (firsts eq xs ++ firsts eq ys)
      = (firsts eq ys).foldl (keep eq) (firsts eq (firsts eq xs)) := List.foldl_append
    _ = (firsts eq ys).foldl (keep eq) (firsts eq xs) := by
        rw [firsts_eq_self (pairwise_firsts eq xs)]
    _ = ys.foldl (keep eq) (firsts eq xs) := foldl_keep_firsts trans hfirsts hys
    _ = firsts eq (xs ++ ys) := List.foldl_append.symm

namespace SealedSet

variable {E : Equivalence α} {checked : Bool} {expected expected₁ expected₂ : Option Binary64}
  {ref ref₁ ref₂ : Ref} {c c₁ c₂ d d₁ d₂ : IdentityCodes} {a b : SealedSet (Equivalence α) α}

/-- A set is made of the first occurrences, for every hint that fits. -/
theorem exists_ofCandidates_firsts (ref : Ref) (steady : E.Steady c S eq) (hxs : ∀ x ∈ xs, x ∈ S)
    (len : xs.length ≤ Table.limit Table.maxSize) (fits : HintFits checked expected xs.length) :
    ∃ s d, ofCandidates checked id E ref expected (xs.map some) c = .ok s d ∧
      s.elements = firsts eq xs := by
  obtain ⟨s, d, h⟩ := exists_ofCandidates ref steady hxs len fits
  exact ⟨s, d, h, elements_of_ofCandidates steady hxs h⟩

/-- Sets with the same elements have the same hash code, in whatever order they were made. -/
theorem hashCode_eq_of_elements_eq {candidates₁ candidates₂ : List (Option α)}
    (steady : E.Steady c S eq) (hS : ∀ x ∈ a.elements, x ∈ S) (hab : a.elements = b.elements)
    (h₁ : c ≤ c₁) (h₂ : c ≤ c₂)
    (ha : ofCandidates checked id E ref₁ expected₁ candidates₁ c₁ = .ok a d₁)
    (hb : ofCandidates checked id E ref₂ expected₂ candidates₂ c₂ = .ok b d₂)
    (hd₁ : d₁ ≤ d) (hd₂ : d₂ ≤ d) : a.hashCode = b.hashCode := by
  obtain ⟨ks, hks, hsum⟩ := (sound_of_steady steady hS h₁ hd₁ ha).summed
  obtain ⟨ks', hks', hsum'⟩ := (sound_of_steady steady (hab ▸ hS) h₂ hd₂ hb).summed
  have unique : Relator.RightUnique (E.HasCode d) := fun _ _ _ => Matching.HasCode.unique
  rw [← hab] at hks'
  rw [hsum, hsum', unique.forall₂ hks hks']

/-- The set of the elements of two sets is the set of all their candidates, in the same order and
with the same hash code. So a set that is made again of its own elements is the same. -/
theorem uniting_elements (steady : E.Steady c {x | x ∈ xs ∨ x ∈ ys} eq)
    (trans : TransitiveOn {x | x ∈ xs ∨ x ∈ ys} eq)
    (len : xs.length + ys.length ≤ Table.limit Table.maxSize)
    (fits₁ : HintFits checked expected₁ xs.length) (fits₂ : HintFits checked expected₂ ys.length)
    (h₁ : c ≤ c₁) (h₂ : c ≤ c₂) (ref₁ ref₂ : Ref) :
    ∃ a d₁ b d₂, ofCandidates checked id E ref₁ expected₁ (xs.map some) c₁ = .ok a d₁ ∧
      ofCandidates checked id E ref₂ expected₂ (ys.map some) c₂ = .ok b d₂ ∧
      (∀ ref₃ ref₄ expected₃ expected₄ c₃ c₄, c ≤ c₃ → c ≤ c₄ →
        HintFits checked expected₃ (a.size + b.size) →
        HintFits checked expected₄ (xs.length + ys.length) →
        ∃ u d₃ v d₄,
          ofCandidates checked id E ref₃ expected₃ ((a.elements ++ b.elements).map some) c₃ =
            .ok u d₃ ∧
          ofCandidates checked id E ref₄ expected₄ ((xs ++ ys).map some) c₄ = .ok v d₄ ∧
          u.elements = v.elements ∧ u.size = v.size ∧
          ∀ d, d₃ ≤ d → d₄ ≤ d → u.hashCode = v.hashCode) ∧
      ∀ ref₃ expected₃ c₃, c ≤ c₃ → HintFits checked expected₃ a.size →
        ∃ u d₃, ofCandidates checked id E ref₃ expected₃ (a.elements.map some) c₃ = .ok u d₃ ∧
          u.elements = a.elements ∧ u.size = a.size ∧
          ∀ d, d₁ ≤ d → d₃ ≤ d → u.hashCode = a.hashCode := by
  have hxS : ∀ x ∈ xs, x ∈ {x | x ∈ xs ∨ x ∈ ys} := fun x hx => Or.inl hx
  have hyS : ∀ y ∈ ys, y ∈ {x | x ∈ xs ∨ x ∈ ys} := fun y hy => Or.inr hy
  have hxyS : ∀ x ∈ xs ++ ys, x ∈ {x | x ∈ xs ∨ x ∈ ys} := fun x hx => List.mem_append.mp hx
  obtain ⟨a, d₁, hoka, hea⟩ :=
    exists_ofCandidates_firsts ref₁ (steady.mono h₁) hxS (by omega) fits₁
  obtain ⟨b, d₂, hokb, heb⟩ :=
    exists_ofCandidates_firsts ref₂ (steady.mono h₂) hyS (by omega) fits₂
  have haS : ∀ x ∈ a.elements, x ∈ {x | x ∈ xs ∨ x ∈ ys} :=
    fun x hx => hxS x (mem_of_mem_firsts (hea ▸ hx))
  have hbS : ∀ y ∈ b.elements, y ∈ {x | x ∈ xs ∨ x ∈ ys} :=
    fun y hy => hyS y (mem_of_mem_firsts (heb ▸ hy))
  have hlena : a.elements.length ≤ xs.length := hea ▸ length_firsts_le eq xs
  have hlenb : b.elements.length ≤ ys.length := heb ▸ length_firsts_le eq ys
  refine ⟨a, d₁, b, d₂, hoka, hokb, ?_, ?_⟩
  · intro ref₃ ref₄ expected₃ expected₄ c₃ c₄ h₃ h₄ fits₃ fits₄
    have habS : ∀ x ∈ a.elements ++ b.elements, x ∈ {x | x ∈ xs ∨ x ∈ ys} :=
      fun x hx => (List.mem_append.mp hx).elim (haS x) (hbS x)
    obtain ⟨u, d₃, hoku, heu⟩ := exists_ofCandidates_firsts ref₃ (steady.mono h₃) habS
      (by rw [List.length_append]; omega) (by simpa using fits₃)
    obtain ⟨v, d₄, hokv, hev⟩ := exists_ofCandidates_firsts ref₄ (steady.mono h₄) hxyS
      (by rwa [List.length_append]) (by simpa using fits₄)
    have huv : u.elements = v.elements := by
      rw [heu, hev, hea, heb, firsts_append_firsts trans hxS hyS]
    have huS : ∀ x ∈ u.elements, x ∈ {x | x ∈ xs ∨ x ∈ ys} :=
      fun x hx => habS x (mem_of_mem_firsts (heu ▸ hx))
    refine ⟨u, d₃, v, d₄, hoku, hokv, huv, ?_, fun d hd₃ hd₄ => ?_⟩
    · rw [← length_elements, ← length_elements, huv]
    · exact hashCode_eq_of_elements_eq steady huS huv h₃ h₄ hoku hokv hd₃ hd₄
  · intro ref₃ expected₃ c₃ h₃ fits₃
    obtain ⟨u, d₃, hoku, heu⟩ := exists_ofCandidates_firsts ref₃ (steady.mono h₃) haS
      (by omega) (by simpa using fits₃)
    have hua : u.elements = a.elements := by
      rw [heu, hea, firsts_eq_self (pairwise_firsts eq xs)]
    refine ⟨u, d₃, hoku, hua, ?_, fun d hd₁ hd₃ => ?_⟩
    · rw [← length_elements, ← length_elements, hua]
    · exact hashCode_eq_of_elements_eq steady (hua ▸ haS) hua h₃ h₁ hoku hoka hd₃ hd₁

/-- What is less than a value is equal to it here, so nothing is equal to itself. The parts keep a
number twice between them, as the set of all candidates does. -/
theorem uniting_elements_below :
    ∃ a d₁ b d₂ u d₃,
      ofCandidates true id (.ofPure (fun _ => true) (fun x y : ℕ => decide (x < y))
        (fun _ => .ofNat 0x100000001) 0) (.set 0) (some (.ofNat 0)) ([3, 5, 1].map some) {} =
          .ok a d₁ ∧
      ofCandidates true id (.ofPure (fun _ => true) (fun x y : ℕ => decide (x < y))
        (fun _ => .ofNat 0x100000001) 0) (.set 1) none ([1, 0, 2].map some) {} = .ok b d₂ ∧
      a.elements = [3, 1] ∧ b.elements = [1, 0] ∧
      ofCandidates true id (.ofPure (fun _ => true) (fun x y : ℕ => decide (x < y))
        (fun _ => .ofNat 0x100000001) 0) (.set 2) none ((a.elements ++ b.elements).map some) {} =
          .ok u d₃ ∧
      u.elements = [3, 1, 1, 0] := by
  have steady : (Equivalence.ofPure (fun _ => true) (fun x y : ℕ => decide (x < y))
      (fun _ => .ofNat 0x100000001) 0).Steady {} Set.univ (fun x y => decide (x < y)) :=
    Equivalence.steady_ofPure (fun _ _ _ => rfl) {}
  have trans : TransitiveOn {x | x ∈ [3, 5, 1] ∨ x ∈ [1, 0, 2]} fun x y : ℕ => decide (x < y) := by
    intro x _ y _ z _
    simpa using Nat.lt_trans
  have len : [3, 5, 1].length + [1, 0, 2].length ≤ Table.limit Table.maxSize := by
    rw [Table.limit_maxSize]
    decide
  have fits : HintFits true (some (.ofNat 0)) [3, 5, 1].length := fun _ _ => by decide
  have unhinted {n : ℕ} (hn : n ≤ 6) : HintFits true none n :=
    fun _ => Table.hintFits_none true (hn.trans len)
  obtain ⟨a, d₁, b, d₂, ha, hb, hunite, -⟩ := uniting_elements
    (steady.of_subset (Set.subset_univ _)) trans len fits (unhinted (by decide)) le_rfl le_rfl
    (.set 0) (.set 1)
  have univ {xs : List ℕ} : ∀ x ∈ xs, x ∈ Set.univ := fun x _ => Set.mem_univ x
  have hea : a.elements = [3, 1] := elements_of_ofCandidates steady univ ha
  have heb : b.elements = [1, 0] := elements_of_ofCandidates steady univ hb
  have hsize : a.size + b.size = 4 := by
    rw [← length_elements, ← length_elements, hea, heb]
    rfl
  obtain ⟨u, d₃, v, d₄, hu, hv, huv, -⟩ := hunite (.set 2) (.set 3) none none {} {} le_rfl le_rfl
    (unhinted (by omega)) (unhinted (by decide))
  have hev : v.elements = [3, 1, 1, 0] := elements_of_ofCandidates steady univ hv
  exact ⟨a, d₁, b, d₂, u, d₃, ha, hb, hea, heb, hu, huv.trans hev⟩

end SealedSet
end SealedSets
