import SealedSets.Proofs.Covering
import SealedSets.Proofs.Membership

/-!
# Equality of sets

Two sets are compared by size, hash function and hash code before the elements of one are looked up
in the other, with the equivalence of the other. Under one equivalence this decides whether they
are the same set. Under two that share a hash function, the answers may depend on which set is
asked.
-/
namespace SealedSets

variable {α : Type}

namespace Equivalence

/-- A steady equivalence that accepts the values of `S` and is an equivalence relation on them. -/
structure Lawful (E : Equivalence α) (c : IdentityCodes) (S : Set α) (eq : α → α → Bool) : Prop
    extends E.Steady c S eq, EquivalentOn S eq where
  accepts : ∀ x ∈ S, (E.accepts x).Always c true

variable {E : Equivalence α} {c d : IdentityCodes} {S : Set α} {eq : α → α → Bool}

theorem Lawful.mono (h : E.Lawful c S eq) (hcd : c ≤ d) : E.Lawful d S eq where
  toSteady := h.toSteady.mono hcd
  toEquivalentOn := h.toEquivalentOn
  accepts x hx := (h.accepts x hx).mono hcd

theorem lawful_ofPure {accepts : α → Bool} {equal : α → α → Bool} {hash : α → Binary64}
    (family : ℕ) (equivalent : EquivalentOn S equal) (accepted : ∀ x ∈ S, accepts x)
    (law : ∀ x ∈ S, ∀ y ∈ S, equal x y → (hash x).toHashCode = (hash y).toHashCode)
    (c : IdentityCodes) : (ofPure accepts equal hash family).Lawful c S equal where
  toEquivalentOn := equivalent
  grows := grows_ofPure
  equal _ _ _ _ := Action.always_pure _ _
  code x _ d _ := ⟨(hash x).toHashCode, d, rfl, Action.always_pure _ _⟩
  agree x hx y hy hxy d _ k hk := by
    have hkx : (hash x).toHashCode = k := hk.eq le_rfl rfl
    rw [← hkx, law x hx y hy hxy]
    exact Action.always_pure _ _
  accepts x hx := by
    rw [← accepted x hx]
    exact Action.always_pure _ _

end Equivalence

namespace SealedSet

section Comparing

variable {E : Equivalence α} {S : Set α} {eq : α → α → Bool} {c : IdentityCodes}
  {a b : SealedSet (Equivalence α) α}

theorem forall₂_hasCode {us ws : List α} {ks : List HashCode} (steady : E.Steady c S eq)
    (hus : ∀ u ∈ us, u ∈ S) (hws : ∀ w ∈ ws, w ∈ S)
    (h : List.Forall₂ (fun u w => eq u w) us ws) (hks : List.Forall₂ (E.HasCode c) us ks) :
    List.Forall₂ (E.HasCode c) ws ks := by
  induction h generalizing ks with
  | nil => exact hks
  | @cons u w us ws huw _ ih =>
      obtain ⟨hu, hus⟩ := List.forall_mem_cons.mp hus
      obtain ⟨hw, hws⟩ := List.forall_mem_cons.mp hws
      cases hks with
      | cons hk hks =>
          exact .cons (steady.agree u hu w hw huw c le_rfl _ hk) (ih hus hws hks)

/-- A set with elements in `S`, no two of them equal. -/
structure Proper (E : Equivalence α) (c : IdentityCodes) (S : Set α) (eq : α → α → Bool)
    (a : SealedSet (Equivalence α) α) : Prop where
  sound : a.Sound E (E.HasCode c)
  mem : ∀ x ∈ a.elements, x ∈ S
  distinct : a.elements.Pairwise fun x y => ¬eq x y

theorem Proper.mono {S' : Set α} {d : IdentityCodes} (h : a.Proper E c S eq) (hcd : c ≤ d)
    (hS : S ⊆ S') : a.Proper E d S' eq where
  sound := h.sound.mono fun _ _ _ hk => hk.mono hcd
  mem x hx := hS (h.mem x hx)
  distinct := h.distinct

theorem proper_empty : (empty : SealedSet (Equivalence α) α).Proper E c S eq where
  sound := .empty
  mem := by simp [elements]
  distinct := .nil

/-- Candidates that are no elements need not be in `S`. -/
theorem proper_of_ofCandidates {ref : Ref} {checked : Bool} {expected : Option Binary64}
    {candidates : List (Option α)} {c₁ d₁ d : IdentityCodes} (law : E.Lawful c S eq)
    (hmem : ∀ x ∈ a.elements, x ∈ S) (h₁ : c ≤ c₁) (hd : d₁ ≤ d)
    (h : ofCandidates checked id E ref expected candidates c₁ = .ok a d₁) :
    a.Proper E d S eq where
  sound := sound_of_steady law.toSteady hmem h₁ hd h
  mem := hmem
  distinct := pairwise_of_ofCandidates (law.toSteady.mono h₁) hmem h

/-- Sets that cover each other have equal hash codes, whichever of equal elements they keep. -/
theorem hashCode_eq_of_covered (law : E.Lawful c S eq) (ha : a.Proper E c S eq)
    (hb : b.Proper E c S eq) (len : b.elements.length ≤ a.elements.length)
    (hcov : Covered eq a.elements b.elements) : a.hashCode = b.hashCode := by
  obtain ⟨ks, hks, hsum⟩ := ha.sound.summed
  obtain ⟨ks', hks', hsum'⟩ := hb.sound.summed
  obtain ⟨ws, hperm, hforall⟩ :=
    hcov.exists_perm law.toEquivalentOn ha.mem hb.mem ha.distinct len
  have hws := forall₂_hasCode law.toSteady ha.mem (fun w hw => hb.mem w (hperm.mem_iff.mp hw))
    hforall hks
  have unique : Relator.RightUnique (E.HasCode c) := fun _ _ _ => Matching.HasCode.unique
  have hkperm : ks.Perm ks' := List.rel_perm_imp unique hws hks' hperm
  rw [hsum, hsum', hkperm.sum_eq]

theorem containsAll_elements_always (law : E.Lawful c S eq) (ha : a.Proper E c S eq)
    (hb : ∀ y ∈ b.elements, y ∈ S) :
    (a.containsAll (b.elements.map some)).Always c
      (b.elements.all fun y => a.elements.any (eq · y)) := by
  have hmem : ∀ v ∈ b.elements.map some, (a.contains v).Always c
      (v.any fun y => a.elements.any (eq · y)) := by
    intro v hv
    obtain ⟨y, hy, rfl⟩ := List.mem_map.mp hv
    simpa using ha.sound.contains_always law.toSteady ha.mem (hb y hy) (law.accepts y (hb y hy))
  have hall := containsAll_always (ha.sound.grows_contains law.grows) hmem
  rwa [List.all_map] at hall

/-- What two sets answer, once the elements of one are looked up in the other. -/
theorem equals_always (law : E.Lawful c S eq) (ha : a.Proper E c S eq)
    (hb : ∀ y ∈ b.elements, y ∈ S) :
    (a.equals b).Always c ((verdict? Matching.family a b).getD
      (b.elements.all fun y => a.elements.any (eq · y))) := by
  unfold equals
  cases verdict? Matching.family a b with
  | some answer => exact Action.always_pure c answer
  | none => exact containsAll_elements_always law ha hb

theorem verdict?_comm {ρ : Type} (family : ρ → ℕ) (s t : SealedSet ρ α) :
    verdict? family s t = verdict? family t s := by
  simp only [verdict?, eq_comm (a := s.ref), ne_comm (a := s.size),
    ne_comm (a := s.rule?.map family), ne_comm (a := s.hashCode)]

theorem verdict?_getD_iff {ρ : Type} {family : ρ → ℕ} {s t : SealedSet ρ α} {answer : Bool} :
    (verdict? family s t).getD answer ↔
      s.ref = t.ref ∨ s.size = t.size ∧ s.rule?.map family = t.rule?.map family ∧
        s.hashCode = t.hashCode ∧ answer := by
  unfold verdict?
  split_ifs <;> simp_all

end Comparing

section OneEquivalence

variable {E : Equivalence α} {S : Set α} {eq : α → α → Bool} {xs ys : List α} {checked : Bool}
  {expected expected' : Option Binary64} {c c₁ c₂ : IdentityCodes} {m n : ℕ}
  {a b : SealedSet (Equivalence α) α}

/-- Neither the size nor the hash code turns away sets that cover each other. -/
theorem answer_iff_covered (law : E.Lawful c S eq) (ha : a.Proper E c S eq)
    (hb : b.Proper E c S eq)
    (href : a.ref = b.ref → Covered eq a.elements b.elements ∧ Covered eq b.elements a.elements)
    (hrule : Covered eq a.elements b.elements → Covered eq b.elements a.elements →
      a.ref = b.ref ∨ a.rule? = b.rule?) :
    (verdict? Matching.family a b).getD (b.elements.all fun y => a.elements.any (eq · y)) ↔
      Covered eq a.elements b.elements ∧ Covered eq b.elements a.elements := by
  rw [verdict?_getD_iff, Covered.all_any law.toEquivalentOn hb.mem ha.mem, ← length_elements,
    ← length_elements]
  constructor
  · rintro (hsame | ⟨hlen, -, -, hcov⟩)
    · exact href hsame
    · exact ⟨hcov.symm law.toEquivalentOn hb.mem ha.mem hb.distinct hlen.le, hcov⟩
  · rintro ⟨hab, hba⟩
    have hle := hab.length_le law.toEquivalentOn ha.mem hb.mem ha.distinct
    have hge := hba.length_le law.toEquivalentOn hb.mem ha.mem hb.distinct
    rcases hrule hab hba with hsame | hsame
    · exact Or.inl hsame
    · exact Or.inr ⟨by omega, by rw [hsame], hashCode_eq_of_covered law ha hb hge hab, hba⟩

/-- Of two sets that are empty at once, one is the other or both have elements under `E`. -/
theorem ref_eq_of_shape (hmn : m ≠ n)
    (ha : a = .empty ∨ a.elements ≠ [] ∧ a.rule? = some E ∧ a.ref = .set m)
    (hb : b = .empty ∨ b.elements ≠ [] ∧ b.rule? = some E ∧ b.ref = .set n) :
    (a.ref = b.ref → a.elements = [] ∧ b.elements = []) ∧
      ((a.elements = [] ↔ b.elements = []) → a.ref = b.ref ∨ a.rule? = b.rule?) := by
  rcases ha with rfl | ⟨hane, harule, haref⟩ <;> rcases hb with rfl | ⟨hbne, hbrule, hbref⟩
  · exact ⟨fun _ => ⟨rfl, rfl⟩, fun _ => Or.inl rfl⟩
  · exact ⟨fun h => (nomatch h.trans hbref), fun h => absurd (h.mp rfl) hbne⟩
  · exact ⟨fun h => (nomatch haref.symm.trans h), fun h => absurd (h.mpr rfl) hane⟩
  · exact ⟨fun h => by simp [haref, hbref, hmn] at h, fun _ => Or.inr (harule.trans hbrule.symm)⟩

theorem shape_of_ofCandidates {ref : Ref} {d : IdentityCodes}
    (h : ofCandidates checked id E ref expected (xs.map some) c = .ok a d)
    (hea : a.elements = firsts eq xs) :
    a = .empty ∨ a.elements ≠ [] ∧ a.rule? = some E ∧ a.ref = ref := by
  obtain ⟨-, hempty⟩ | ⟨hne, hrule, href⟩ := ofCandidates_shape h
  · exact Or.inl hempty
  · refine Or.inr ⟨?_, hrule, href⟩
    cases xs with
    | nil => exact absurd rfl hne
    | cons x xs =>
        rw [hea]
        exact firsts_cons_ne_nil x xs

/-- Under one equivalence, sets are equal if and only if their candidates cover each other. Then
each set contains all of the other, and the hash codes agree. -/
theorem equals_iff_covered (law : E.Lawful c {x | x ∈ xs ∨ x ∈ ys} eq)
    (hx : xs.length ≤ Table.limit Table.maxSize) (hy : ys.length ≤ Table.limit Table.maxSize)
    (fits : HintFits checked expected xs.length) (fits' : HintFits checked expected' ys.length)
    (hmn : m ≠ n) (h₁ : c ≤ c₁) (h₂ : c ≤ c₂) :
    ∃ a d₁ b d₂, ofCandidates checked id E (.set m) expected (xs.map some) c₁ = .ok a d₁ ∧
      ofCandidates checked id E (.set n) expected' (ys.map some) c₂ = .ok b d₂ ∧
      ∀ d, d₁ ≤ d → d₂ ≤ d → ∃ p q r : Bool, (a.equals b).Always d p ∧
        (a.containsAll (b.elements.map some)).Always d q ∧
        (b.containsAll (a.elements.map some)).Always d r ∧
        (p ↔ (∀ x ∈ xs, ∃ y ∈ ys, eq x y) ∧ ∀ y ∈ ys, ∃ x ∈ xs, eq y x) ∧
        (p ↔ q ∧ r) ∧ (p → a.hashCode = b.hashCode) := by
  have hxS : ∀ x ∈ xs, x ∈ {x | x ∈ xs ∨ x ∈ ys} := fun x hx => Or.inl hx
  have hyS : ∀ y ∈ ys, y ∈ {x | x ∈ xs ∨ x ∈ ys} := fun y hy => Or.inr hy
  obtain ⟨a, d₁, hoka⟩ := exists_ofCandidates (.set m) (law.toSteady.mono h₁) hxS hx fits
  obtain ⟨b, d₂, hokb⟩ := exists_ofCandidates (.set n) (law.toSteady.mono h₂) hyS hy fits'
  refine ⟨a, d₁, b, d₂, hoka, hokb, fun d hd₁ hd₂ => ?_⟩
  have hea := elements_of_ofCandidates (law.toSteady.mono h₁) hxS hoka
  have heb := elements_of_ofCandidates (law.toSteady.mono h₂) hyS hokb
  have ha : a.Proper E d _ eq := proper_of_ofCandidates law
    (fun x hx => hxS x (mem_of_mem_firsts (hea ▸ hx))) h₁ hd₁ hoka
  have hb : b.Proper E d _ eq := proper_of_ofCandidates law
    (fun y hy => hyS y (mem_of_mem_firsts (heb ▸ hy))) h₂ hd₂ hokb
  obtain ⟨hca, -⟩ := sound_of_ofCandidates law.grows hoka
  have lawd := law.mono (h₁.trans (hca.trans hd₁))
  have hab : Covered eq a.elements b.elements ↔ Covered eq xs ys := by
    rw [hea, heb, covered_firsts_iff law.toEquivalentOn hxS hyS]
  have hba : Covered eq b.elements a.elements ↔ Covered eq ys xs := by
    rw [hea, heb, covered_firsts_iff law.toEquivalentOn hyS hxS]
  obtain ⟨href, hrule⟩ := ref_eq_of_shape hmn (shape_of_ofCandidates hoka hea)
    (shape_of_ofCandidates hokb heb)
  have hanswer := answer_iff_covered lawd ha hb
    (fun hsame => by
      obtain ⟨hanil, hbnil⟩ := href hsame
      simp [hanil, hbnil])
    (fun hcov hcov' => hrule ⟨fun hanil => by simpa [hanil] using hcov',
      fun hbnil => by simpa [hbnil] using hcov⟩)
  refine ⟨_, _, _, equals_always lawd ha hb.mem, containsAll_elements_always lawd ha hb.mem,
    containsAll_elements_always lawd hb ha.mem, ?_, ?_, ?_⟩
  · rw [hanswer, hab, hba]
    rfl
  · rw [hanswer, Covered.all_any law.toEquivalentOn hb.mem ha.mem,
      Covered.all_any law.toEquivalentOn ha.mem hb.mem]
    exact and_comm
  · intro hp
    obtain ⟨hcov, hcov'⟩ := hanswer.mp hp
    exact hashCode_eq_of_covered lawd ha hb
      (hcov'.length_le law.toEquivalentOn hb.mem ha.mem hb.distinct) hcov

/-- Numbers are equal here if they end in one digit, and a hash does not fit a hash code. The sets
keep different numbers, in another order. -/
theorem equals_iff_covered_digits :
    ∃ a d₁ b d₂,
      ofCandidates true id (.ofPure (fun _ => true) (fun x y : ℕ => x % 10 == y % 10)
        (fun x => .ofNat (0x100000000 + x % 10)) 0) (.set 0) (some (.ofNat 0))
        ([13, 3, 27, 41].map some) {} = .ok a d₁ ∧
      ofCandidates true id (.ofPure (fun _ => true) (fun x y : ℕ => x % 10 == y % 10)
        (fun x => .ofNat (0x100000000 + x % 10)) 0) (.set 1) none
        ([1, 7, 103, 27, 1].map some) {} = .ok b d₂ ∧
      ∀ d, d₁ ≤ d → d₂ ≤ d → (a.equals b).Always d true ∧ a.hashCode = b.hashCode := by
  have law : (Equivalence.ofPure (fun _ => true) (fun x y : ℕ => x % 10 == y % 10)
      (fun x => .ofNat (0x100000000 + x % 10)) 0).Lawful {}
      {x | x ∈ [13, 3, 27, 41] ∨ x ∈ [1, 7, 103, 27, 1]} (fun x y => x % 10 == y % 10) := by
    refine Equivalence.lawful_ofPure 0 (equivalentOn_key _ (· % 10)) (fun _ _ => rfl)
      (fun x _ y _ hxy => ?_) {}
    rw [beq_iff_eq.mp hxy]
  have fits : HintFits true (some (.ofNat 0)) [13, 3, 27, 41].length := fun _ _ => by decide
  have fits' : HintFits true none [1, 7, 103, 27, 1].length := fun _ _ => by decide
  obtain ⟨a, d₁, b, d₂, ha, hb, h⟩ := equals_iff_covered law (by rw [Table.limit_maxSize]; decide)
    (by rw [Table.limit_maxSize]; decide) fits fits' Nat.zero_ne_one le_rfl le_rfl
  refine ⟨a, d₁, b, d₂, ha, hb, fun d hd₁ hd₂ => ?_⟩
  obtain ⟨p, q, r, hp, -, -, hiff, -, hcode⟩ := h d hd₁ hd₂
  obtain rfl : p = true := hiff.mpr (by decide)
  exact ⟨hp, hcode rfl⟩

end OneEquivalence

section TwoEquivalences

variable {E₁ E₂ : Equivalence α} {eq₁ eq₂ : α → α → Bool} {a b : SealedSet (Equivalence α) α}
  {checked : Bool} {expected₁ expected₂ : Option Binary64}
  {candidates₁ candidates₂ : List (Option α)} {ref₁ ref₂ : Ref} {c c₁ c₂ d₁ d₂ d : IdentityCodes}

/-- Two sets answer alike whichever is asked, except where they agree in size, hash function and
hash code, and the elements of only one are covered by the other, each set with its own
equivalence. This cannot be if the two equivalences compare the elements alike. -/
theorem equals_comm_iff
    (law₁ : E₁.Lawful c {x | x ∈ a.elements ∨ x ∈ b.elements} eq₁)
    (law₂ : E₂.Lawful c {x | x ∈ a.elements ∨ x ∈ b.elements} eq₂)
    (ha : ofCandidates checked id E₁ ref₁ expected₁ candidates₁ c₁ = .ok a d₁)
    (hb : ofCandidates checked id E₂ ref₂ expected₂ candidates₂ c₂ = .ok b d₂)
    (h₁ : c ≤ c₁) (h₂ : c ≤ c₂) (hd₁ : d₁ ≤ d) (hd₂ : d₂ ≤ d) :
    ∃ p q : Bool, (a.equals b).Always d p ∧ (b.equals a).Always d q ∧
      (p = q ↔ a.ref = b.ref ∨ a.size ≠ b.size ∨
        a.rule?.map Matching.family ≠ b.rule?.map Matching.family ∨ a.hashCode ≠ b.hashCode ∨
        ((∀ y ∈ b.elements, ∃ x ∈ a.elements, eq₁ y x) ↔
          ∀ x ∈ a.elements, ∃ y ∈ b.elements, eq₂ x y)) ∧
      ((∀ x ∈ a.elements, ∀ y ∈ b.elements, eq₁ x y = eq₂ x y) → p = q) := by
  have properA : a.Proper E₁ d _ eq₁ :=
    proper_of_ofCandidates law₁ (fun x hx => Or.inl hx) h₁ hd₁ ha
  have properB : b.Proper E₂ d _ eq₂ :=
    proper_of_ofCandidates law₂ (fun y hy => Or.inr hy) h₂ hd₂ hb
  obtain ⟨hgrow, -⟩ := sound_of_ofCandidates law₁.grows ha
  have hcd := h₁.trans (hgrow.trans hd₁)
  have memA := properA.mem
  have memB := properB.mem
  refine ⟨_, _, equals_always (law₁.mono hcd) properA memB,
    equals_always (law₂.mono hcd) properB memA, ?_⟩
  rw [verdict?_comm Matching.family b a, Bool.eq_iff_iff, verdict?_getD_iff, verdict?_getD_iff,
    Covered.all_any law₁.toEquivalentOn memB memA, Covered.all_any law₂.toEquivalentOn memA memB]
  constructor
  · unfold Covered
    tauto
  · intro agree
    -- `b` has no equal elements under `eq₂`, and `a` none under `eq₁`
    have hlen : a.size = b.size →
        (Covered eq₁ b.elements a.elements ↔ Covered eq₂ a.elements b.elements) := by
      intro hsize
      rw [← length_elements, ← length_elements] at hsize
      constructor
      · intro hcov
        have hba : Covered eq₂ b.elements a.elements := by
          intro y hy
          obtain ⟨x, hx, hyx⟩ := hcov y hy
          have hxy := law₁.symm y (memB y hy) x (memA x hx) hyx
          rw [agree x hx y hy] at hxy
          exact ⟨x, hx, law₂.symm x (memA x hx) y (memB y hy) hxy⟩
        exact hba.symm law₂.toEquivalentOn memB memA properB.distinct hsize.le
      · intro hcov
        have hab : Covered eq₁ a.elements b.elements := by
          intro x hx
          obtain ⟨y, hy, hxy⟩ := hcov x hx
          exact ⟨y, hy, (agree x hx y hy).trans hxy⟩
        exact hab.symm law₁.toEquivalentOn memA memB properA.distinct hsize.ge
    tauto

/-- Of two equivalences with one hash function, the first compares last digits only. -/
theorem equals_comm_iff_one_way :
    ∃ a d₁ b d₂,
      ofCandidates true id (.ofPure (fun _ => true) (fun x y : ℕ => x % 10 == y % 10)
        (fun x => .ofNat (x % 10)) 0) (.set 0) none ([3, 14].map some) {} = .ok a d₁ ∧
      ofCandidates true id (.ofPure (fun _ => true) (fun x y : ℕ => x == y)
        (fun x => .ofNat (x % 10)) 0) (.set 1) none ([13, 24].map some) {} = .ok b d₂ ∧
      ∀ d, d₁ ≤ d → d₂ ≤ d →
        ∃ answer, (a.equals b).Always d answer ∧ (b.equals a).Always d !answer := by
  have law : ∀ x y : ℕ, x % 10 == y % 10 →
      (Binary64.ofNat (x % 10)).toHashCode = (Binary64.ofNat (y % 10)).toHashCode := by
    intro x y hxy
    rw [beq_iff_eq.mp hxy]
  have law' : ∀ x y : ℕ, x == y →
      (Binary64.ofNat (x % 10)).toHashCode = (Binary64.ofNat (y % 10)).toHashCode := by
    intro x y hxy
    rw [beq_iff_eq.mp hxy]
  have fits : HintFits true none [3, 14].length := fun _ _ => by decide
  have fits' : HintFits true none [13, 24].length := fun _ _ => by decide
  obtain ⟨a, d₁, ha, hea, hka⟩ := exists_ofCandidates_ofPure (fun _ => true) 0 (.set 0) law
    (by rw [Table.limit_maxSize]; decide) fits {}
  obtain ⟨b, d₂, hb, heb, hkb⟩ := exists_ofCandidates_ofPure (fun _ => true) 0 (.set 1) law'
    (by rw [Table.limit_maxSize]; decide) fits' {}
  refine ⟨a, d₁, b, d₂, ha, hb, fun d hd₁ hd₂ => ?_⟩
  let S := {x | x ∈ a.elements ∨ x ∈ b.elements}
  have lawful := Equivalence.lawful_ofPure 0 (equivalentOn_key S (· % 10)) (fun _ _ => rfl)
    (fun x _ y _ => law x y) {}
  have lawful' := Equivalence.lawful_ofPure 0 (equivalentOn_key S id) (fun _ _ => rfl)
    (fun x _ y _ => law' x y) {}
  obtain ⟨p, q, hp, hq, hiff, -⟩ := equals_comm_iff lawful lawful' ha hb le_rfl le_rfl hd₁ hd₂
  obtain ⟨hnil, -⟩ | ⟨-, hrule, href⟩ := ofCandidates_shape ha
  · cases hnil
  obtain ⟨hnil, -⟩ | ⟨-, hrule', href'⟩ := ofCandidates_shape hb
  · cases hnil
  have hpq : p ≠ q := by
    intro heq
    rcases hiff.mp heq with h | h | h | h | h
    · simp [href, href'] at h
    · rw [← length_elements, ← length_elements, hea, heb] at h
      exact h rfl
    · rw [hrule, hrule'] at h
      exact h rfl
    · rw [hka, hkb] at h
      exact h (by decide)
    · rw [hea, heb] at h
      revert h
      decide
  obtain rfl : q = !p := Bool.eq_not_iff.mpr hpq.symm
  exact ⟨p, hp, hq⟩

end TwoEquivalences
end SealedSet
end SealedSets
