import SealedSets.Proofs.Deduplication
import SealedSets.Proofs.ExactSizing

/-!
# Restarts

A build goes on restarting until a table is filled, and nothing in this loop counts how often. It
restarts once at most: candidates that go beyond the limit of a table are more than this limit, and
the size for all of them is larger. Where equal values have equal hash codes, it restarts exactly if
the first occurrences are too many.
-/
namespace SealedSets

namespace Equivalence

variable {α : Type}

/-- In every state all values can be compared and hashed. -/
structure Total (E : Equivalence α) : Prop where
  equal : ∀ x y c, ∃ answer d, E.equal x y c = .ok answer d
  code : ∀ x c, ∃ k d, E.code x c = .ok k d

theorem total_ofPure (accepts : α → Bool) (equal : α → α → Bool) (hash : α → Binary64)
    (family : ℕ) : (ofPure accepts equal hash family).Total where
  equal x y c := ⟨equal x y, c, rfl⟩
  code x c := ⟨(hash x).toHashCode, c, rfl⟩

end Equivalence

namespace Table

variable {α : Type} {E : Equivalence α} {xs : List α} {candidates : List (Option α)}
  {t t' : Table α} {checked : Bool} {expected : Option Binary64} {c c' d d' e : IdentityCodes}
  {limit i n size size' : ℕ} {sizes sizes' : List ℕ}

theorem exists_search {slots : Array (Option α)} {test : α → Action Bool}
    (total : ∀ x c, ∃ answer d, test x c = .ok answer d) (n i : ℕ) (c : IdentityCodes) :
    ∃ slot? d, search slots test n i c = .ok slot? d := by
  induction n generalizing i c with
  | zero => exact ⟨some i, c, rfl⟩
  | succ n ih =>
      by_cases hx : Held slots i
      · obtain ⟨x, hx⟩ := hx
        obtain ⟨passed, e, htest⟩ := total x c
        rw [search_of_held hx, Action.bind_of_ok htest]
        cases passed with
        | true => exact ⟨none, e, rfl⟩
        | false => exact ih _ e
      · exact ⟨some i, c, by rw [search_of_not_held hx]; rfl⟩

/-- In every state the candidate can be compared and hashed. -/
def Storable (E : Equivalence α) (candidate : Option α) : Prop :=
  ∃ x, candidate = some x ∧ (∀ c, ∃ k d, E.code x c = .ok k d) ∧
    ∀ y c, ∃ answer d, E.equal y x c = .ok answer d

/-- Such a candidate is one too many, or the rest goes into the table that it leaves. -/
theorem Storable.fill {candidate : Option α} (h : Storable E candidate) (i : ℕ)
    (rest : List (Option α)) (t : Table α) (c : IdentityCodes) :
    ∃ d, fill E limit i (candidate :: rest) t c = .ok none d ∨
      ∃ t', fill E limit i (candidate :: rest) t c = fill E limit (i + 1) rest t' d := by
  obtain ⟨x, rfl, hcode, hequal⟩ := h
  obtain ⟨k, e, hk⟩ := hcode c
  obtain ⟨slot?, d, hslot⟩ := exists_search (fun y c => hequal y c) t.capacity (t.home k) e
  refine ⟨d, ?_⟩
  rw [fill_some, Action.bind_of_ok hk, slotFor?, Action.bind_of_ok hslot]
  cases slot? with
  | none => exact Or.inr ⟨t, rfl⟩
  | some slot =>
      dsimp only
      split
      · exact Or.inl rfl
      · exact Or.inr ⟨_, rfl⟩

/-- So an attempt is given up among such candidates, or it comes to what stands behind them. -/
theorem fill_append {before : List (Option α)} (h : ∀ candidate ∈ before, Storable E candidate)
    (limit i : ℕ) (rest : List (Option α)) (t : Table α) (c : IdentityCodes) :
    ∃ d, fill E limit i (before ++ rest) t c = .ok none d ∨
      ∃ t', fill E limit i (before ++ rest) t c = fill E limit (i + before.length) rest t' d := by
  induction before generalizing i t c with
  | nil => exact ⟨c, Or.inr ⟨t, rfl⟩⟩
  | cons candidate before ih =>
      obtain ⟨hcandidate, hbefore⟩ := List.forall_mem_cons.mp h
      obtain ⟨d, hnone | ⟨t', hrest⟩⟩ := hcandidate.fill i (before ++ rest) t c
      · exact ⟨d, Or.inl hnone⟩
      · obtain ⟨e, h⟩ := ih hbefore (i + 1) t' d
        refine ⟨e, ?_⟩
        rwa [List.cons_append, hrest, List.length_cons, Nat.add_comm before.length,
          ← Nat.add_assoc]

/-- Where all values can be compared and hashed, no attempt at a table fails. -/
theorem exists_fill (total : E.Total) (i : ℕ) (xs : List α) (t : Table α) (c : IdentityCodes) :
    ∃ t? d, fill E limit i (xs.map some) t c = .ok t? d := by
  have hxs : ∀ candidate ∈ xs.map some, Storable E candidate :=
    List.forall_mem_map.mpr fun x _ => ⟨x, rfl, total.code x, fun y => total.equal y x⟩
  obtain ⟨d, hnone | ⟨t', hrest⟩⟩ := fill_append hxs limit i [] t c
  · exact ⟨none, d, by rwa [List.append_nil] at hnone⟩
  · exact ⟨some t', d, by rwa [List.append_nil] at hrest⟩

theorem capacity_of_ofSize? (h : ofSize? E candidates size c = .ok (some t) d) :
    t.capacity = size :=
  (capacity_of_fill h).trans (by simp [blank, capacity])

/-- With room for all candidates the attempt succeeds. -/
theorem exists_ofSize? (total : E.Total) (room : xs.length ≤ Table.limit size)
    (c : IdentityCodes) : ∃ t d, ofSize? E (xs.map some) size c = .ok (some t) d := by
  obtain ⟨t?, d, h⟩ : ∃ t? d, ofSize? E (xs.map some) size c = .ok t? d :=
    exists_fill total 0 xs (blank size) c
  cases t? with
  | some t => exact ⟨t, d, h⟩
  | none =>
      have hlt := limit_lt_of_ofSize? h
      rw [List.length_map] at hlt
      omega

/-- The runs of the loop: tables of these sizes are begun one after another, and the last one is
finished. Whenever a table is given up, the next one has the size for all candidates. -/
inductive Rounds (checked : Bool) (E : Equivalence α) (candidates : List (Option α)) :
    List ℕ → IdentityCodes → Table α → IdentityCodes → Prop
  | finish {size : ℕ} {c d : IdentityCodes} {t : Table α}
      (h : ofSize? E candidates size c = .ok (some t) d) :
      Rounds checked E candidates [size] c t d
  | restart {size next : ℕ} {sizes : List ℕ} {c d e : IdentityCodes} {t : Table α}
      (h : ofSize? E candidates size c = .ok none d)
      (hnext : sizeFor checked (.ofNat candidates.length) = .ok next)
      (rest : Rounds checked E candidates (next :: sizes) d t e) :
      Rounds checked E candidates (size :: next :: sizes) c t e

/-- From one size there is one run. -/
theorem Rounds.unique (h : Rounds checked E candidates (size :: sizes) c t d)
    (h' : Rounds checked E candidates (size :: sizes') c t' d') :
    sizes' = sizes ∧ t' = t ∧ d' = d := by
  generalize hs : size :: sizes = rounds at h
  induction h generalizing size sizes sizes' with
  | finish h =>
      cases hs
      cases h' with
      | finish h' =>
          rw [h] at h'
          cases h'
          exact ⟨rfl, rfl, rfl⟩
      | restart h' _ _ =>
          rw [h] at h'
          cases h'
  | restart h hnext rest ih =>
      cases hs
      cases h' with
      | finish h' =>
          rw [h] at h'
          cases h'
      | restart h' hnext' rest' =>
          rw [h] at h'
          cases h'
          rw [hnext] at hnext'
          cases hnext'
          obtain ⟨rfl, rfl, rfl⟩ := ih rest' rfl
          exact ⟨rfl, rfl, rfl⟩

/-- The size for all candidates is at least twice one that has no room for them. -/
theorem two_mul_le_of_limit_lt {x : Binary64} (hsize : sizeFor checked x = .ok size)
    (hnext : sizeFor checked (.ofNat n) = .ok size') (h : Table.limit size < n) :
    2 * size ≤ size' := by
  obtain ⟨j, hj, hj', rfl⟩ := eq_two_pow_of_sizeFor hsize
  obtain ⟨k, -, -, rfl⟩ := eq_two_pow_of_sizeFor hnext
  obtain ⟨j, rfl⟩ := Nat.exists_eq_add_of_le' hj
  rw [← two_shiftLeft] at h
  have hlt : ¬2 ^ k ≤ 2 <<< j := by
    rw [size_le_iff (by omega) hnext rfl]
    omega
  rw [two_shiftLeft, Nat.not_le, Nat.pow_lt_pow_iff_right (by decide)] at hlt
  rw [Nat.mul_comm, ← Nat.pow_succ]
  exact Nat.pow_le_pow_right (by decide) hlt

/-- The loop ends after one round, or after two with a table that is larger, and what it makes is
the table of the candidates. -/
theorem exists_rounds (total : E.Total)
    (hsize : sizeFor checked (expectation expected xs.length) = .ok size)
    (hnext : sizeFor checked (.ofNat xs.length) = .ok size') (c : IdentityCodes) :
    ∃ t d sizes, ofCandidates checked E expected (xs.map some) c = .ok t d ∧
      Rounds checked E (xs.map some) (size :: sizes) c t d ∧
      (sizes = [] ∧ t.capacity = size ∨
        sizes = [size'] ∧ t.capacity = size' ∧ 2 * size ≤ size') := by
  have hnext' : sizeFor checked (.ofNat (xs.map some).length) = .ok size' := by
    rwa [List.length_map]
  obtain ⟨t?, e, hfill⟩ : ∃ t? e, ofSize? E (xs.map some) size c = .ok t? e :=
    exists_fill total 0 xs (blank size) c
  rw [ofCandidates_eq, List.length_map, hsize, Action.lift_ok_bind, Action.bind_of_ok hfill]
  cases t? with
  | some t => exact ⟨t, e, [], rfl, .finish hfill, Or.inl ⟨rfl, capacity_of_ofSize? hfill⟩⟩
  | none =>
      obtain ⟨t, d, hfill'⟩ := exists_ofSize? total (le_limit_of_sizeFor hnext) e
      have hlt := limit_lt_of_ofSize? hfill
      rw [List.length_map] at hlt
      dsimp only
      rw [hnext, Action.lift_ok_bind, Action.bind_of_ok hfill']
      exact ⟨t, d, [size'], rfl, .restart hfill hnext' (.finish hfill'),
        Or.inr ⟨rfl, capacity_of_ofSize? hfill', two_mul_le_of_limit_lt hsize hnext hlt⟩⟩

/-- Where equal values have equal hash codes, an attempt succeeds if and only if the first
occurrences are within the limit. -/
theorem isSome_of_ofSize? {S : Set α} {eq : α → α → Bool} {t? : Option (Table α)}
    (steady : E.Steady c S eq) (hsize : Table.limit size < size) (hxs : ∀ x ∈ xs, x ∈ S)
    (h : ofSize? E (xs.map some) size c = .ok t? d) :
    t?.isSome ↔ (firsts eq xs).length ≤ Table.limit size := by
  obtain ⟨t?', d', h', -, hresult⟩ := ofSize?_steady steady le_rfl hsize hxs
  rw [h] at h'
  cases h'
  obtain ⟨t, rfl, helements⟩ | ⟨rfl, hlt⟩ := hresult
  · have hload := loaded_of_fill steady.grows h (loaded_blank le_rfl hsize)
    refine iff_of_true rfl ?_
    rw [← helements, Array.length_toList]
    exact hload.size_le
  · exact iff_of_false Bool.false_ne_true (Nat.not_le_of_lt hlt)

/-- The loop has one run, which begins a second table at most. That one has the size for all
candidates, for which no table is ever given up, and at least twice the size of the first. If equal
values have equal hash codes, there is a second table exactly if the first occurrences go beyond the
limit of the first. -/
theorem rounds_le_two (accepts : α → Bool) (equal : α → α → Bool) (hash : α → Binary64)
    (family : ℕ) (len : xs.length ≤ Table.limit maxSize)
    (fits : HintFits checked expected xs.length) (c : IdentityCodes) :
    ∃ size next t d sizes,
      sizeFor checked (expectation expected xs.length) = .ok size ∧
      sizeFor checked (.ofNat xs.length) = .ok next ∧
      ofCandidates checked (.ofPure accepts equal hash family) expected (xs.map some) c =
        .ok t d ∧
      (∀ sizes' t' d', Rounds checked (.ofPure accepts equal hash family) (xs.map some)
        (size :: sizes') c t' d' ↔ sizes' = sizes ∧ t' = t ∧ d' = d) ∧
      (sizes = [] ∧ t.capacity = size ∨ sizes = [next] ∧ t.capacity = next ∧ 2 * size ≤ next) ∧
      (∀ e, ∃ t' e', ofSize? (.ofPure accepts equal hash family) (xs.map some) next e =
        .ok (some t') e') ∧
      ((∀ x y, equal x y → (hash x).toHashCode = (hash y).toHashCode) →
        t.capacity = if (firsts equal xs).length ≤ Table.limit size then size else next) := by
  have total := Equivalence.total_ofPure accepts equal hash family
  obtain ⟨size, hsize⟩ := exists_sizeFor_expectation len fits
  obtain ⟨next, hnext⟩ := sizeFor_count checked len
  obtain ⟨t, d, sizes, hok, hrounds, hsizes⟩ := exists_rounds total hsize hnext c
  refine ⟨size, next, t, d, sizes, hsize, hnext, hok, fun sizes' t' d' => ⟨hrounds.unique, ?_⟩,
    hsizes, exists_ofSize? total (le_limit_of_sizeFor hnext), fun law => ?_⟩
  · rintro ⟨rfl, rfl, rfl⟩
    exact hrounds
  · have attempt {t? : Option (Table α)} {e : IdentityCodes}
        (h : ofSize? (.ofPure accepts equal hash family) (xs.map some) size c = .ok t? e) :
        t?.isSome ↔ (firsts equal xs).length ≤ Table.limit size :=
      isSome_of_ofSize? (Equivalence.steady_ofPure law c) (limit_lt_of_sizeFor hsize)
        (fun x _ => Set.mem_univ x) h
    obtain ⟨rfl, hcapacity⟩ | ⟨rfl, hcapacity, -⟩ := hsizes
    · cases hrounds with
      | finish h => rw [hcapacity, if_pos ((attempt h).mp rfl)]
    · cases hrounds with
      | restart h => rw [hcapacity, if_neg (mt (attempt h).mpr Bool.false_ne_true)]

set_option maxRecDepth 4000 in
/-- A table of two slots holds one element. The second candidate, its duplicate, is dropped at the
limit, and the third one makes the build start again. -/
theorem rounds_le_two_restart :
    ∃ t d, Rounds true (.ofPure (fun _ => true) (fun x y : ℕ => x == y) (fun x => .ofNat x) 0)
        ([7, 7, 8].map some) [2, 8] {} t d ∧
      t.capacity = 8 := by
  have len : [7, 7, 8].length ≤ Table.limit maxSize := by
    rw [limit_maxSize]
    decide
  have fits : HintFits true (some (.ofNat 1)) [7, 7, 8].length := fun _ => by decide
  have law : ∀ x y : ℕ, x == y → (Binary64.ofNat x).toHashCode = (Binary64.ofNat y).toHashCode := by
    intro x y hxy
    rw [beq_iff_eq.mp hxy]
  obtain ⟨size, next, t, d, sizes, hsize, hnext, -, hrounds, hsizes, -, hcapacity⟩ :=
    rounds_le_two (fun _ => true) (fun x y : ℕ => x == y) (fun x => .ofNat x) 0 len fits {}
  obtain rfl : size = 2 := Except.ok.inj (hsize.symm.trans rfl)
  obtain rfl : next = 8 := Except.ok.inj (hnext.symm.trans rfl)
  have hcapacity : t.capacity = 8 := (hcapacity law).trans (by decide)
  obtain ⟨-, htwo⟩ | ⟨rfl, -⟩ := hsizes
  · omega
  · exact ⟨t, d, (hrounds [8] t d).mpr ⟨rfl, rfl, rfl⟩, hcapacity⟩

end Table
end SealedSets
