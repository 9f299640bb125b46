import SealedSets.Proofs.Restarts
import SealedSets.Report

/-!
# The first candidate that cannot be stored

A build stops at a candidate that is missing or has no hash. With a hint that is too small it may
have been given up and begun again before, and then it comes to the same candidate. So the failure
is that of the first such candidate for every hint, unless the hint is refused at the outset.
-/
namespace SealedSets.Table

variable {α : Type}

/-- Why the candidate at an index cannot be stored. -/
inductive Obstacle (hash : α → Except Failure Binary64) (i : ℕ) : Option α → Failure → Prop
  | missing : Obstacle hash i none (.nullElement i)
  | unhashed {x : α} {failure : Failure} (h : hash x = .error failure) :
      Obstacle hash i (some x) failure

/-- The candidate at this index cannot be stored, and all before it can. -/
structure FirstObstacle (hash : α → Except Failure Binary64) (candidates : List (Option α))
    (i : ℕ) (failure : Failure) : Prop where
  here : ∃ candidate, candidates[i]? = some candidate ∧ Obstacle hash i candidate failure
  least : ∀ j < i, ∀ candidate, candidates[j]? = some candidate → ∀ failure,
    ¬Obstacle hash j candidate failure

theorem ofCandidates_of_not_hintFits {E : Equivalence α} {candidates : List (Option α)}
    {checked : Bool} {expected : Option Binary64} {c : IdentityCodes}
    (h : ¬HintFits checked expected candidates.length) :
    ofCandidates checked E expected candidates c =
      .error (.invalidCount (expectation expected candidates.length)) c := by
  obtain ⟨hchecked, hcount⟩ := Classical.not_imp.mp h
  have hsize : sizeFor checked (expectation expected candidates.length) =
      .error (.invalidCount (expectation expected candidates.length)) := by
    rw [sizeFor_eq, if_pos (by simp [hchecked, hcount])]
    rfl
  rw [ofCandidates_eq, hsize, Action.lift_error_bind]
  rfl

section Partial

/-- In every state all values can be compared, and they are hashed by this function, as far as it
has an answer. -/
structure HashesBy (E : Equivalence α) (hash : α → Except Failure Binary64) : Prop where
  equal : ∀ x y c, ∃ answer d, E.equal x y c = .ok answer d
  hash : ∀ x, E.hash x = liftM (hash x)

variable {E : Equivalence α} {hash : α → Except Failure Binary64} {candidates : List (Option α)}
  {candidate : Option α} {checked : Bool} {expected : Option Binary64} {c : IdentityCodes}
  {failure : Failure} {i limit : ℕ} {t : Table α}

/-- Where there is an obstacle there is a first one. -/
theorem exists_firstObstacle (hi : candidates[i]? = some candidate)
    (h : Obstacle hash i candidate failure) :
    ∃ j failure, FirstObstacle hash candidates j failure := by
  classical
  have hex : ∃ i candidate, candidates[i]? = some candidate ∧ ∃ failure,
      Obstacle hash i candidate failure := ⟨i, candidate, hi, failure, h⟩
  obtain ⟨candidate', hget, failure', hobstacle⟩ := Nat.find_spec hex
  refine ⟨Nat.find hex, failure', ⟨candidate', hget, hobstacle⟩, fun j hj other hother f hf => ?_⟩
  exact Nat.find_min hex hj ⟨other, hother, f, hf⟩

/-- What has no obstacle can be stored. -/
theorem HashesBy.storable (hE : HashesBy E hash)
    (h : ∀ failure, ¬Obstacle hash i candidate failure) : Storable E candidate := by
  cases candidate with
  | none => exact absurd .missing (h (.nullElement i))
  | some x =>
      cases hx : hash x with
      | error failure => exact absurd (.unhashed hx) (h failure)
      | ok y =>
          refine ⟨x, rfl, fun c => ⟨y.toHashCode, c, ?_⟩, fun z c => hE.equal z x c⟩
          rw [Matching.code, hE.hash, hx]
          rfl

theorem Obstacle.fill (h : Obstacle hash i candidate failure) (hE : HashesBy E hash)
    (rest : List (Option α)) : fill E limit i (candidate :: rest) t c = .error failure c := by
  cases h with
  | missing => rfl
  | unhashed hx =>
      rw [fill_some]
      refine Action.bind_of_error (Action.bind_of_error ?_)
      rw [hE.hash, hx]
      rfl

/-- An attempt is given up, or it fails at the first obstacle. -/
theorem FirstObstacle.ofSize? (h : FirstObstacle hash candidates i failure) (hE : HashesBy E hash)
    (size : ℕ) (c : IdentityCodes) :
    ∃ d, Table.ofSize? E candidates size c = .ok none d ∨
      Table.ofSize? E candidates size c = .error failure d := by
  obtain ⟨⟨candidate, hi, hobstacle⟩, hleast⟩ := h
  obtain ⟨hlt, hget⟩ := List.getElem?_eq_some_iff.mp hi
  have hbefore : ∀ other ∈ candidates.take i, Storable E other := by
    intro other hother
    obtain ⟨j, hj, hget⟩ := List.mem_take_iff_getElem.mp hother
    refine hE.storable (hleast j (by omega) other ?_)
    rw [← hget]
    exact List.getElem?_eq_getElem _
  have hsplit : candidates = candidates.take i ++ candidate :: candidates.drop (i + 1) := by
    rw [← hget, ← List.drop_eq_getElem_cons hlt, List.take_append_drop]
  rw [Table.ofSize?, hsplit]
  obtain ⟨d, hnone | ⟨t, hrest⟩⟩ := fill_append hbefore (Table.limit size) 0
    (candidate :: candidates.drop (i + 1)) (blank size) c
  · exact ⟨d, Or.inl hnone⟩
  · refine ⟨d, Or.inr ?_⟩
    rw [hrest, List.length_take, Nat.min_eq_left hlt.le, Nat.zero_add]
    exact hobstacle.fill hE _

/-- Without obstacles no attempt fails. -/
theorem HashesBy.exists_ofSize? (hE : HashesBy E hash)
    (h : ∀ i failure, ¬FirstObstacle hash candidates i failure) (size : ℕ) (c : IdentityCodes) :
    ∃ t? d, Table.ofSize? E candidates size c = .ok t? d := by
  have hall : ∀ candidate ∈ candidates, Storable E candidate := by
    intro candidate hmem
    obtain ⟨i, hi⟩ := List.mem_iff_getElem?.mp hmem
    refine hE.storable (i := i) fun failure hobstacle => ?_
    obtain ⟨j, failure', hfirst⟩ := exists_firstObstacle hi hobstacle
    exact h j failure' hfirst
  obtain ⟨d, hnone | ⟨t, hrest⟩⟩ := fill_append hall (Table.limit size) 0 [] (blank size) c
  · exact ⟨none, d, by rwa [List.append_nil] at hnone⟩
  · exact ⟨some t, d, by rwa [List.append_nil] at hrest⟩

theorem FirstObstacle.ofCandidates (h : FirstObstacle hash candidates i failure)
    (hE : HashesBy E hash) (grows : E.Grows) (len : candidates.length ≤ Table.limit maxSize)
    (fits : HintFits checked expected candidates.length) (c : IdentityCodes) :
    ∃ d, Table.ofCandidates checked E expected candidates c = .error failure d := by
  refine ofCandidates_of_attempts (P := fun result => ∃ d, result = .error failure d) grows len
    fits fun size c _ _ => ?_
  obtain ⟨d, hnone | herror⟩ := h.ofSize? hE size c
  · exact Or.inl ⟨d, hnone⟩
  · exact Or.inr (Or.inr ⟨failure, d, herror, d, rfl⟩)

theorem HashesBy.exists_ofCandidates (hE : HashesBy E hash) (grows : E.Grows)
    (h : ∀ i failure, ¬FirstObstacle hash candidates i failure)
    (len : candidates.length ≤ Table.limit maxSize)
    (fits : HintFits checked expected candidates.length) (c : IdentityCodes) :
    ∃ t d, Table.ofCandidates checked E expected candidates c = .ok t d := by
  refine ofCandidates_of_attempts (P := fun result => ∃ t d, result = .ok t d) grows len
    fits fun size c _ _ => ?_
  obtain ⟨t?, d, hattempt⟩ := hE.exists_ofSize? h size c
  cases t? with
  | none => exact Or.inl ⟨d, hattempt⟩
  | some t => exact Or.inr (Or.inl ⟨t, d, hattempt, t, d, rfl⟩)

/-- A checked build refuses an expectation that is no count, before it looks at any candidate. Any
other build fails if and only if there is a first candidate that is missing or cannot be hashed,
with the failure of this candidate, and else it makes a table. Where the hint has the build begin
again makes no difference. -/
theorem ofCandidates_fails_first (accepts : α → Except Failure Bool) (equal : α → α → Bool)
    (hash : α → Except Failure Binary64) (family : ℕ)
    (len : candidates.length ≤ Table.limit maxSize) (checked : Bool) (expected : Option Binary64)
    (c : IdentityCodes) :
    (¬HintFits checked expected candidates.length →
      Table.ofCandidates checked (.ofPartial accepts (fun x y => .ok (equal x y)) hash family)
        expected candidates c =
          .error (.invalidCount (expectation expected candidates.length)) c) ∧
    (HintFits checked expected candidates.length →
      (∀ failure, (∃ d, Table.ofCandidates checked
          (.ofPartial accepts (fun x y => .ok (equal x y)) hash family) expected candidates c =
            .error failure d) ↔ ∃ i, FirstObstacle hash candidates i failure) ∧
      ((∃ t d, Table.ofCandidates checked
          (.ofPartial accepts (fun x y => .ok (equal x y)) hash family) expected candidates c =
            .ok t d) ↔ ∀ i failure, ¬FirstObstacle hash candidates i failure)) ∧
    (∀ count, (Failure.invalidCount count).report.name = "TypeError" ∧
      (Failure.invalidCount count).report.category? = some (.text TypeCategory.validation.toText)) ∧
    ∀ i, (Failure.nullElement i).report.name = "NullElementError" ∧
      (Failure.nullElement i).report.index? = some (.number (.ofNat i)) := by
  refine ⟨ofCandidates_of_not_hintFits, fun fits => ?_, fun _ => ⟨rfl, rfl⟩, fun _ => ⟨rfl, rfl⟩⟩
  have hE : HashesBy (.ofPartial accepts (fun x y => .ok (equal x y)) hash family) hash :=
    ⟨fun x y c => ⟨equal x y, c, rfl⟩, fun _ => rfl⟩
  by_cases hfirst : ∃ i failure, FirstObstacle hash candidates i failure
  · obtain ⟨i, failure, h⟩ := hfirst
    obtain ⟨d, herror⟩ := h.ofCandidates hE Equivalence.grows_ofPartial len fits c
    refine ⟨fun failure' => ⟨?_, ?_⟩, ?_⟩
    · rintro ⟨d', herror'⟩
      cases herror.symm.trans herror'
      exact ⟨i, h⟩
    · rintro ⟨i', h'⟩
      exact h'.ofCandidates hE Equivalence.grows_ofPartial len fits c
    · refine iff_of_false ?_ fun hnone => hnone i failure h
      rintro ⟨t, d', hok⟩
      cases herror.symm.trans hok
  · have hnone : ∀ i failure, ¬FirstObstacle hash candidates i failure :=
      fun i failure h => hfirst ⟨i, failure, h⟩
    obtain ⟨t, d, hok⟩ := hE.exists_ofCandidates Equivalence.grows_ofPartial hnone len fits c
    refine ⟨fun failure => iff_of_false ?_ ?_, iff_of_true ⟨t, d, hok⟩ hnone⟩
    · rintro ⟨d', herror⟩
      cases hok.symm.trans herror
    · rintro ⟨i, h⟩
      exact hnone i failure h

set_option maxRecDepth 4000 in
/-- A table for one element is given up at the third candidate, and the build that begins again
comes to the missing one. The last candidate could not be hashed either. Half an element is refused,
unless nothing is checked. -/
theorem ofCandidates_fails_first_missing :
    let hash (x : ℕ) := if x = 9 then .error (.raised "no hash") else .ok (Binary64.ofNat x)
    let build checked hint := Table.ofCandidates checked
      (.ofPartial (fun _ => .ok true) (fun x y => .ok (x == y)) hash 0) (some hint)
      [some 3, some 3, some 5, none, some 9] {}
    (∃ d, build true (.ofNat 1) = .error (.nullElement 3) d) ∧
      build true (.ofFraction 1 2) = .error (.invalidCount (.ofFraction 1 2)) {} ∧
      ∃ d, build false (.ofFraction 1 2) = .error (.nullElement 3) d := by
  intro hash build
  have len : [some 3, some 3, some 5, none, some 9].length ≤ Table.limit maxSize := by
    rw [limit_maxSize]
    decide
  have first : FirstObstacle hash [some 3, some 3, some 5, none, some 9] 3 (.nullElement 3) := by
    refine ⟨⟨none, rfl, .missing⟩, fun j hj candidate hget failure hobstacle => ?_⟩
    have hhash : ∀ x, candidate = some x → x ≠ 9 := by
      rintro x rfl rfl
      match j, hj with
      | 0, _ | 1, _ | 2, _ => cases hget
    cases hobstacle with
    | missing =>
        match j, hj with
        | 0, _ | 1, _ | 2, _ => cases hget
    | @unhashed x failure hx =>
        simp only [hash, if_neg (hhash x rfl)] at hx
        cases hx
  have fails (checked : Bool) (hint : Binary64) :=
    ofCandidates_fails_first (fun _ => .ok true) (fun x y => x == y) hash 0 len checked
      (some hint) {}
  refine ⟨?_, ?_, ?_⟩
  · obtain ⟨-, hfits, -⟩ := fails true (.ofNat 1)
    exact ((hfits fun _ => by decide).1 _).mpr ⟨3, first⟩
  · obtain ⟨hrefused, -⟩ := fails true (.ofFraction 1 2)
    exact hrefused fun h => absurd (h rfl) (by decide)
  · obtain ⟨-, hfits, -⟩ := fails false (.ofFraction 1 2)
    exact ((hfits fun h => absurd h Bool.false_ne_true).1 _).mpr ⟨3, first⟩

end Partial
end SealedSets.Table
