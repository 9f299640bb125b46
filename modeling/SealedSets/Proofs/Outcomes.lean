import SealedSets.Proofs.Membership

/-!
# What becomes of a list of candidates

Under a steady equivalence it depends on comparisons alone whether a set is made, which elements it
has, and with what failure it ends otherwise. The hash codes decide where the elements lie, and
nothing else.
-/
namespace SealedSets

namespace Action

variable {α β γ δ : Type} {a : Action α} {c : IdentityCodes} {x : α} {view : α → β}
  {outcome : Except Failure β}

/-- From the codes `c` on, the action ends with the failure or with an answer of this view. -/
def Ends (a : Action α) (c : IdentityCodes) (view : α → β) (outcome : Except Failure β) : Prop :=
  ∃ d, c ≤ d ∧ match outcome with
    | .ok y => ∃ x, a c = .ok x d ∧ view x = y
    | .error failure => a c = .error failure d

theorem ends_pure (c : IdentityCodes) (view : α → β) (x : α) :
    (pure x : Action α).Ends c view (.ok (view x)) :=
  ⟨c, le_rfl, x, rfl, rfl⟩

theorem ends_throw (c : IdentityCodes) (view : α → β) (failure : Failure) :
    (throw failure : Action α).Ends c view (.error failure) :=
  ⟨c, le_rfl, rfl⟩

theorem ends_lift (c : IdentityCodes) (r : Except Failure α) :
    (liftM r : Action α).Ends c id r := by
  cases r with
  | ok x => exact ends_pure c id x
  | error failure => exact ends_throw c id failure

/-- An action that runs like another from later codes ends like it. -/
theorem Ends.of_eq {a' : Action α} {d : IdentityCodes} (h : a'.Ends d view outcome) (hcd : c ≤ d)
    (heq : a c = a' d) : a.Ends c view outcome := by
  obtain ⟨e, hde, hend⟩ := h
  refine ⟨e, hcd.trans hde, ?_⟩
  rw [heq]
  exact hend

/-- What comes after an answer may use all that is known of it. -/
theorem Ends.bind {f : α → Action γ} {view' : γ → δ} {g : β → Except Failure δ}
    (ha : a.Ends c view outcome)
    (hf : ∀ x d, c ≤ d → a c = .ok x d → (f x).Ends d view' (g (view x))) :
    (a >>= f).Ends c view' (outcome >>= g) := by
  obtain ⟨d, hcd, hend⟩ := ha
  cases outcome with
  | error failure => exact ⟨d, hcd, bind_of_error hend⟩
  | ok y =>
      obtain ⟨x, hx, rfl⟩ := hend
      obtain ⟨e, hde, hend⟩ := hf x d hcd hx
      refine ⟨e, hcd.trans hde, ?_⟩
      change match g (view x) with
        | .ok z => ∃ w, (a >>= f) c = .ok w e ∧ view' w = z
        | .error failure => (a >>= f) c = .error failure e
      rw [bind_of_ok hx]
      exact hend

end Action

namespace Table

variable {α β : Type}

/-- What is kept of the candidates from index `i` on, if they are at most `limit` with those kept
already. -/
def keepAll (eq : α → α → Bool) (limit : ℕ) :
    ℕ → List (Option α) → List α → Except Failure (Option (List α))
  | _, [], kept => .ok (some kept)
  | i, none :: _, _ => .error (.nullElement i)
  | i, some x :: rest, kept =>
    if kept.any (eq · x) then keepAll eq limit (i + 1) rest kept
    else if kept.length = limit then .ok none
    else keepAll eq limit (i + 1) rest (kept ++ [x])

/-- The elements of the table of the candidates. -/
def outcome (checked : Bool) (eq : α → α → Bool) (expected : Option Binary64)
    (candidates : List (Option α)) : Except Failure (List α) := do
  let count := Binary64.ofNat candidates.length
  let size ← sizeFor checked (expectation expected candidates.length)
  match ← keepAll eq (limit size) 0 candidates [] with
  | some kept => return kept
  | none =>
    let size ← sizeFor checked count
    match ← keepAll eq (limit size) 0 candidates [] with
    | some kept => return kept
    | none => throw (.capacityExceeded count)

variable {E : Equivalence α} {S : Set α} {eq : α → α → Bool} {b c : IdentityCodes} {t : Table α}
  {candidates : List (Option α)}

/-- The induction is on the candidates, with the elements that the table has by then. -/
theorem fill_ends {limit : ℕ} (steady : E.Steady b S eq) (i : ℕ) (ht : t.Loaded E b c limit)
    (hS : ∀ y ∈ t.elements, y ∈ S) (hmem : ∀ x, some x ∈ candidates → x ∈ S) :
    (fill E limit i candidates t).Ends c (Option.map fun t => t.elements.toList)
      (keepAll eq limit i candidates t.elements.toList) := by
  induction candidates generalizing i t c with
  | nil => exact Action.ends_pure c _ (some t)
  | cons candidate candidates ih =>
      cases candidate with
      | none => exact Action.ends_throw c _ (.nullElement i)
      | some x =>
          have hx : x ∈ S := hmem x List.mem_cons_self
          have hmem : ∀ x, some x ∈ candidates → x ∈ S :=
            fun y hy => hmem y (List.mem_cons_of_mem _ hy)
          obtain ⟨k, d, hcd, hgave, hfill⟩ := fill_some_steady steady i candidates ht hS hx
          have hd := ht.mono hcd
          rw [keepAll]
          by_cases hany : t.elements.toList.any (eq · x)
          · rw [if_pos hany] at hfill ⊢
            exact (ih (i + 1) hd hS hmem).of_eq hcd hfill
          · rw [if_neg hany] at hfill ⊢
            rw [Array.length_toList]
            by_cases hsize : t.size = limit
            · rw [if_pos hsize] at hfill
              rw [if_pos (show t.elements.size = limit from hsize)]
              exact (Action.ends_pure d _ none).of_eq hcd hfill
            · rw [if_neg hsize] at hfill
              rw [if_neg (show t.elements.size ≠ limit from hsize)]
              have hins := hd.insertAt hsize hgave
              generalize hadd : t.insertAt (stop t.slots t.capacity (t.home k)) k x = t'
                at hfill hins
              have helements : t'.elements = t.elements.push x := by rw [← hadd, insertAt]
              rw [← Array.toList_push, ← helements]
              refine (ih (i + 1) hins (fun y hy => ?_) hmem).of_eq hcd hfill
              rw [helements] at hy
              rcases Array.mem_push.mp hy with hy | rfl
              · exact hS y hy
              · exact hx

theorem ofSize?_ends {size : ℕ} (steady : E.Steady b S eq) (hbc : b ≤ c)
    (hsize : limit size < size) (hmem : ∀ x, some x ∈ candidates → x ∈ S) :
    (ofSize? E candidates size).Ends c (Option.map fun t => t.elements.toList)
      (keepAll eq (limit size) 0 candidates []) :=
  fill_ends steady 0 (loaded_blank hbc hsize) (by simp [blank]) hmem

theorem ofCandidates_ends {checked : Bool} {expected : Option Binary64} (steady : E.Steady c S eq)
    (hmem : ∀ x, some x ∈ candidates → x ∈ S) :
    (ofCandidates checked E expected candidates).Ends c (fun t => t.elements.toList)
      (outcome checked eq expected candidates) := by
  rw [ofCandidates_eq, outcome]
  refine (Action.ends_lift c _).bind fun size d _ hlift => ?_
  obtain ⟨hsize, rfl⟩ := Action.lift_eq_ok.mp hlift
  refine (ofSize?_ends steady le_rfl (limit_lt_of_sizeFor hsize) hmem).bind fun t? e hce _ => ?_
  cases t? with
  | some t => exact Action.ends_pure e _ t
  | none =>
      refine (Action.ends_lift e _).bind fun size f _ hlift => ?_
      obtain ⟨hsize, rfl⟩ := Action.lift_eq_ok.mp hlift
      refine (ofSize?_ends steady hce (limit_lt_of_sizeFor hsize) hmem).bind fun t? f _ _ => ?_
      cases t? with
      | some t => exact Action.ends_pure f _ t
      | none => exact Action.ends_throw f _ _

section Images

variable {f : α → β} {eq' : β → β → Bool}

theorem keepAll_map (h : ∀ x y, eq' (f x) (f y) = eq x y) (limit i : ℕ)
    (candidates : List (Option α)) (kept : List α) :
    keepAll eq' limit i (candidates.map (Option.map f)) (kept.map f) =
      Option.map (List.map f) <$> keepAll eq limit i candidates kept := by
  induction candidates generalizing i kept with
  | nil => rfl
  | cons candidate candidates ih =>
      cases candidate with
      | none => rfl
      | some x =>
          have hany : (kept.map f).any (eq' · (f x)) = kept.any (eq · x) := by
            simp [List.any_map, Function.comp_def, h]
          have hpush : kept.map f ++ [f x] = (kept ++ [x]).map f := by simp
          rw [List.map_cons, Option.map_some, keepAll, keepAll, hany, List.length_map, hpush]
          split
          · exact ih (i + 1) kept
          · split
            · rfl
            · exact ih (i + 1) (kept ++ [x])

/-- What compares alike ends alike. -/
theorem outcome_map (h : ∀ x y, eq' (f x) (f y) = eq x y) (checked : Bool)
    (expected : Option Binary64) (candidates : List (Option α)) :
    outcome checked eq' expected (candidates.map (Option.map f)) =
      List.map f <$> outcome checked eq expected candidates := by
  have hkeep (size : ℕ) := keepAll_map h (limit size) 0 candidates []
  rw [List.map_nil] at hkeep
  simp only [outcome, List.length_map, hkeep, map_bind, bind_map_left]
  refine bind_congr fun size => bind_congr fun kept? => ?_
  cases kept? with
  | some kept => rfl
  | none =>
      simp only [Option.map_none, map_bind]
      refine bind_congr fun size => bind_congr fun kept? => ?_
      cases kept? <;> rfl

end Images
end Table

namespace SealedSet

variable {ρ α β : Type}

/-- What is left of a set without hash codes and slots, seen through its elements. -/
def outline (f : α → β) : SealedSet ρ α → SealedSet ρ β
  | empty => empty
  | singleton ref rule x _ => singleton ref rule (f x) 0#32
  | table ref rule t => table ref rule ⟨t.elements.map f, #[], 0#32⟩

/-- The outline of the set with these elements. -/
def ofKept (rule : ρ) (ref : Ref) : List α → SealedSet ρ α
  | [x] => singleton ref rule x 0#32
  | kept => table ref rule ⟨kept.toArray, #[], 0#32⟩

/-- The outline of the set of the candidates. -/
def outcome (checked : Bool) (eq : α → α → Bool) (rule : ρ) (ref : Ref)
    (expected : Option Binary64) (candidates : List (Option α)) :
    Except Failure (SealedSet ρ α) := do
  if candidates.isEmpty then return empty
  return ofKept rule ref (← Table.outcome checked eq expected candidates)

variable {read : ρ → Equivalence α} {rule : ρ} {S : Set α} {eq : α → α → Bool} {ref : Ref}
  {checked : Bool} {expected : Option Binary64} {candidates : List (Option α)} {c : IdentityCodes}

theorem ofKept_eq_outline (rule : ρ) (ref : Ref) {t : Table α} (h : ∀ x, t.elements.toList ≠ [x]) :
    ofKept rule ref t.elements.toList = (table ref rule t).outline id := by
  unfold ofKept
  split
  · next x hx => exact absurd hx (h x)
  · simp [outline]

theorem ofCandidates_ends (steady : (read rule).Steady c S eq)
    (hmem : ∀ x, some x ∈ candidates → x ∈ S) :
    (ofCandidates checked read rule ref expected candidates).Ends c (outline id)
      (outcome checked eq rule ref expected candidates) := by
  rw [ofCandidates, outcome]
  split
  · exact Action.ends_pure c _ empty
  · refine (Table.ofCandidates_ends steady hmem).bind fun t d hcd ht => ?_
    have hkept : ∀ x ∈ t.elements.toList, x ∈ S :=
      fun x hx => hmem x (Table.mem_of_ofCandidates steady.grows ht hx)
    change Action.Ends _ d (outline id) (.ok (ofKept rule ref t.elements.toList))
    have htable (h : ∀ x, t.elements.toList ≠ [x]) :
        (pure (table ref rule t) : Action _).Ends d (outline id)
          (.ok (ofKept rule ref t.elements.toList)) := by
      rw [ofKept_eq_outline rule ref h]
      exact Action.ends_pure d _ (table ref rule t)
    rcases hl : t.elements.toList with _ | ⟨x, _ | ⟨y, kept⟩⟩ <;> rw [hl] at htable
    · exact htable (by simp)
    · obtain ⟨k, e, hk, -⟩ := steady.code x (hkept x (by simp [hl])) d hcd
      exact (Action.ends_pure e _ (singleton ref rule x k)).of_eq ((steady.grows.code x).le hk)
        (Action.bind_of_ok hk)
    · exact htable (by simp)

section Images

variable {f : α → β} {eq' : β → β → Bool}

@[simp] theorem outline_outline {γ : Type} (f : α → β) (g : β → γ) (s : SealedSet ρ α) :
    (s.outline f).outline g = s.outline (g ∘ f) := by
  cases s <;> simp [outline]

theorem ofKept_map (f : α → β) (rule : ρ) (ref : Ref) (kept : List α) :
    ofKept rule ref (kept.map f) = (ofKept rule ref kept).outline f := by
  rcases kept with _ | ⟨x, _ | ⟨y, kept⟩⟩ <;> simp [ofKept, outline]

theorem outcome_map (h : ∀ x y, eq' (f x) (f y) = eq x y) (checked : Bool) (rule : ρ) (ref : Ref)
    (expected : Option Binary64) (candidates : List (Option α)) :
    outcome checked eq' rule ref expected (candidates.map (Option.map f)) =
      outline f <$> outcome checked eq rule ref expected candidates := by
  rw [outcome, outcome, List.isEmpty_map, Table.outcome_map h]
  split
  · rfl
  · simp only [map_bind, bind_map_left, ofKept_map]
    rfl

end Images
end SealedSet
end SealedSets
