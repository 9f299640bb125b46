import SealedSets.Value.Equality

/-!
Nested sets. Main statement: the natural equality of two sets is that of the sets under their own
rules, to whatever depth they are nested.
-/
namespace SealedSets

namespace Table

variable {α β : Type}

/-- A search among the images of elements tests the images. -/
theorem search_map (f : α → β) (slots : Array (Option α)) (test : β → Action Bool) (n i : Nat) :
    search (slots.map (·.map f)) test n i = search slots (fun x => test (f x)) n i := by
  induction n generalizing i with
  | zero => rfl
  | succ n ih =>
    unfold search
    rw [Array.getElem?_map]
    cases h : slots[i]? with
    | none => rfl
    | some x => cases x <;> simp [ih]

end Table

namespace SealedSet

variable {ρ σ τ α β γ : Type}

/-- Looking up among the images of elements is looking up among the elements. -/
theorem contains_map {f : β → γ} {g : ρ → Matching γ α} {h : ρ → Matching β α}
    (accepts : ∀ r, (g r).accepts = (h r).accepts) (hash : ∀ r, (g r).hash = (h r).hash)
    (equal : ∀ r x, (g r).equal (f x) = (h r).equal x) (s : SealedSet ρ β) (v : Option α) :
    ((s.map f).mapRule g).contains v = (s.mapRule h).contains v := by
  cases v with
  | none => rfl
  | some y =>
    cases s with
    | empty => rfl
    | singleton ref rule x code => simp [contains, mapRule, map, holds, accepts, equal]
    | table ref rule t =>
      simp [contains, mapRule, map, holds, accepts, Table.contains, hash, Table.map,
        Table.search_map, equal, Table.capacity, Table.home]

theorem containsAll_map {f : β → γ} {g : ρ → Matching γ α} {h : ρ → Matching β α}
    (accepts : ∀ r, (g r).accepts = (h r).accepts) (hash : ∀ r, (g r).hash = (h r).hash)
    (equal : ∀ r x, (g r).equal (f x) = (h r).equal x) (s : SealedSet ρ β)
    (vs : List (Option α)) :
    ((s.map f).mapRule g).containsAll vs = (s.mapRule h).containsAll vs := by
  have hl : ∀ vs, ((s.map f).mapRule g).leading vs = (s.mapRule h).leading vs := by
    intro vs
    induction vs with
    | nil => rfl
    | cons v vs ih => simp only [leading, ih, contains_map accepts hash equal]
  simp only [containsAll, hl]

/-- A verdict looks at rules only to tell their families apart. -/
theorem verdict?_mapRule (f : ρ → σ) (family : σ → Nat) (s t : SealedSet ρ α) :
    verdict? family (s.mapRule f) (t.mapRule f) = verdict? (fun r => family (f r)) s t := by
  have hr : ∀ u : SealedSet ρ α,
      (u.mapRule f).rule?.map family = u.rule?.map fun r => family (f r) := by
    intro u; cases u <;> rfl
  have hs : ∀ u : SealedSet ρ α, (u.mapRule f).size = u.size := by
    intro u; cases u <;> rfl
  simp only [verdict?, ref_mapRule, hashCode_mapRule, hr, hs]

end SealedSet

namespace Value

theorem ofElementList_eq (done : Array Test) (xs : List Value) :
    equal.ofElementList done xs = done ++ (xs.map equal).toArray := by
  induction xs generalizing done with
  | nil => simp [equal.ofElementList]
  | cons x xs ih =>
    rw [equal.ofElementList, ih, List.map_cons, Array.push_eq_append, Array.append_assoc]
    simp

theorem ofSlotList_eq (done : Array (Option Test)) (slots : List (Option Value)) :
    equal.ofSlotList done slots = done ++ (slots.map (·.map equal)).toArray := by
  induction slots generalizing done with
  | nil => simp [equal.ofSlotList]
  | cons x xs ih =>
    have hx : equal.ofSlot x = x.map equal := by cases x <;> rfl
    rw [equal.ofSlotList, ih, List.map_cons, Array.push_eq_append, Array.append_assoc, hx]
    simp

/-- The tests of a set are those of its elements. -/
theorem ofSet_eq (s : SealedSet Rule Value) : equal.ofSet s = s.map equal := by
  cases s with
  | empty => rfl
  | singleton ref rule x code => rfl
  | table ref rule t =>
    obtain ⟨⟨xs⟩, ⟨slots⟩, code⟩ := t
    simp [equal.ofSet, equal.ofTable, equal.ofElements, equal.ofSlots, ofElementList_eq,
      ofSlotList_eq, SealedSet.map, Table.map]

end Value

namespace Rule

/-- Sets are equal if they are so under their own rules. -/
theorem natural_equal_set (s t : SealedSet Rule Value) :
    natural.equivalence.equal (.set s) (.set t) =
      (s.mapRule equivalence).equals (t.mapRule equivalence) := by
  have hv := SealedSet.verdict?_mapRule equivalence Matching.family s t
  have hc := SealedSet.containsAll_map (f := Value.equal) (g := matching) (h := equivalence)
    (fun _ => rfl) (fun _ => rfl) (fun _ _ => rfl) s (t.elements.map some)
  simp only [equivalence, Value.equal, SealedSet.equals, Value.ofSet_eq]
  simp only [equivalence] at hv hc
  rw [hv]
  cases SealedSet.verdict? (fun r : Rule => r.family) s t <;> simp_all

end Rule
end SealedSets
