import SealedSets.Proofs.NaturalEquality
import SealedSets.Proofs.Outcomes

/-!
# Outlines of values

The outline of a value is what is left of it when the hash codes and the slots of all sets in it
are forgotten, to whatever depth they are nested. Whether values are alike can be told from their
outlines.
-/
namespace SealedSets

namespace Value

def outline : Value → Value
  | object ref shape => object ref (ofShape shape)
  | set s => set (ofSet s)
  | v => v
termination_by structural v => v
where
  ofShape : Shape Value → Shape Value
    | .record fields => .record (ofFields fields)
    | .list elements => .list (ofList elements)
    | shape => shape
  termination_by structural shape => shape
  ofFields : List (Text × Value) → List (Text × Value)
    | [] => []
    | field :: rest => ofField field :: ofFields rest
  termination_by structural fields => fields
  ofField : Text × Value → Text × Value
    | (name, v) => (name, v.outline)
  termination_by structural field => field
  ofList : List Value → List Value
    | [] => []
    | v :: rest => v.outline :: ofList rest
  termination_by structural vs => vs
  ofSet : SealedSet Rule Value → SealedSet Rule Value
    | .empty => .empty
    | .singleton ref rule x _ => .singleton ref rule x.outline 0#32
    | .table ref rule t => .table ref rule (ofTable t)
  termination_by structural s => s
  ofTable : Table Value → Table Value
    | ⟨elements, _, _⟩ => ⟨ofElements elements, #[], 0#32⟩
  termination_by structural t => t
  ofElements : Array Value → Array Value
    | ⟨xs⟩ => ⟨ofList xs⟩
  termination_by structural xs => xs

theorem ofList_eq (vs : List Value) : outline.ofList vs = vs.map outline := by
  induction vs with
  | nil => rfl
  | cons v vs ih => rw [outline.ofList, ih, List.map_cons]

theorem ofFields_eq (fields : List (Text × Value)) :
    outline.ofFields fields = fields.map fun field => (field.1, field.2.outline) := by
  induction fields with
  | nil => rfl
  | cons field fields ih => rw [outline.ofFields, ih, List.map_cons, outline.ofField]

@[simp] theorem outline_set (s : SealedSet Rule Value) :
    (set s).outline = set (s.outline outline) := by
  cases s with
  | empty => rfl
  | singleton ref rule x k => rfl
  | table ref rule t =>
      obtain ⟨⟨xs⟩, slots, k⟩ := t
      simp [outline, outline.ofSet, outline.ofTable, outline.ofElements, ofList_eq,
        SealedSet.outline]

@[simp] theorem outline_list (ref : Ref) (vs : List Value) :
    (object ref (.list vs)).outline = object ref (.list (vs.map outline)) := by
  rw [outline, outline.ofShape, ofList_eq]

@[simp] theorem outline_record (ref : Ref) (fields : List (Text × Value)) :
    (object ref (.record fields)).outline =
      object ref (.record (fields.map fun field => (field.1, field.2.outline))) := by
  rw [outline, outline.ofShape, ofFields_eq]

end Value

namespace SealedSet

variable {ρ α β : Type}

@[simp] theorem ref_outline (f : α → β) (s : SealedSet ρ α) : (s.outline f).ref = s.ref := by
  cases s <;> rfl

@[simp] theorem rule?_outline (f : α → β) (s : SealedSet ρ α) : (s.outline f).rule? = s.rule? := by
  cases s <;> rfl

@[simp] theorem elements_outline (f : α → β) (s : SealedSet ρ α) :
    (s.outline f).elements = s.elements.map f := by
  cases s <;> simp [outline, elements]

@[simp] theorem ruleOf_outline (f : Value → Value) (s : SealedSet Rule Value) :
    (s.outline f).ruleOf = s.ruleOf := by
  rw [ruleOf, ruleOf, rule?_outline]

end SealedSet

namespace Value

variable {a b v : Value}

@[simp] theorem mark_outline (v : Value) : v.outline.mark = v.mark := by
  cases v with
  | set s => rw [outline_set, mark, mark, SealedSet.ref_outline]
  | _ => rfl

@[simp] theorem present?_outline (v : Value) : v.outline.present? = v.present?.map outline := by
  cases v <;> rfl

theorem same_outline (a b : Value) : a.outline.same b.outline = a.same b := by
  rw [Bool.eq_iff_iff, same_iff, same_iff, mark_outline, mark_outline]

theorem exists_eq_set {s : SealedSet Rule Value} (h : v.outline = set s) : ∃ t, v = set t := by
  cases v with
  | set t => exact ⟨t, rfl⟩
  | _ => cases h

/-- The induction is on how deep the sets are nested. -/
theorem alike_outline (a : Value) (rule : Rule) (b : Value) :
    a.outline.alike rule b.outline = a.alike rule b := by
  induction hn : sizeOf a using Nat.strong_induction_on generalizing a rule b with
  | _ n ih =>
    by_cases hsets : ∃ s t, a = set s ∧ rule = .natural ∧ b = set t
    · obtain ⟨s, t, rfl, rfl, rfl⟩ := hsets
      have helements : ∀ x ∈ s.elements, ∀ y,
          x.outline.alike s.ruleOf y.outline = x.alike s.ruleOf y :=
        fun x hx y => ih _ (hn ▸ SealedSet.sizeOf_lt_of_mem hx) x s.ruleOf y rfl
      have hcov : Covered (fun x y => x.alike s.ruleOf y) (s.elements.map outline)
          (t.elements.map outline) ↔
          Covered (fun x y => x.alike s.ruleOf y) s.elements t.elements := by
        simp only [Covered, List.forall_mem_map]
        refine forall₂_congr fun x hx => ?_
        simp [helements x hx]
      have hcov' : (∀ y ∈ t.elements.map outline, ∃ x ∈ s.elements.map outline,
          x.alike s.ruleOf y) ↔ ∀ y ∈ t.elements, ∃ x ∈ s.elements, x.alike s.ruleOf y := by
        simp only [List.forall_mem_map]
        refine forall₂_congr fun y _ => ?_
        simp only [List.mem_map, exists_exists_and_eq_and]
        exact exists_congr fun x => and_congr_right fun hx => by rw [helements x hx]
      rw [Bool.eq_iff_iff, outline_set, outline_set, alike_set_iff, alike_set_iff]
      simp only [SealedSet.ref_outline, SealedSet.rule?_outline, SealedSet.ruleOf_outline,
        SealedSet.elements_outline, hcov, hcov']
    · have hsame := (a.alike_cases rule b).resolve_left hsets
      have hsame' := (a.outline.alike_cases rule b.outline).resolve_left (by
        rintro ⟨s, t, ha, hrule, hb⟩
        obtain ⟨s, rfl⟩ := exists_eq_set ha
        obtain ⟨t, rfl⟩ := exists_eq_set hb
        exact hsets ⟨s, t, rfl, hrule, rfl⟩)
      rw [hsame, hsame', same_outline]

end Value
end SealedSets
