import SealedSets.Proofs.Covering
import SealedSets.Proofs.Rules

/-!
# Likeness of values

Values without an equality of their own are told apart by what they hold or by their identity. Two
sets are alike if they are one object or have one rule and alike elements, to whatever depth they
are nested. No hash code is looked at.
-/
namespace SealedSets

/-- What values without an equality of their own are told apart by. -/
inductive Mark where
  | undefined
  | null
  | boolean (b : Bool)
  | number (place? : Option ℤ)
  | text (t : Text)
  | bigint (n : ℤ)
  | identity (ref : Ref)

namespace Value

def mark : Value → Mark
  | undefined => .undefined
  | null => .null
  | boolean b => .boolean b
  | number x => .number x.place?
  | text t => .text t
  | bigint n => .bigint n
  | symbol ref _ | object ref _ => .identity ref
  | set s => .identity s.ref

theorem same_iff {a b : Value} : a.same b ↔ a.mark = b.mark := by
  cases a <;> cases b <;>
    simp [same, identical, mark, ref?, isNan, ← Binary64.same_iff, Binary64.same]

end Value

theorem SealedSet.sizeOf_lt_of_mem {s : SealedSet Rule Value} {x : Value} (h : x ∈ s.elements) :
    sizeOf x < sizeOf (Value.set s) := by
  cases s with
  | empty => simp [elements] at h
  | singleton ref rule y k =>
      obtain rfl := List.mem_singleton.mp h
      simp
      omega
  | table ref rule t =>
      have hmem := Array.sizeOf_lt_of_mem (by simpa [elements] using h)
      obtain ⟨elements, slots, k⟩ := t
      simp at hmem ⊢
      omega

/-- The rule of a set; a set without elements needs none. -/
def SealedSet.ruleOf (s : SealedSet Rule Value) : Rule := s.rule?.getD .natural

theorem SealedSet.ruleOf_eq {s t : SealedSet Rule Value} (h : s.rule? = t.rule?) :
    s.ruleOf = t.ruleOf := by
  rw [ruleOf, ruleOf, h]

/-- Whether two values are the same or, under the natural rule, sets of one rule with alike
elements. -/
def Value.alike (a : Value) (rule : Rule) (b : Value) : Bool :=
  match a, rule, b with
  | .set s, .natural, .set t =>
    s.ref == t.ref || s.rule? == t.rule? &&
      (s.elements.attach.all fun x => t.elements.any fun y => x.1.alike s.ruleOf y) &&
      t.elements.all fun y => s.elements.attach.any fun x => x.1.alike s.ruleOf y
  | a, _, b => a.same b
termination_by sizeOf a
decreasing_by all_goals exact SealedSet.sizeOf_lt_of_mem x.2

namespace Value

variable {a b v : Value} {s t : SealedSet Rule Value} {rule : Rule}

theorem alike_set_iff : (set s).alike .natural (set t) ↔ s.ref = t.ref ∨ s.rule? = t.rule? ∧
    Covered (fun x y => x.alike s.ruleOf y) s.elements t.elements ∧
      ∀ y ∈ t.elements, ∃ x ∈ s.elements, x.alike s.ruleOf y := by
  rw [alike]
  simp [Covered, and_assoc]

/-- Only the natural rule looks into sets, and only into two of them. -/
theorem alike_cases (a : Value) (rule : Rule) (b : Value) :
    (∃ s t, a = set s ∧ rule = .natural ∧ b = set t) ∨ a.alike rule b = a.same b := by
  rw [alike.eq_def]
  split
  · next s t => exact Or.inl ⟨s, t, rfl, rfl, rfl⟩
  · exact Or.inr rfl

theorem alike_of_mark_eq (rule : Rule) (h : a.mark = b.mark) : a.alike rule b := by
  obtain ⟨s, t, rfl, rfl, rfl⟩ | hsame := a.alike_cases rule b
  · exact alike_set_iff.mpr (Or.inl (by simpa [mark] using h))
  · rw [hsame]
    exact same_iff.mpr h

@[simp] theorem alike_identity (a b : Value) : a.alike .identity b = a.same b := by
  obtain ⟨s, t, -, hrule, -⟩ | hsame := a.alike_cases .identity b
  · cases hrule
  · exact hsame

end Value

/-- What is neither a symbol nor a set. -/
def Ref.isObject : Ref → Bool
  | object _ | shared _ | ancestor => true
  | _ => false

/-- A set without elements is the one empty set, and any other has a number. -/
def SealedSet.Numbered {ρ α : Type} (s : SealedSet ρ α) : Prop := s = .empty ∨ ∃ n, s.ref = .set n

/-- A value that is neither missing nor a set, and has no equality of its own. Symbols have the
descriptions that they were made with. -/
inductive Value.Flat (describe : ℕ → Option Text) : Value → Prop
  | boolean (b : Bool) : Flat describe (.boolean b)
  | number (x : Binary64) : Flat describe (.number x)
  | text (t : Text) : Flat describe (.text t)
  | bigint (n : ℤ) : Flat describe (.bigint n)
  | symbol (n : ℕ) : Flat describe (.symbol (.symbol n) (describe n))
  | object {ref : Ref} {shape : Shape Value} (href : ref.isObject)
      (own : (Value.object ref shape).hasOwnEquality = false) : Flat describe (.object ref shape)

/-- The flat values and the sets of `made`. -/
def Known (describe : ℕ → Option Text) (made : List (SealedSet Rule Value)) : Set Value :=
  {v | v.Flat describe ∨ ∃ s ∈ made, v = .set s}

inductive Rule.Standard : Rule → Prop
  | natural : Standard .natural
  | identity : Standard .identity

section Hashing

variable {describe : ℕ → Option Text} {a b v : Value} {s t : SealedSet Rule Value}

/-- Of all numbers, only the two zeros share a place, and they share a hash code. -/
theorem HashCode.ofNumber_eq_of_place? {x y : Binary64} (h : x.place? = y.place?) :
    ofNumber x = ofNumber y := by
  have hzero : ofNumber (.signed true ⟨0, by omega⟩) = ofNumber (.signed false ⟨0, by omega⟩) := by
    decide
  rcases x with _ | ⟨p, i, hi⟩ <;> rcases y with _ | ⟨q, j, hj⟩
  · rfl
  · cases h
  · cases h
  · have hplace : i = j ∧ (p = q ∨ i = 0) := by
      cases p <;> cases q <;> simp [Binary64.place?] at h ⊢ <;> omega
    obtain ⟨rfl, rfl | rfl⟩ := hplace
    · rfl
    · cases p <;> cases q
      · rfl
      · exact hzero.symm
      · exact hzero
      · rfl

namespace Value

theorem settles_plainHash (v : Value) : v.plainHash.Settles := by
  cases v with
  | object ref shape => exact Action.settles_identityCode ref
  | set s => exact Action.settles_identityCode s.ref
  | _ => exact Action.settles_pure _

namespace Flat

theorem ownHash_eq (h : v.Flat describe) : v.ownHash = v.plainHash := by
  cases h with
  | @object ref shape href own =>
      cases shape with
      | record fields => exact if_neg (by simp [own])
      | money currency cents => cases own
      | scripted script => cases own
      | _ => rfl
  | _ => rfl

theorem ownEqual_eq (h : v.Flat describe) (b : Value) : v.ownEqual b = pure (v.same b) := by
  have hown : v.hasOwnEquality = false := by
    cases h with
    | object href own => exact own
    | _ => rfl
  unfold ownEqual
  split
  · cases hown
  · cases hown
  · rw [hown]
    rfl

/-- A flat value has the identity of no set. -/
theorem mark_ne_set (h : v.Flat describe) (hs : s.Numbered) : v.mark ≠ (set s).mark := by
  intro hmark
  have href : s.ref = .emptySet ∨ ∃ n, s.ref = .set n :=
    hs.imp_left fun (hempty : s = .empty) => by rw [hempty]; rfl
  cases h with
  | symbol n =>
      rw [← Mark.identity.inj hmark] at href
      simp at href
  | object hobject _ =>
      rw [Mark.identity.inj hmark] at hobject
      obtain href | ⟨n, href⟩ := href <;> rw [href] at hobject <;> cases hobject
  | _ => cases hmark

theorem plainHash_eq (ha : a.Flat describe) (hb : b.Flat describe) (h : a.mark = b.mark) :
    a.plainHash = b.plainHash := by
  cases ha <;> cases hb <;> simp [mark] at h <;> simp [plainHash, h]
  · rw [HashCode.ofNumber_eq_of_place? h]
  · rename_i href _
    simp [← h, Ref.isObject] at href
  · rename_i href _ _
    simp [h, Ref.isObject] at href

end Flat
end Value

namespace Rule

theorem natural_hash_eq (v : Value) :
    natural.equivalence.hash v = v.ownHash >>= fun k => pure k.toNumber := by
  simp only [equivalence, hash, rawHash, bind_assoc, pure_bind]
  rfl

theorem identity_hash_eq (v : Value) :
    identity.equivalence.hash v = v.plainHash >>= fun k => pure k.toNumber := by
  simp only [equivalence, hash, rawHash, bind_assoc, pure_bind]
  rfl

variable {rule : Rule} {made : List (SealedSet Rule Value)}

theorem settles_hash (hrule : rule.Standard) (hv : v ∈ Known describe made) :
    (rule.equivalence.hash v).Settles := by
  cases hrule with
  | natural =>
      rw [natural_hash_eq]
      refine Action.Settles.map ?_ v.grows_ownHash _
      rcases hv with hv | ⟨s, -, rfl⟩
      · rw [hv.ownHash_eq]
        exact v.settles_plainHash
      · exact Action.settles_pure s.hashCode
  | identity =>
      rw [identity_hash_eq]
      exact v.settles_plainHash.map v.grows_plainHash _

theorem accepts_of_known (hrule : rule.Standard) (hv : v ∈ Known describe made) :
    rule.equivalence.accepts v = pure true := by
  have hpresent : v.isPresent := by
    rcases hv with hv | ⟨s, -, rfl⟩
    · cases hv <;> rfl
    · rfl
  rw [← hpresent]
  cases hrule <;> rfl

/-- Standard rules of one family are one rule, and where a rule is missing both are. -/
theorem eq_of_family {r? r?' : Option Rule} (hr : (r?.getD natural).Standard)
    (hr' : (r?'.getD natural).Standard) (h : r?.map family = r?'.map family) : r? = r?' := by
  rcases r? with _ | rule <;> rcases r?' with _ | rule'
  · rfl
  · cases h
  · cases h
  · rw [Option.getD_some] at hr hr'
    cases hr <;> cases hr'
    · rfl
    · simp [family] at h
    · simp [family] at h
    · rfl

end Rule
end Hashing

section Knowing

variable {describe : ℕ → Option Text} {made : List (SealedSet Rule Value)}
  {s : SealedSet Rule Value}

theorem mem_of_set_known (h : .set s ∈ Known describe made) : s ∈ made := by
  rcases h with hflat | ⟨t, ht, hst⟩
  · cases hflat
  · cases hst
    exact ht

theorem known_append (s : SealedSet Rule Value) :
    Known describe made ⊆ Known describe (made ++ [s]) := by
  rintro v (hv | ⟨t, ht, rfl⟩)
  · exact Or.inl hv
  · exact Or.inr ⟨t, List.mem_append_left [s] ht, rfl⟩

end Knowing
end SealedSets
