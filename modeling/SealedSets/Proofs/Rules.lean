import SealedSets.Proofs.Membership
import SealedSets.Proofs.Requests
import SealedSets.Value.Nesting

/-!
# Rules

All that a rule does to the identity codes is asking for some, whatever values it compares and
hashes, and to whatever depth they are nested. So no rule takes a code back, and an identity code
stays what it was when it was first asked for.
-/
namespace SealedSets

namespace Action

variable {α β : Type} {a : Action α}

theorem keeps_identityCode {P : IdentityCodes → Prop} (hP : IdentityCodes.Lasting P) (ref : Ref) :
    Keeps P (identityCode ref) :=
  fun c hc => hP ref c hc

/-- In every state the action has an answer, which is its answer from then on. -/
def Settles (a : Action α) : Prop := ∀ c, ∃ x d, a c = .ok x d ∧ a.Always d x

theorem settles_pure (x : α) : (pure x : Action α).Settles := fun c => ⟨x, c, rfl, always_pure c x⟩

theorem settles_identityCode (ref : Ref) : (identityCode ref).Settles := by
  intro c
  refine ⟨(c.request ref).1, (c.request ref).2, rfl, fun d hd => ⟨d, ?_⟩⟩
  change (match d.request ref with | (k, e) => EStateM.Result.ok k e) = _
  rw [IdentityCodes.request_of_le hd]

theorem Settles.map (h : a.Settles) (grows : a.Grows) (f : α → β) :
    (a >>= fun x => pure (f x)).Settles := by
  intro c
  obtain ⟨x, d, hx, halways⟩ := h c
  exact ⟨f x, d, bind_of_ok hx, halways.bind grows (always_pure d (f x))⟩

end Action

section Keeping

variable {P : IdentityCodes → Prop}

namespace Value

theorem keeps_plainHash (hP : IdentityCodes.Lasting P) (v : Value) : Keeps P v.plainHash := by
  cases v with
  | object ref shape => exact Action.keeps_identityCode hP ref
  | set s => exact Action.keeps_identityCode hP s.ref
  | _ => exact .pure _

theorem keeps_ownHash (hP : IdentityCodes.Lasting P) (v : Value) : Keeps P v.ownHash := by
  cases v with
  | object ref shape =>
      cases shape with
      | money currency cents => exact .pure _
      | scripted script => exact (Keeps.lift script.hash).bind fun _ => .pure _
      | record fields =>
          change Keeps P (if (object ref (.record fields)).hasOwnEquality then pure 0
            else (object ref (.record fields)).plainHash)
          split
          · exact .pure _
          · exact keeps_plainHash hP _
      | _ => exact Action.keeps_identityCode hP ref
  | _ => exact .pure _

theorem keeps_ownEqual (a b : Value) : Keeps P (a.ownEqual b) := by
  unfold ownEqual
  split
  · exact .pure _
  · exact (Keeps.lift _).bind fun _ => .pure _
  · exact .pure _

theorem grows_plainHash (v : Value) : v.plainHash.Grows :=
  Action.grows_iff.mpr fun b => v.keeps_plainHash (IdentityCodes.lasting_le b)

theorem grows_ownHash (v : Value) : v.ownHash.Grows :=
  Action.grows_iff.mpr fun b => v.keeps_ownHash (IdentityCodes.lasting_le b)

end Value

namespace Scheme

theorem keeps_accepts (v : Value) (scheme : Scheme) : Keeps P (scheme.accepts v) := by
  cases scheme with
  | guarded =>
      change Keeps P (guardedAccepts v)
      unfold guardedAccepts
      split
      · exact .throw _
      · exact .pure _
  | _ => exact .pure _

theorem keeps_agree (ask : Value → Except Failure Value) (a b : Value) :
    Keeps P (agree ask a b) :=
  (Keeps.lift _).bind fun _ => (Keeps.lift _).bind fun _ => .pure _

theorem keeps_equal (a b : Value) (scheme : Scheme) : Keeps P (scheme.equal a b) := by
  cases scheme with
  | byLength | modulo _ | byId => exact keeps_agree _ a b
  | guarded =>
      change Keeps P (guardedEqual a b)
      unfold guardedEqual
      split
      · exact .throw _
      · exact .pure _
  | _ => exact .pure _

theorem keeps_rawHash (v : Value) (scheme : Scheme) : Keeps P (scheme.rawHash v) := by
  cases scheme with
  | byLength | modulo _ | byId => exact .lift _
  | guarded =>
      refine Keeps.bind ?_ fun _ => .pure _
      unfold guardedHash
      split
      · exact .throw _
      · exact .pure _
  | _ => exact .pure _

end Scheme

namespace Rule

theorem keeps_accepts (v : Value) (rule : Rule) : Keeps P (rule.accepts v) := by
  cases rule with
  | custom definition scheme => exact scheme.keeps_accepts v
  | _ => exact .pure _

theorem keeps_rawHash (hP : IdentityCodes.Lasting P) (v : Value) (rule : Rule) :
    Keeps P (rule.rawHash v) := by
  cases rule with
  | identity => exact (v.keeps_plainHash hP).bind fun _ => .pure _
  | custom definition scheme => exact scheme.keeps_rawHash v
  | _ => exact (v.keeps_ownHash hP).bind fun _ => .pure _

theorem keeps_hash (hP : IdentityCodes.Lasting P) (v : Value) (rule : Rule) :
    Keeps P (rule.hash v) :=
  (rule.keeps_rawHash hP v).bind fun _ => .lift _

theorem keeps_flatEqual (a b : Value) (rule : Rule) : Keeps P (rule.flatEqual a b) := by
  cases rule with
  | natural => exact a.keeps_ownEqual b
  | custom definition scheme => exact scheme.keeps_equal a b
  | _ => exact .pure _

end Rule
end Keeping

namespace SealedSet

variable {ρ σ α : Type} {s : SealedSet ρ α} {x : α}

@[simp] theorem rule?_mapRule (f : ρ → σ) (s : SealedSet ρ α) :
    (s.mapRule f).rule? = s.rule?.map f := by
  cases s <;> rfl

theorem rule?_mapRule_eq_some {f : ρ → σ} {r : σ} :
    (s.mapRule f).rule? = some r ↔ ∃ rule, s.rule? = some rule ∧ f rule = r := by
  rw [rule?_mapRule, Option.map_eq_some_iff]

theorem stores_mapRule {f : ρ → σ} (h : (s.mapRule f).Stores x) : s.Stores x := by
  cases s <;> exact h

theorem sizeOf_lt_of_stores {s : SealedSet Rule Value} {x : Value} (h : s.Stores x) :
    sizeOf x < sizeOf (Value.set s) := by
  cases s with
  | empty => exact h.elim
  | singleton ref rule y k =>
      obtain rfl := h
      simp
      omega
  | table ref rule t =>
      obtain ⟨i, hi⟩ := h
      have hmem := Array.sizeOf_lt_of_mem (Array.mem_of_getElem? hi)
      obtain ⟨elements, slots, k⟩ := t
      simp at hmem ⊢
      omega

end SealedSet

namespace Value

/-- Only the natural equality of two sets looks at their elements. -/
theorem equal_cases (a : Value) (rule : Rule) (b : Value) :
    (∃ s t, a = set s ∧ rule = .natural ∧ b = set t) ∨
      (∃ s, a = set s ∧ rule = .natural ∧ (∀ t, b ≠ set t) ∧ a.equal rule b = pure false) ∨
      (∀ s, a = set s → rule ≠ .natural) ∧ a.equal rule b = rule.flatEqual a b := by
  rw [Value.equal.eq_def]
  split
  · next s t => exact Or.inl ⟨s, t, rfl, rfl, rfl⟩
  · next s hb => exact Or.inr (Or.inl ⟨s, rfl, rfl, hb, rfl⟩)
  · next hset _ => exact Or.inr (Or.inr ⟨hset, rfl⟩)

/-- The induction is on how deep the sets are nested. -/
theorem keeps_equal {P : IdentityCodes → Prop} (hP : IdentityCodes.Lasting P) (a : Value)
    (rule : Rule) (b : Value) : Keeps P (a.equal rule b) := by
  induction hn : sizeOf a using Nat.strong_induction_on generalizing a rule b with
  | _ n ih =>
    obtain ⟨s, t, rfl, rfl, rfl⟩ | ⟨-, -, -, -, h⟩ | ⟨-, h⟩ := a.equal_cases rule b
    · change Keeps P (Rule.natural.equivalence.equal (.set s) (.set t))
      rw [Rule.natural_equal_set, SealedSet.equals]
      split
      · exact .pure _
      · refine SealedSet.keeps_containsAll (SealedSet.keeps_contains ?_ ?_ ?_) _
        · intro E hE y
          obtain ⟨rule, -, rfl⟩ := SealedSet.rule?_mapRule_eq_some.mp hE
          exact rule.keeps_accepts y
        · intro E hE y
          obtain ⟨rule, -, rfl⟩ := SealedSet.rule?_mapRule_eq_some.mp hE
          exact rule.keeps_hash hP y
        · intro E hE x hx y
          obtain ⟨rule, -, rfl⟩ := SealedSet.rule?_mapRule_eq_some.mp hE
          have hlt := SealedSet.sizeOf_lt_of_stores (SealedSet.stores_mapRule hx)
          exact ih _ (hn ▸ hlt) x rule y rfl
    · rw [h]
      exact .pure false
    · rw [h]
      exact rule.keeps_flatEqual a b

end Value

/-- All that a rule does to the codes is asking for some. -/
theorem Rule.keeps {P : IdentityCodes → Prop} (hP : IdentityCodes.Lasting P) (rule : Rule) :
    rule.equivalence.Keeps P where
  accepts := rule.keeps_accepts
  equal a b := a.keeps_equal hP rule b
  hash := rule.keeps_hash hP

theorem Rule.grows (rule : Rule) : rule.equivalence.Grows :=
  Matching.grows_iff.mpr fun b => rule.keeps (IdentityCodes.lasting_le b)

end SealedSets
