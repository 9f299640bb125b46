import Mathlib.Data.Set.Basic
import Mathlib.Order.Basic
import SealedSets.Proofs.Keeping

/-!
# Answers that stay what they are

Asking an equivalence may number objects, so every answer comes with the identity codes that it
leaves. Codes are never taken back: `c ≤ d` says that `d` may come after `c`. An equivalence is
steady from `c` on if in every later state it compares alike and hashes a value as it did before.
-/
namespace SealedSets

/-- Later codes number the same objects first. -/
instance : Preorder IdentityCodes where
  le c d := c.requested <+: d.requested
  le_refl _ := List.prefix_rfl
  le_trans _ _ _ := List.IsPrefix.trans

namespace Action

variable {α β : Type} {a : Action α} {f : α → Action β} {c d e : IdentityCodes} {x : α} {y : β}

@[simp] theorem pure_eq_ok {x' : α} :
    (pure x : Action α) c = .ok x' d ↔ x = x' ∧ c = d := by
  change EStateM.Result.ok x c = .ok x' d ↔ _
  simp

theorem bind_eq_ok :
    (a >>= f) c = .ok y e ↔ ∃ x d, a c = .ok x d ∧ f x d = .ok y e := by
  change EStateM.bind a f c = .ok y e ↔ _
  unfold EStateM.bind
  cases h : a c <;> simp [and_assoc]

theorem bind_of_ok (h : a c = .ok x d) : (a >>= f) c = f x d := by
  change EStateM.bind a f c = f x d
  rw [EStateM.bind, h]

theorem bind_of_error {failure : Failure} (h : a c = .error failure d) :
    (a >>= f) c = .error failure d := by
  change EStateM.bind a f c = .error failure d
  rw [EStateM.bind, h]

@[simp] theorem lift_ok_bind (x : α) (f : α → Action β) :
    ((liftM (.ok x : Except Failure α) : Action α) >>= f) = f x := rfl

@[simp] theorem lift_error_bind (failure : Failure) (f : α → Action β) :
    ((liftM (.error failure : Except Failure α) : Action α) >>= f) = throw failure := rfl

@[simp] theorem lift_eq_ok {r : Except Failure α} :
    (liftM r : Action α) c = .ok x d ↔ r = .ok x ∧ c = d := by
  cases r with
  | error failure =>
      constructor
      · intro h
        cases h
      · rintro ⟨h, -⟩
        cases h
  | ok x' =>
      change EStateM.Result.ok x' c = .ok x d ↔ _
      simp

/-- Whether it succeeds or fails, the action takes no code back. -/
def Grows (a : Action α) : Prop :=
  ∀ c, match a c with
    | .ok _ d | .error _ d => c ≤ d

theorem Grows.le (ha : a.Grows) (h : a c = .ok x d) : c ≤ d := by
  have hc := ha c
  rwa [h] at hc

/-- An action takes no code back if it keeps every lower bound of the codes. -/
theorem grows_iff : a.Grows ↔ ∀ b, Keeps (b ≤ ·) a := by
  constructor
  · intro ha b c hbc
    have hc := ha c
    cases h : a c <;> rw [h] at hc <;> exact hbc.trans hc
  · intro ha c
    cases h : a c with
    | ok x d => exact (ha c).of_ok le_rfl h
    | error failure d => exact (ha c).of_error le_rfl h

theorem grows_pure (x : α) : (pure x : Action α).Grows := grows_iff.mpr fun _ => .pure x

theorem grows_lift (r : Except Failure α) : (liftM r : Action α).Grows :=
  grows_iff.mpr fun _ => .lift r

theorem Grows.bind (ha : a.Grows) (hf : ∀ x, (f x).Grows) : (a >>= f).Grows :=
  grows_iff.mpr fun b => (grows_iff.mp ha b).bind fun x => grows_iff.mp (hf x) b

/-- In every state from `c` on, the action answers `x`. -/
def Always (a : Action α) (c : IdentityCodes) (x : α) : Prop :=
  ∀ d, c ≤ d → ∃ e, a d = .ok x e

theorem always_pure (c : IdentityCodes) (x : α) : (pure x : Action α).Always c x :=
  fun d _ => ⟨d, rfl⟩

theorem Always.mono (h : a.Always c x) (hcd : c ≤ d) : a.Always d x :=
  fun e hde => h e (hcd.trans hde)

theorem Always.eq {x' : α} (h : a.Always c x) (hcd : c ≤ d) (h' : a d = .ok x' e) : x' = x := by
  obtain ⟨e', he⟩ := h d hcd
  rw [he] at h'
  cases h'
  rfl

theorem Always.bind (ha : a.Always c x) (grows : a.Grows) (hf : (f x).Always c y) :
    (a >>= f).Always c y := by
  intro d hd
  obtain ⟨e, he⟩ := ha d hd
  obtain ⟨e', he'⟩ := hf e (hd.trans (grows.le he))
  exact ⟨e', bind_eq_ok.mpr ⟨x, e, he, he'⟩⟩

theorem orFalse_of_ok {test : Action Bool} {answer : Bool} (h : test c = .ok answer d) :
    test.orFalse c = .ok answer d := by
  change EStateM.tryCatch test _ c = _
  rw [EStateM.tryCatch, h]

theorem orFalse_of_error {test : Action Bool} {failure : Failure}
    (h : test c = .error failure d) : test.orFalse c = .ok false d := by
  change EStateM.tryCatch test _ c = _
  rw [EStateM.tryCatch, h]
  rfl

/-- A test that may fail is answered all the same, and only a test that succeeds with yes. -/
theorem exists_orFalse (test : Action Bool) (c : IdentityCodes) :
    ∃ answer d, test.orFalse c = .ok answer d ∧ (answer = true ↔ test c = .ok true d) := by
  cases h : test c with
  | ok answer d =>
      refine ⟨answer, d, orFalse_of_ok h, ?_⟩
      simp
  | error failure d =>
      refine ⟨false, d, orFalse_of_error h, ?_⟩
      simp

theorem Always.orFalse {test : Action Bool} {answer : Bool} (h : test.Always c answer) :
    test.orFalse.Always c answer := by
  intro d hd
  obtain ⟨e, he⟩ := h d hd
  exact ⟨e, orFalse_of_ok he⟩

end Action

namespace Matching

variable {α β : Type}

/-- None of the three operations takes a code back. -/
structure Grows (E : Matching β α) : Prop where
  accepts : ∀ x, (E.accepts x).Grows
  equal : ∀ x y, (E.equal x y).Grows
  hash : ∀ x, (E.hash x).Grows

/-- All three operations keep an invariant. -/
structure Keeps (P : IdentityCodes → Prop) (E : Matching β α) : Prop where
  accepts : ∀ x, SealedSets.Keeps P (E.accepts x)
  equal : ∀ x y, SealedSets.Keeps P (E.equal x y)
  hash : ∀ x, SealedSets.Keeps P (E.hash x)

theorem Keeps.code {P : IdentityCodes → Prop} {E : Matching β α} (h : E.Keeps P) (x : α) :
    SealedSets.Keeps P (E.code x) :=
  (h.hash x).bind fun _ => .pure _

theorem grows_iff {E : Matching β α} : E.Grows ↔ ∀ b, E.Keeps (b ≤ ·) := by
  constructor
  · intro h b
    exact ⟨fun x => Action.grows_iff.mp (h.accepts x) b,
      fun x y => Action.grows_iff.mp (h.equal x y) b, fun x => Action.grows_iff.mp (h.hash x) b⟩
  · intro h
    exact ⟨fun x => Action.grows_iff.mpr fun b => (h b).accepts x,
      fun x y => Action.grows_iff.mpr fun b => (h b).equal x y,
      fun x => Action.grows_iff.mpr fun b => (h b).hash x⟩

theorem Grows.code {E : Matching β α} (grows : E.Grows) (x : α) : (E.code x).Grows :=
  (grows.hash x).bind fun _ => Action.grows_pure _

/-- From the codes `c` on, a value has this hash code. -/
def HasCode (E : Matching β α) (c : IdentityCodes) (x : α) (k : HashCode) : Prop :=
  (E.code x).Always c k

/-- Between the codes `b` and `c`, a value was given this hash code. -/
def Gave (E : Matching β α) (b c : IdentityCodes) (x : α) (k : HashCode) : Prop :=
  ∃ d e, b ≤ d ∧ e ≤ c ∧ E.code x d = .ok k e

theorem HasCode.unique {E : Matching β α} {c : IdentityCodes} {x : α} {k k' : HashCode}
    (h : E.HasCode c x k) (h' : E.HasCode c x k') : k = k' := by
  obtain ⟨d, hd⟩ := h c le_rfl
  exact h'.eq le_rfl hd

theorem Gave.mono {E : Matching β α} {b c d : IdentityCodes} {x : α} {k : HashCode}
    (h : E.Gave b c x k) (hcd : c ≤ d) : E.Gave b d x k := by
  obtain ⟨e, f, hb, hc, hx⟩ := h
  exact ⟨e, f, hb, hc.trans hcd, hx⟩

end Matching

namespace Equivalence

variable {α : Type}

/-- From the codes `c` on, the values of `S` are compared by `eq`. What hash code one of them is
given it keeps, and all that it is equal to have the same. -/
structure Steady (E : Equivalence α) (c : IdentityCodes) (S : Set α) (eq : α → α → Bool) :
    Prop where
  grows : E.Grows
  equal : ∀ x ∈ S, ∀ y ∈ S, (E.equal x y).Always c (eq x y)
  code : ∀ x ∈ S, ∀ d, c ≤ d → ∃ k e, E.code x d = .ok k e ∧ E.HasCode e x k
  agree : ∀ x ∈ S, ∀ y ∈ S, eq x y → ∀ d, c ≤ d → ∀ k, E.HasCode d x k → E.HasCode d y k

variable {E : Equivalence α} {b c d : IdentityCodes} {S : Set α} {eq : α → α → Bool} {x : α}
  {k : HashCode}

theorem Steady.mono (h : E.Steady c S eq) (hcd : c ≤ d) : E.Steady d S eq where
  grows := h.grows
  equal x hx y hy := (h.equal x hx y hy).mono hcd
  code x hx e hde := h.code x hx e (hcd.trans hde)
  agree x hx y hy hxy e hde := h.agree x hx y hy hxy e (hcd.trans hde)

theorem Steady.of_subset {T : Set α} (h : E.Steady c S eq) (hTS : T ⊆ S) : E.Steady c T eq where
  grows := h.grows
  equal x hx y hy := h.equal x (hTS hx) y (hTS hy)
  code x hx := h.code x (hTS hx)
  agree x hx y hy := h.agree x (hTS hx) y (hTS hy)

/-- A hash code that was given once is given in every later state. -/
theorem Steady.hasCode (h : E.Steady b S eq) (hx : x ∈ S) (hk : E.Gave b c x k) :
    E.HasCode c x k := by
  obtain ⟨d, e, hd, he, hx'⟩ := hk
  obtain ⟨k', e', hk', hkeep⟩ := h.code x hx d hd
  rw [hx'] at hk'
  cases hk'
  exact hkeep.mono he

variable {accepts : α → Bool} {equal : α → α → Bool} {hash : α → Binary64} {family : ℕ}

@[simp] theorem code_ofPure (x : α) :
    (ofPure accepts equal hash family).code x = pure (hash x).toHashCode := rfl

theorem grows_ofPure : (ofPure accepts equal hash family).Grows where
  accepts _ := Action.grows_pure _
  equal _ _ := Action.grows_pure _
  hash _ := Action.grows_pure _

theorem gave_ofPure (h : (ofPure accepts equal hash family).Gave b c x k) :
    k = (hash x).toHashCode := by
  obtain ⟨d, e, -, -, hx⟩ := h
  rw [code_ofPure, Action.pure_eq_ok] at hx
  exact hx.1.symm

/-- An equivalence that numbers no objects. What it is asked for may have no answer. -/
def ofPartial (accepts : α → Except Failure Bool) (equal : α → α → Except Failure Bool)
    (hash : α → Except Failure Binary64) (family : ℕ) : Equivalence α where
  accepts x := liftM (accepts x)
  equal x y := liftM (equal x y)
  hash x := liftM (hash x)
  family := family

section Partial

variable {accepts : α → Except Failure Bool} {equal : α → α → Except Failure Bool}
  {hash : α → Except Failure Binary64}

theorem grows_ofPartial : (ofPartial accepts equal hash family).Grows where
  accepts _ := Action.grows_lift _
  equal _ _ := Action.grows_lift _
  hash _ := Action.grows_lift _

theorem gave_ofPartial (h : (ofPartial accepts equal hash family).Gave b c x k) :
    (hash x).map Binary64.toHashCode = .ok k := by
  obtain ⟨d, e, -, -, hx⟩ := h
  rw [Matching.code, Action.bind_eq_ok] at hx
  obtain ⟨y, e', hy, hk⟩ := hx
  obtain ⟨hy, -⟩ := Action.lift_eq_ok.mp hy
  obtain ⟨rfl, -⟩ := Action.pure_eq_ok.mp hk
  rw [hy]
  rfl

end Partial

/-- Without effects, only equal values with different hash codes can make an equivalence
unsteady. -/
theorem steady_ofPure (law : ∀ x y, equal x y → (hash x).toHashCode = (hash y).toHashCode)
    (c : IdentityCodes) : (ofPure accepts equal hash family).Steady c Set.univ equal where
  grows := grows_ofPure
  equal _ _ _ _ := Action.always_pure _ _
  code x _ d _ := ⟨(hash x).toHashCode, d, rfl, Action.always_pure _ _⟩
  agree x _ y _ hxy d _ k hk := by
    have hkx : (hash x).toHashCode = k := hk.eq le_rfl rfl
    rw [← hkx, law x y hxy]
    exact Action.always_pure _ _

end Equivalence
end SealedSets
