import SealedSets.Equivalence

/-!
# What a computation keeps

A computation keeps an invariant if it holds after the computation wherever it held before, also
where the computation fails. What is put together of computations keeps what each of them keeps.
-/
namespace SealedSets

variable {α β σ : Type} {P : σ → Prop}

/-- Whether it succeeds or fails, the computation leaves the invariant true. -/
def Keeps (P : σ → Prop) (a : EStateM Failure σ α) : Prop :=
  ∀ s, P s → match a s with
    | .ok _ t | .error _ t => P t

namespace Keeps

variable {a : EStateM Failure σ α} {f : α → EStateM Failure σ β} {s t : σ} {x : α}

theorem of_ok (h : Keeps P a) (hs : P s) (ha : a s = .ok x t) : P t := by
  have ht := h s hs
  rwa [ha] at ht

theorem of_error {failure : Failure} (h : Keeps P a) (hs : P s) (ha : a s = .error failure t) :
    P t := by
  have ht := h s hs
  rwa [ha] at ht

theorem pure (x : α) : Keeps P (Pure.pure x : EStateM Failure σ α) := fun _ hs => hs

theorem throw (failure : Failure) :
    Keeps P (MonadExcept.throw failure : EStateM Failure σ α) := fun _ hs => hs

theorem lift (r : Except Failure α) : Keeps P (liftM r : EStateM Failure σ α) := by
  cases r with
  | error failure => exact throw failure
  | ok x => exact pure x

theorem get : Keeps P (MonadState.get : EStateM Failure σ σ) := fun _ hs => hs

theorem modify {g : σ → σ} (h : ∀ s, P s → P (g s)) :
    Keeps P (modify g : EStateM Failure σ PUnit) := h

theorem bind (ha : Keeps P a) (hf : ∀ x, Keeps P (f x)) : Keeps P (a >>= f) := by
  intro s hs
  have ht := ha s hs
  change match EStateM.bind a f s with
    | .ok _ t | .error _ t => P t
  unfold EStateM.bind
  cases h : a s with
  | error failure t =>
      rw [h] at ht
      exact ht
  | ok x t =>
      rw [h] at ht
      exact hf x t ht

theorem discard (ha : Keeps P a) : Keeps P (Functor.discard a) := by
  change Keeps P (Function.const α PUnit.unit <$> a)
  rw [map_eq_pure_bind]
  exact ha.bind fun _ => pure _

theorem tryCatch {g : Failure → EStateM Failure σ α} (ha : Keeps P a)
    (hg : ∀ failure, Keeps P (g failure)) : Keeps P (MonadExcept.tryCatch a g) := by
  intro s hs
  have ht := ha s hs
  change match EStateM.tryCatch a g s with
    | .ok _ t | .error _ t => P t
  unfold EStateM.tryCatch
  cases h : a s with
  | ok x t =>
      rw [h] at ht
      exact ht
  | error failure t =>
      rw [h] at ht
      exact hg failure t ht

theorem mapM {γ : Type} {g : γ → EStateM Failure σ α} (h : ∀ x, Keeps P (g x)) (xs : List γ) :
    Keeps P (xs.mapM g) := by
  induction xs with
  | nil =>
      rw [List.mapM_nil]
      exact pure []
  | cons x xs ih =>
      rw [List.mapM_cons]
      exact (h x).bind fun y => ih.bind fun ys => pure (y :: ys)

end Keeps

theorem Keeps.orFalse {P : IdentityCodes → Prop} {test : Action Bool} (h : Keeps P test) :
    Keeps P test.orFalse :=
  h.tryCatch fun _ => pure false

end SealedSets
