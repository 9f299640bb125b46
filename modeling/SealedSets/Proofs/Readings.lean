import SealedSets.Proofs.Outlines
import SealedSets.Session.Source

/-!
# Two readings side by side

Two runs of one program start with different hash codes, so they make different sets, of one
outline. What is read in both is again of one outline, or both readings fail in one way.
-/
namespace SealedSets

section Coupling

variable {α α' β β' σ : Type} {P Q : σ → σ → Prop} {R : α → β → Prop} {R' : α' → β' → Prop}

/-- Both succeed with related answers, or both fail with one failure. -/
def Agree (R : α → β → Prop) : Except Failure α → Except Failure β → Prop
  | .ok x, .ok y => R x y
  | .error failure, .error failure' => failure = failure'
  | _, _ => False

theorem Agree.refl {R : α → α → Prop} {r : Except Failure α} (h : ∀ x, r = .ok x → R x x) :
    Agree R r r := by
  cases r with
  | ok x => exact h x rfl
  | error failure => exact rfl

/-- Started in states related by `P`, both computations end in states related by `Q`. -/
def Coupled (P Q : σ → σ → Prop) (R : α → β → Prop) (a : EStateM Failure σ α)
    (b : EStateM Failure σ β) : Prop :=
  ∀ s t, P s t → match a s, b t with
    | .ok x s', .ok y t' => R x y ∧ Q s' t'
    | .error failure s', .error failure' t' => failure = failure' ∧ Q s' t'
    | _, _ => False

namespace Coupled

variable {a : EStateM Failure σ α} {b : EStateM Failure σ β}

theorem pure {x : α} {y : β} (h : R x y) : Coupled P P R (Pure.pure x) (Pure.pure y) :=
  fun _ _ hst => ⟨h, hst⟩

theorem lift {r : Except Failure α} {r' : Except Failure β} (h : Agree R r r') :
    Coupled P P R (liftM r) (liftM r') := by
  cases r <;> cases r'
  · exact fun _ _ hst => ⟨h, hst⟩
  · exact h.elim
  · exact h.elim
  · exact fun _ _ hst => ⟨h, hst⟩

theorem get : Coupled P P P (MonadState.get : EStateM Failure σ σ) MonadState.get :=
  fun _ _ hst => ⟨hst, hst⟩

theorem modify {f g : σ → σ} (h : ∀ s t, P s t → Q (f s) (g t)) :
    Coupled P Q (fun _ _ => True) (modify f : EStateM Failure σ PUnit)
      (modify g : EStateM Failure σ PUnit) :=
  fun s t hst => ⟨trivial, h s t hst⟩

theorem mono {P' Q' : σ → σ → Prop} {S : α → β → Prop} (h : Coupled P Q R a b)
    (hP : ∀ s t, P' s t → P s t) (hQ : ∀ s t, Q s t → Q' s t) (hR : ∀ x y, R x y → S x y) :
    Coupled P' Q' S a b := by
  intro s t hst
  have hend := h s t (hP s t hst)
  revert hend
  cases a s <;> cases b t
  · exact fun h => ⟨hR _ _ h.1, hQ _ _ h.2⟩
  · exact False.elim
  · exact False.elim
  · exact fun h => ⟨h.1, hQ _ _ h.2⟩

/-- Where the first halves fail, `Q` holds as well. -/
theorem bind {f : α → EStateM Failure σ α'} {g : β → EStateM Failure σ β'}
    (h : Coupled P P R a b) (hPQ : ∀ s t, P s t → Q s t)
    (hf : ∀ x y, R x y → Coupled P Q R' (f x) (g y)) : Coupled P Q R' (a >>= f) (b >>= g) := by
  intro s t hst
  have hend := h s t hst
  change match EStateM.bind a f s, EStateM.bind b g t with
    | .ok x s', .ok y t' => R' x y ∧ Q s' t'
    | .error failure s', .error failure' t' => failure = failure' ∧ Q s' t'
    | _, _ => False
  unfold EStateM.bind
  revert hend
  cases a s <;> cases b t
  · exact fun h => hf _ _ h.1 _ _ h.2
  · exact False.elim
  · exact False.elim
  · exact fun h => ⟨h.1, hPQ _ _ h.2⟩

theorem bindSame {f : α → EStateM Failure σ α'} {g : β → EStateM Failure σ β'}
    (h : Coupled P P R a b) (hf : ∀ x y, R x y → Coupled P P R' (f x) (g y)) :
    Coupled P P R' (a >>= f) (b >>= g) :=
  h.bind (fun _ _ hst => hst) hf

/-- The answers are related, and what holds of every answer of either computation holds of them. -/
theorem and {A : α → Prop} {B : β → Prop} (h : Coupled P Q R a b)
    (hA : ∀ s x s', a s = .ok x s' → A x) (hB : ∀ t y t', b t = .ok y t' → B y) :
    Coupled P Q (fun x y => R x y ∧ A x ∧ B y) a b := by
  intro s t hst
  have hend := h s t hst
  revert hend
  cases ha : a s <;> cases hb : b t
  · exact fun h => ⟨⟨h.1, hA _ _ _ ha, hB _ _ _ hb⟩, h.2⟩
  · exact False.elim
  · exact False.elim
  · exact id

theorem mapM {γ : Type} {xs : List γ} {f : γ → EStateM Failure σ α} {g : γ → EStateM Failure σ β}
    (h : ∀ x ∈ xs, Coupled P P R (f x) (g x)) :
    Coupled P P (List.Forall₂ R) (xs.mapM f) (xs.mapM g) := by
  induction xs with
  | nil =>
      rw [List.mapM_nil, List.mapM_nil]
      exact pure .nil
  | cons x xs ih =>
      obtain ⟨hx, hxs⟩ := List.forall_mem_cons.mp h
      rw [List.mapM_cons, List.mapM_cons]
      exact hx.bindSame fun _ _ hxy => (ih hxs).bindSame fun _ _ hl => pure (.cons hxy hl)

end Coupled
end Coupling

section Twins

variable {α β : Type} {describe : ℕ → Option Text} {made made' : List (SealedSet Rule Value)}
  {v w : Value} {s t : SealedSet Rule Value}

/-- A value that is missing or known. -/
def Readable (describe : ℕ → Option Text) (made : List (SealedSet Rule Value)) (v : Value) : Prop :=
  ∀ w, v.present? = some w → w ∈ Known describe made

theorem readable_of_known (h : v ∈ Known describe made) : Readable describe made v := by
  intro w hw
  have hvw : v = w := by
    cases v <;> simp [Value.present?] at hw <;> exact hw
  exact hvw ▸ h

theorem readable_of_flat (h : v.Flat describe) : Readable describe made v :=
  readable_of_known (Or.inl h)

/-- Values of one outline, the first for the sets of one history and the second for those of
another. -/
structure Value.Twins (describe : ℕ → Option Text) (made made' : List (SealedSet Rule Value))
    (v w : Value) : Prop where
  outline : v.outline = w.outline
  left : Readable describe made v
  right : Readable describe made' w

theorem Value.Flat.twins (h : v.Flat describe) : v.Twins describe made made' v :=
  ⟨rfl, readable_of_flat h, readable_of_flat h⟩

theorem forall₂_twins_of_flat {vs : List Value} (h : ∀ v ∈ vs, v.Flat describe) :
    List.Forall₂ (Value.Twins describe made made') vs vs :=
  List.forall₂_same.mpr fun v hv => (h v hv).twins

theorem map_eq_map_iff_forall₂ {γ : Type} {f : α → γ} {g : β → γ} {xs : List α} {ys : List β} :
    xs.map f = ys.map g ↔ List.Forall₂ (fun x y => f x = g y) xs ys := by
  rw [← List.forall₂_eq_eq_eq, List.forall₂_map_left_iff, List.forall₂_map_right_iff]

theorem map_outline_eq {vs ws : List Value}
    (h : List.Forall₂ (Value.Twins describe made made') vs ws) :
    vs.map Value.outline = ws.map Value.outline :=
  map_eq_map_iff_forall₂.mpr (h.imp fun _ _ hvw => hvw.outline)

theorem readable_of_twins {vs ws : List Value}
    (h : List.Forall₂ (Value.Twins describe made made') vs ws) :
    (∀ v ∈ vs, Readable describe made v) ∧ ∀ w ∈ ws, Readable describe made' w := by
  induction h with
  | nil => simp
  | cons hvw _ ih =>
      exact ⟨List.forall_mem_cons.mpr ⟨hvw.left, ih.1⟩, List.forall_mem_cons.mpr ⟨hvw.right, ih.2⟩⟩

theorem Value.Twins.append (h : v.Twins describe made made' w) (s t : SealedSet Rule Value) :
    v.Twins describe (made ++ [s]) (made' ++ [t]) w where
  outline := h.outline
  left x hx := known_append s (h.left x hx)
  right x hx := known_append t (h.right x hx)

theorem map_outline_eq_of_fields {fields fields' : List (Text × Value)}
    (h : List.Forall₂ (fun p q => p.1 = q.1 ∧ p.2.Twins describe made made' q.2) fields fields') :
    (fields.map fun field => (field.1, field.2.outline)) =
      fields'.map fun field => (field.1, field.2.outline) :=
  map_eq_map_iff_forall₂.mpr (h.imp fun _ _ hpq => Prod.ext hpq.1 hpq.2.outline)

structure SealedSet.Twins (made made' : List (SealedSet Rule Value)) (s t : SealedSet Rule Value) :
    Prop where
  outline : s.outline Value.outline = t.outline Value.outline
  left : s ∈ made
  right : t ∈ made'

theorem SealedSet.Twins.append (h : s.Twins made made' t) (x y : SealedSet Rule Value) :
    s.Twins (made ++ [x]) (made' ++ [y]) t where
  outline := h.outline
  left := List.mem_append_left [x] h.left
  right := List.mem_append_left [y] h.right

theorem SealedSet.Twins.value (h : s.Twins made made' t) :
    (Value.set s).Twins describe made made' (.set t) where
  outline := by rw [Value.outline_set, Value.outline_set, h.outline]
  left := readable_of_known (Or.inr ⟨s, h.left, rfl⟩)
  right := readable_of_known (Or.inr ⟨t, h.right, rfl⟩)

/-- The elements of every set are known. -/
def Closed (describe : ℕ → Option Text) (made : List (SealedSet Rule Value)) : Prop :=
  ∀ s ∈ made, ∀ x ∈ s.elements, x ∈ Known describe made

theorem SealedSet.Twins.elements (h : s.Twins made made' t) (closed : Closed describe made)
    (closed' : Closed describe made') :
    List.Forall₂ (Value.Twins describe made made') s.elements t.elements := by
  have houtline : s.elements.map Value.outline = t.elements.map Value.outline := by
    rw [← SealedSet.elements_outline, ← SealedSet.elements_outline, h.outline]
  have hforall := map_eq_map_iff_forall₂.mp houtline
  rw [List.forall₂_iff_zip] at hforall ⊢
  refine ⟨hforall.1, fun hxy => ?_⟩
  obtain ⟨hx, hy⟩ := List.of_mem_zip hxy
  exact ⟨hforall.2 hxy, readable_of_known (closed s h.left _ hx),
    readable_of_known (closed' t h.right _ hy)⟩

/-- Bound to one name, related. -/
def Named (R : α → β → Prop) (p : String × α) (q : String × β) : Prop := p.1 = q.1 ∧ R p.2 q.2

theorem map_outline_eq_of_named {ps qs : List (String × SealedSet Rule Value)}
    (h : List.Forall₂ (Named (SealedSet.Twins made made')) ps qs) :
    (ps.map fun p => (p.1, p.2.outline Value.outline)) =
      qs.map fun q => (q.1, q.2.outline Value.outline) :=
  map_eq_map_iff_forall₂.mpr (h.imp fun _ _ hpq => Prod.ext hpq.1 hpq.2.outline)

structure Bindings.Twins (describe : ℕ → Option Text) (made made' : List (SealedSet Rule Value))
    (b b' : Bindings) : Prop where
  sets : List.Forall₂ (Named (SealedSet.Twins made made')) b.sets b'.sets
  values : List.Forall₂ (Named (Value.Twins describe made made')) b.values b'.values
  arrays : b.arrays = []
  arrays' : b'.arrays = []

/-- Two more sets of one outline, bound to one name. -/
theorem Bindings.Twins.assign {b b' : Bindings} (h : b.Twins describe made made' b') (name : String)
    (houtline : s.outline Value.outline = t.outline Value.outline) :
    ({ b with sets := SealedSets.assign name s b.sets } : Bindings).Twins describe (made ++ [s])
      (made' ++ [t]) { b' with sets := SealedSets.assign name t b'.sets } where
  sets := by
    have hsets :
        List.Forall₂ (Named (SealedSet.Twins (made ++ [s]) (made' ++ [t]))) b.sets b'.sets :=
      h.sets.imp fun p q hpq => ⟨hpq.1, hpq.2.append s t⟩
    refine .cons ⟨rfl, houtline, by simp, by simp⟩ (List.rel_filter (fun p q hpq => ?_) hsets)
    change (p.1 != name) = true ↔ (q.1 != name) = true
    rw [hpq.1]
  values := h.values.imp fun p q hpq => ⟨hpq.1, hpq.2.append s t⟩
  arrays := h.arrays
  arrays' := h.arrays'

theorem lookup_named {R : α → β → Prop} {ps : List (String × α)} {qs : List (String × β)}
    (h : List.Forall₂ (Named R) ps qs) (name : String) :
    ps.lookup name = none ∧ qs.lookup name = none ∨
      ∃ x y, ps.lookup name = some x ∧ qs.lookup name = some y ∧ R x y := by
  induction h with
  | nil => exact Or.inl ⟨rfl, rfl⟩
  | @cons p q ps qs hpq _ ih =>
      obtain ⟨n, x⟩ := p
      obtain ⟨n', y⟩ := q
      obtain ⟨rfl, hxy⟩ : n = n' ∧ R x y := hpq
      rw [List.lookup_cons, List.lookup_cons]
      cases name == n with
      | true => exact Or.inr ⟨x, y, rfl, rfl, hxy⟩
      | false => exact ih

theorem agree_lookUp {R : α → β → Prop} {ps : List (String × α)} {qs : List (String × β)}
    (h : List.Forall₂ (Named R) ps qs) (name : String) :
    Agree R (lookUp name ps) (lookUp name qs) := by
  unfold lookUp
  obtain ⟨hp, hq⟩ | ⟨x, y, hp, hq, hxy⟩ := lookup_named h name <;> rw [hp, hq]
  · rfl
  · exact hxy

end Twins

/-- An operand that reads values that are missing or known, and sets. -/
inductive Operand.Plain (describe : ℕ → Option Text) : Operand → Prop
  | undefined : Plain describe (.value .undefined)
  | null : Plain describe (.value .null)
  | value {v : Value} (h : v.Flat describe) : Plain describe (.value v)
  | set (name : String) : Plain describe (.set name)
  | list {ref : Ref} {elements : List Operand} (href : ref.isObject)
      (h : ∀ x ∈ elements, Plain describe x) : Plain describe (.list ref elements)
  | record {ref : Ref} {fields : List (Text × Operand)} (href : ref.isObject)
      (h : ∀ field ∈ fields, Plain describe field.2)
      (own : ∀ b v b', (Operand.record ref fields).read b = .ok v b' → v.hasOwnEquality = false) :
      Plain describe (.record ref fields)
  | named (name : String) {x : Operand} (h : Plain describe x) : Plain describe (.named name x)

section Reading

variable {describe : ℕ → Option Text} {made made' : List (SealedSet Rule Value)}

theorem readAll_coupled {P : Bindings → Bindings → Prop} {R : Value → Value → Prop}
    {xs : List Operand} (h : ∀ x ∈ xs, Coupled P P R x.read x.read) :
    Coupled P P (List.Forall₂ R) (Operand.read.readAll xs) (Operand.read.readAll xs) := by
  induction xs with
  | nil => exact Coupled.pure .nil
  | cons x xs ih =>
      obtain ⟨hx, hxs⟩ := List.forall_mem_cons.mp h
      rw [Operand.read.readAll]
      exact hx.bindSame fun _ _ hxy => (ih hxs).bindSame fun _ _ hl => Coupled.pure (.cons hxy hl)

theorem readFields_coupled {P : Bindings → Bindings → Prop} {R : Value → Value → Prop}
    {fields : List (Text × Operand)}
    (h : ∀ field ∈ fields, Coupled P P R field.2.read field.2.read) :
    Coupled P P (List.Forall₂ fun p q => p.1 = q.1 ∧ R p.2 q.2) (Operand.read.readFields fields)
      (Operand.read.readFields fields) := by
  induction fields with
  | nil => exact Coupled.pure .nil
  | cons field fields ih =>
      obtain ⟨hx, hfields⟩ := List.forall_mem_cons.mp h
      obtain ⟨name, x⟩ := field
      rw [Operand.read.readFields]
      exact hx.bindSame fun _ _ hxy => (ih hfields).bindSame fun _ _ hl =>
        Coupled.pure (.cons ⟨rfl, hxy⟩ hl)

theorem Operand.read_coupled {x : Operand} (h : x.Plain describe) :
    Coupled (Bindings.Twins describe made made') (Bindings.Twins describe made made')
      (Value.Twins describe made made') x.read x.read := by
  induction h with
  | undefined => exact Coupled.pure ⟨rfl, nofun, nofun⟩
  | null => exact Coupled.pure ⟨rfl, nofun, nofun⟩
  | value h => exact Coupled.pure h.twins
  | set name =>
      rw [read]
      exact Coupled.get.bindSame fun b b' hb =>
        (Coupled.lift (agree_lookUp hb.sets name)).bindSame fun s t hst => Coupled.pure hst.value
  | @list ref elements href _ ih =>
      rw [read]
      refine (readAll_coupled ih).bindSame fun vs ws hvw => Coupled.pure ⟨?_, ?_, ?_⟩
      · rw [Value.outline_list, Value.outline_list, map_outline_eq hvw]
      · exact readable_of_flat (.object href rfl)
      · exact readable_of_flat (.object href rfl)
  | @record ref fields href _ own ih =>
      have hread : Coupled (Bindings.Twins describe made made') (Bindings.Twins describe made made')
          (fun v w => v.outline = w.outline ∧ (∃ shape, v = .object ref shape) ∧
            ∃ shape, w = .object ref shape)
          (record ref fields).read (record ref fields).read := by
        rw [read]
        refine (readFields_coupled ih).bindSame fun vs ws hvw =>
          Coupled.pure ⟨?_, ⟨_, rfl⟩, ⟨_, rfl⟩⟩
        rw [Value.outline_record, Value.outline_record, map_outline_eq_of_fields hvw]
      refine (hread.and own own).mono (fun _ _ h => h) (fun _ _ h => h) ?_
      rintro v w ⟨⟨houtline, ⟨shape, rfl⟩, ⟨shape', rfl⟩⟩, hv, hw⟩
      exact ⟨houtline, readable_of_flat (.object href hv), readable_of_flat (.object href hw)⟩
  | @named name x _ ih =>
      rw [read]
      refine Coupled.get.bindSame fun b b' hb => ?_
      obtain ⟨hp, hq⟩ | ⟨v, w, hp, hq, hvw⟩ := lookup_named hb.values name <;> rw [hp, hq]
      · refine ih.bindSame fun v w hvw => ?_
        refine (Coupled.modify fun b b' hb => ?_).bindSame fun _ _ _ => Coupled.pure hvw
        exact { hb with values := .cons ⟨rfl, hvw⟩ hb.values }
      · exact Coupled.pure hvw

end Reading

/-- A source whose items are missing or known, or that fails. -/
inductive Source.Plain (describe : ℕ → Option Text) : Source → Prop
  | values {items : List Operand} (h : ∀ x ∈ items, x.Plain describe) :
      Plain describe (.values items)
  | range (start : Value) (count : ℕ) (step : Value) : Plain describe (.range start count step)
  | random (seed count : ℕ) (modulus : Binary64) : Plain describe (.random seed count modulus)
  | numbered (stem : Text) (count : ℕ) : Plain describe (.numbered stem count)
  | characters (t : Text) : Plain describe (.characters t)
  | failing {items : List Operand} (failsAt : ℕ) (h : ∀ x ∈ items, x.Plain describe) :
      Plain describe (.failing items failsAt)
  | chain {sources : List Source} (h : ∀ source ∈ sources, Plain describe source) :
      Plain describe (.chain sources)
  | array (name : String) : Plain describe (.array name)
  | set (name : String) : Plain describe (.set name)

section Drawing

variable {describe : ℕ → Option Text} {made made' : List (SealedSet Rule Value)}

theorem exists_of_bind_eq_ok {α β : Type} {r : Except Failure α} {f : α → Except Failure β} {y : β}
    (h : (r >>= f) = .ok y) : ∃ x, r = .ok x ∧ f x = .ok y := by
  cases r with
  | error failure => cases h
  | ok x => exact ⟨x, rfl, h⟩

/-- A sum is a text, a bigint or a number. -/
theorem Value.flat_of_plus {a b v : Value} (h : a.plus b = .ok v) : v.Flat describe := by
  unfold plus at h
  obtain ⟨a, -, h⟩ := exists_of_bind_eq_ok h
  obtain ⟨b, -, h⟩ := exists_of_bind_eq_ok h
  split at h
  · obtain ⟨t, -, h⟩ := exists_of_bind_eq_ok h
    cases h
    exact .text _
  · obtain ⟨t, -, h⟩ := exists_of_bind_eq_ok h
    cases h
    exact .text _
  · cases h
    exact .bigint _
  · cases h
  · obtain ⟨x, -, h⟩ := exists_of_bind_eq_ok h
    obtain ⟨y, -, h⟩ := exists_of_bind_eq_ok h
    cases h
    exact .number _

structure Supply.Twins (describe : ℕ → Option Text) (made made' : List (SealedSet Rule Value))
    (s t : Supply) : Prop where
  values : List.Forall₂ (Value.Twins describe made made') s.values t.values
  failure? : s.failure? = t.failure?

theorem Supply.Twins.agree_all {s t : Supply} (h : s.Twins describe made made' t) :
    Agree (List.Forall₂ (Value.Twins describe made made')) s.all t.all := by
  unfold Supply.all
  rw [h.failure?]
  cases t.failure? with
  | none => exact h.values
  | some failure => rfl

theorem supply_twins_of_flat {vs : List Value} (h : ∀ v ∈ vs, v.Flat describe) :
    Supply.Twins describe made made' ⟨vs, none⟩ ⟨vs, none⟩ :=
  ⟨forall₂_twins_of_flat h, rfl⟩

theorem Source.readAll_coupled {P : Bindings → Bindings → Prop} {sources : List Source}
    (h : ∀ source ∈ sources,
      Coupled P P (Supply.Twins describe made made') source.read source.read) :
    Coupled P P (List.Forall₂ (Value.Twins describe made made')) (Source.read.readAll sources)
      (Source.read.readAll sources) := by
  induction sources with
  | nil => exact Coupled.pure .nil
  | cons source sources ih =>
      obtain ⟨hsource, hsources⟩ := List.forall_mem_cons.mp h
      rw [Source.read.readAll]
      refine hsource.bindSame fun s t hst => (Coupled.lift hst.agree_all).bindSame fun _ _ hxy => ?_
      exact (ih hsources).bindSame fun _ _ hl => Coupled.pure (List.rel_append hxy hl)

theorem Source.read_coupled {source : Source} (h : source.Plain describe)
    (closed : Closed describe made) (closed' : Closed describe made') :
    Coupled (Bindings.Twins describe made made') (Bindings.Twins describe made made')
      (Supply.Twins describe made made') source.read source.read := by
  induction h with
  | values h =>
      rw [read]
      exact (Coupled.mapM fun x hx => Operand.read_coupled (h x hx)).bindSame
        fun _ _ hvw => Coupled.pure ⟨hvw, rfl⟩
  | range start count step =>
      rw [read]
      refine (Coupled.mapM fun i _ => ?_).bindSame fun _ _ hvw => Coupled.pure ⟨hvw, rfl⟩
      refine (Coupled.lift (Agree.refl fun _ _ => rfl)).bindSame fun x y hxy => ?_
      subst hxy
      exact Coupled.lift (Agree.refl fun v hv => (Value.flat_of_plus hv).twins)
  | random seed count modulus =>
      rw [read]
      refine Coupled.pure (supply_twins_of_flat fun v hv => ?_)
      obtain ⟨x, -, rfl⟩ := List.mem_map.mp hv
      exact .number _
  | numbered stem count =>
      rw [read]
      refine Coupled.pure (supply_twins_of_flat fun v hv => ?_)
      obtain ⟨x, -, rfl⟩ := List.mem_map.mp hv
      exact .text _
  | characters t =>
      rw [read]
      refine Coupled.pure (supply_twins_of_flat fun v hv => ?_)
      obtain ⟨x, -, rfl⟩ := List.mem_map.mp hv
      exact .text _
  | failing failsAt h =>
      rw [read]
      refine (Coupled.mapM fun x hx => Operand.read_coupled (h x hx)).bindSame fun vs ws hvw => ?_
      rw [hvw.length_eq]
      split
      · exact Coupled.pure ⟨List.forall₂_take failsAt hvw, rfl⟩
      · exact Coupled.pure ⟨hvw, rfl⟩
  | chain _ ih =>
      rw [read]
      exact (readAll_coupled ih).bindSame fun _ _ hvw => Coupled.pure ⟨hvw, rfl⟩
  | array name =>
      rw [read]
      refine Coupled.get.bindSame fun b b' hb => ?_
      rw [hb.arrays, hb.arrays']
      have unbound : Agree (fun _ _ => False) (lookUp name ([] : List (String × Slots Value)))
          (lookUp name ([] : List (String × Slots Value))) := rfl
      exact (Coupled.lift unbound).bindSame fun _ _ h => h.elim
  | set name =>
      rw [read]
      refine Coupled.get.bindSame fun b b' hb => ?_
      refine (Coupled.lift (agree_lookUp hb.sets name)).bindSame fun s t hst => ?_
      exact Coupled.pure ⟨hst.elements closed closed', rfl⟩

end Drawing
end SealedSets
