import Mathlib.Data.List.TakeWhile
import SealedSets.Proofs.Deduplication
import SealedSets.SealedSet

/-!
# Membership

A table is searched from the home slot of a hash that was not wrapped, and a single element is
compared without any hash. Both answer as a comparison with every element would.
-/
namespace SealedSets

namespace SealedSet

variable {α : Type}

/-- A set under an equivalence, with codes for its elements, whose table is well placed. -/
inductive Sound (E : Equivalence α) (codes : α → HashCode → Prop) :
    SealedSet (Equivalence α) α → Prop
  | empty : Sound E codes .empty
  | singleton {ref : Ref} {x : α} {k : HashCode} (code : codes x k) :
      Sound E codes (.singleton ref E x k)
  | table {ref : Ref} {t : Table α} (placed : t.Placed codes) (room : t.size < t.capacity) :
      Sound E codes (.table ref E t)

section Making

variable {E : Equivalence α} {codes codes' : α → HashCode → Prop} {ref : Ref} {checked : Bool}
  {expected : Option Binary64} {candidates : List (Option α)} {c d : IdentityCodes}
  {s : SealedSet (Equivalence α) α}

theorem Sound.mono (h : s.Sound E codes)
    (hc : ∀ x ∈ s.elements, ∀ k, codes x k → codes' x k) : s.Sound E codes' := by
  cases h with
  | empty => exact .empty
  | singleton code => exact .singleton (hc _ (by simp [elements]) _ code)
  | table placed room =>
      exact .table (placed.mono fun x hx => hc x (by simpa [elements] using hx)) room

/-- The hash code of a set is the sum of codes of its elements. -/
theorem Sound.summed (h : s.Sound E codes) :
    ∃ ks, List.Forall₂ codes s.elements ks ∧ s.hashCode = ks.sum := by
  cases h with
  | empty => exact ⟨[], .nil, rfl⟩
  | singleton code => exact ⟨[_], .cons code .nil, by simp [hashCode]⟩
  | table placed room => exact placed.summed

/-- A set is made of what a table keeps, and one element is put into no table. -/
theorem ofCandidates_eq_ok {ρ : Type} {read : ρ → Equivalence α} {rule : ρ} {s : SealedSet ρ α} :
    ofCandidates checked read rule ref expected candidates c = .ok s d ↔
      candidates = [] ∧ s = .empty ∧ c = d ∨
      candidates ≠ [] ∧ ∃ t e, Table.ofCandidates checked (read rule) expected candidates c =
          .ok t e ∧
        ((∃ x k, t.elements.toList = [x] ∧ (read rule).code x e = .ok k d ∧
            s = .singleton ref rule x k) ∨
          (∀ x, t.elements.toList ≠ [x]) ∧ s = .table ref rule t ∧ e = d) := by
  unfold ofCandidates
  split
  · next hempty =>
    rw [Action.pure_eq_ok]
    simp [List.isEmpty_iff.mp hempty, eq_comm (a := s)]
  · next hempty =>
    have hne : candidates ≠ [] := fun hnil => hempty (List.isEmpty_iff.mpr hnil)
    simp only [hne, false_and, false_or, ne_eq, not_false_eq_true, true_and]
    rw [Action.bind_eq_ok]
    refine exists₂_congr fun t e => and_congr_right fun _ => ?_
    rcases t.elements.toList with _ | ⟨x, _ | ⟨y, l⟩⟩
    · dsimp only
      rw [Action.pure_eq_ok]
      simp [eq_comm (a := s)]
    · dsimp only
      rw [Action.bind_eq_ok]
      constructor
      · rintro ⟨k, e', hk, h⟩
        obtain ⟨rfl, rfl⟩ := Action.pure_eq_ok.mp h
        exact Or.inl ⟨x, k, rfl, hk, rfl⟩
      · rintro (⟨x, k, hx, hk, rfl⟩ | ⟨hne, -⟩)
        · cases hx
          exact ⟨k, d, hk, rfl⟩
        · exact absurd rfl (hne x)
    · dsimp only
      rw [Action.pure_eq_ok]
      simp [eq_comm (a := s)]

/-- It is made alike under any reading of its equivalence. -/
theorem ofCandidates_mapRule {ρ : Type} {read : ρ → Equivalence α} {rule : ρ}
    {s : SealedSet ρ α} (h : ofCandidates checked read rule ref expected candidates c = .ok s d) :
    ofCandidates checked id (read rule) ref expected candidates c = .ok (s.mapRule read) d := by
  rw [ofCandidates_eq_ok] at h ⊢
  obtain ⟨hnil, rfl, hcd⟩ | ⟨hne, t, e, ht, ⟨x, k, hx, hk, rfl⟩ | ⟨hx, rfl, hed⟩⟩ := h
  · exact Or.inl ⟨hnil, rfl, hcd⟩
  · exact Or.inr ⟨hne, t, e, ht, Or.inl ⟨x, k, hx, hk, rfl⟩⟩
  · exact Or.inr ⟨hne, t, e, ht, Or.inr ⟨hx, rfl, hed⟩⟩

/-- Whatever the equivalence answers, a set that was made is sound. -/
theorem sound_of_ofCandidates (grows : E.Grows)
    (h : ofCandidates checked id E ref expected candidates c = .ok s d) :
    c ≤ d ∧ s.Sound E (E.Gave c d) := by
  obtain ⟨-, rfl, rfl⟩ | ⟨-, t, e, ht, hs⟩ := ofCandidates_eq_ok.mp h
  · exact ⟨le_rfl, .empty⟩
  · obtain ⟨limit, hload⟩ := Table.loaded_of_ofCandidates grows ht
    obtain ⟨x, k, -, hk, rfl⟩ | ⟨-, rfl, rfl⟩ := hs
    · have hed : e ≤ d := (grows.code x).le hk
      exact ⟨hload.le.trans hed, .singleton ⟨e, d, hload.le, le_rfl, hk⟩⟩
    · exact ⟨hload.le, .table hload.placed hload.size_lt⟩

/-- Under a steady equivalence, the codes that a set was made with are the codes of its elements in
every later state. -/
theorem sound_of_steady {S : Set α} {eq : α → α → Bool} {b e : IdentityCodes}
    (steady : E.Steady b S eq) (hS : ∀ x ∈ s.elements, x ∈ S) (hbc : b ≤ c) (hde : d ≤ e)
    (h : ofCandidates checked id E ref expected candidates c = .ok s d) :
    s.Sound E (E.HasCode e) := by
  obtain ⟨-, hsound⟩ := sound_of_ofCandidates steady.grows h
  exact hsound.mono fun x hx _ hk => ((steady.mono hbc).hasCode (hS x hx) hk).mono hde

/-- All sets of no candidates are one set. -/
theorem ofCandidates_shape {ρ : Type} {read : ρ → Equivalence α} {rule : ρ} {s : SealedSet ρ α}
    (h : ofCandidates checked read rule ref expected candidates c = .ok s d) :
    candidates = [] ∧ s = .empty ∨ candidates ≠ [] ∧ s.rule? = some rule ∧ s.ref = ref := by
  obtain ⟨hnil, hempty, -⟩ | ⟨hne, t, e, -, hs⟩ := ofCandidates_eq_ok.mp h
  · exact Or.inl ⟨hnil, hempty⟩
  · obtain ⟨x, k, -, -, rfl⟩ | ⟨-, rfl, -⟩ := hs
    · exact Or.inr ⟨hne, rfl, rfl⟩
    · exact Or.inr ⟨hne, rfl, rfl⟩

theorem keeps_ofCandidates {ρ : Type} {read : ρ → Equivalence α} {rule : ρ}
    {P : IdentityCodes → Prop} (h : (read rule).Keeps P) :
    Keeps P (ofCandidates checked read rule ref expected candidates) := by
  unfold ofCandidates
  split
  · exact .pure _
  · refine (Table.keeps_ofCandidates h).bind fun t => ?_
    split
    · exact (h.code _).bind fun k => .pure _
    · exact .pure _

theorem elements_of_table {t : Table α} {e : IdentityCodes}
    (h : (∃ x k, t.elements.toList = [x] ∧ E.code x e = .ok k d ∧ s = .singleton ref E x k) ∨
      (∀ x, t.elements.toList ≠ [x]) ∧ s = .table ref E t ∧ e = d) :
    s.elements = t.elements.toList := by
  obtain ⟨x, k, hx, -, rfl⟩ | ⟨-, rfl, -⟩ := h
  · exact hx.symm
  · rfl

theorem mem_of_ofCandidates {x : α} (grows : E.Grows)
    (h : ofCandidates checked id E ref expected candidates c = .ok s d) (hx : x ∈ s.elements) :
    some x ∈ candidates := by
  obtain ⟨-, rfl, -⟩ | ⟨-, t, e, ht, hs⟩ := ofCandidates_eq_ok.mp h
  · cases hx
  · rw [elements_of_table hs] at hx
    exact Table.mem_of_ofCandidates grows ht hx

variable {S : Set α} {eq : α → α → Bool} {xs : List α}

theorem elements_of_ofCandidates (steady : E.Steady c S eq) (hxs : ∀ x ∈ xs, x ∈ S)
    (h : ofCandidates checked id E ref expected (xs.map some) c = .ok s d) :
    s.elements = firsts eq xs := by
  obtain ⟨hnil, rfl, -⟩ | ⟨-, t, e, ht, hs⟩ := ofCandidates_eq_ok.mp h
  · rw [List.map_eq_nil_iff.mp hnil]
    rfl
  · rw [elements_of_table hs]
    exact Table.elements_of_ofCandidates steady hxs ht

/-- No two elements are equal, however the candidates that were dropped compare. -/
theorem pairwise_of_ofCandidates (steady : E.Steady c S eq) (hS : ∀ y ∈ s.elements, y ∈ S)
    (h : ofCandidates checked id E ref expected candidates c = .ok s d) :
    s.elements.Pairwise fun x y => ¬eq x y := by
  obtain ⟨-, rfl, -⟩ | ⟨-, t, e, ht, hs⟩ := ofCandidates_eq_ok.mp h
  · exact List.Pairwise.nil
  · rw [elements_of_table hs] at hS ⊢
    exact Table.pairwise_of_ofCandidates steady (fun y hy => hS y (by simpa using hy)) ht

/-- A set of no candidates is made without a look at the hint. -/
def HintFits (checked : Bool) (expected : Option Binary64) (n : ℕ) : Prop :=
  n ≠ 0 → Table.HintFits checked expected n

theorem exists_ofCandidates (ref : Ref) (steady : E.Steady c S eq) (hxs : ∀ x ∈ xs, x ∈ S)
    (len : xs.length ≤ Table.limit Table.maxSize) (fits : HintFits checked expected xs.length) :
    ∃ s d, ofCandidates checked id E ref expected (xs.map some) c = .ok s d := by
  cases xs with
  | nil => exact ⟨.empty, c, rfl⟩
  | cons x xs =>
      obtain ⟨t, e, ht⟩ := Table.exists_ofCandidates steady hxs len (fits (Nat.succ_ne_zero _))
      have helements := Table.elements_of_ofCandidates steady hxs ht
      obtain ⟨_, hload⟩ := Table.loaded_of_ofCandidates steady.grows ht
      unfold ofCandidates
      rw [if_neg (by simp), id, Action.bind_of_ok ht]
      rcases hl : t.elements.toList with _ | ⟨y, _ | ⟨z, l⟩⟩
      · exact ⟨_, _, rfl⟩
      · have hy : y ∈ firsts eq (x :: xs) := by simp [← helements, hl]
        obtain ⟨k, d, hk, -⟩ := steady.code y (hxs y (mem_of_mem_firsts hy)) e hload.le
        exact ⟨_, _, Action.bind_of_ok hk⟩
      · exact ⟨_, _, rfl⟩

end Making

section Asking

variable {E : Equivalence α} {S : Set α} {eq : α → α → Bool} {c d : IdentityCodes}
  {s : SealedSet (Equivalence α) α} {x : α} {accepted : Bool}

/-- What a lookup may compare a value with. -/
def Stores {ρ : Type} (s : SealedSet ρ α) (x : α) : Prop :=
  match s with
  | empty => False
  | singleton _ _ y _ => x = y
  | table _ _ t => ∃ i : ℕ, t.slots[i]? = some (some x)

/-- A lookup keeps what everything keeps that it asks for. -/
theorem keeps_contains {P : IdentityCodes → Prop}
    (accepts : ∀ E, s.rule? = some E → ∀ y, Keeps P (E.accepts y))
    (hash : ∀ E, s.rule? = some E → ∀ y, Keeps P (E.hash y))
    (equal : ∀ E, s.rule? = some E → ∀ x, s.Stores x → ∀ y, Keeps P (E.equal x y))
    (v : Option α) : Keeps P (s.contains v) := by
  cases v with
  | none => exact .pure _
  | some y =>
      apply Keeps.orFalse
      cases s with
      | empty => exact .pure _
      | singleton ref E x k =>
          refine (accepts E rfl y).bind fun accepted => ?_
          split
          · exact equal E rfl x rfl y
          · exact .pure _
      | table ref E t =>
          refine (accepts E rfl y).bind fun accepted => ?_
          split
          · refine (hash E rfl y).bind fun hash => ?_
            refine (Table.keeps_search (fun i x hx => equal E rfl x ⟨i, hx⟩ y) _ _).bind fun _ => ?_
            exact .pure _
          · exact .pure _

theorem Sound.rule?_eq {codes : α → HashCode → Prop} {E' : Equivalence α} (h : s.Sound E codes)
    (hrule : s.rule? = some E') : E' = E := by
  cases h with
  | empty => cases hrule
  | singleton code => exact (Option.some.inj hrule).symm
  | table placed room => exact (Option.some.inj hrule).symm

theorem Sound.grows_contains {codes : α → HashCode → Prop} (h : s.Sound E codes)
    (grows : E.Grows) (v : Option α) : (s.contains v).Grows := by
  refine Action.grows_iff.mpr fun b => ?_
  have keeps := Matching.grows_iff.mp grows b
  refine keeps_contains (fun E' hE => ?_) (fun E' hE => ?_) (fun E' hE x _ => ?_) v
  · exact h.rule?_eq hE ▸ keeps.accepts
  · exact h.rule?_eq hE ▸ keeps.hash
  · exact h.rule?_eq hE ▸ keeps.equal x

/-- A lookup starts where an element with the code of the value was placed. -/
theorem contains_table_always {t : Table α} (steady : E.Steady c S eq)
    (placed : t.Placed (E.HasCode c)) (room : t.size < t.capacity)
    (hS : ∀ y ∈ t.elements, y ∈ S) (hx : x ∈ S) :
    (t.contains E x).Always c (t.elements.toList.any (eq · x)) := by
  intro d hcd
  obtain ⟨k, e, hk, hkeep⟩ := steady.code x hx d hcd
  rw [Matching.code, Action.bind_eq_ok] at hk
  obtain ⟨hash, e', hhash, hk⟩ := hk
  obtain ⟨rfl, rfl⟩ := Action.pure_eq_ok.mp hk
  have hce := hcd.trans ((steady.grows.hash x).le hhash)
  have hplaced := placed.mono fun y _ k (hy : E.HasCode c y k) => hy.mono hce
  obtain ⟨f, hsearch⟩ :=
    Table.search_steady (steady.mono hce) hplaced room hS hx hkeep e' le_rfl
  rw [← Table.start_eq] at hsearch
  refine ⟨f, ?_⟩
  rw [Table.contains, Action.bind_of_ok hhash, Action.bind_of_ok hsearch]
  cases t.elements.toList.any (eq · x) <;> rfl

/-- A set has a value if it accepts the value and an element is equal to it. -/
theorem Sound.contains_always (h : s.Sound E (E.HasCode c)) (steady : E.Steady c S eq)
    (hS : ∀ y ∈ s.elements, y ∈ S) (hx : x ∈ S) (ha : (E.accepts x).Always c accepted) :
    (s.contains (some x)).Always c (accepted && s.elements.any (eq · x)) := by
  apply Action.Always.orFalse
  cases h with
  | empty =>
      rw [elements, List.any_nil, Bool.and_false]
      exact Action.always_pure c false
  | @singleton ref y k code =>
      refine ha.bind (steady.grows.accepts x) ?_
      cases accepted with
      | false => exact Action.always_pure c false
      | true => simpa [elements] using steady.equal y (hS y (by simp [elements])) x hx
  | table placed room =>
      refine ha.bind (steady.grows.accepts x) ?_
      cases accepted with
      | false => exact Action.always_pure c false
      | true =>
          exact contains_table_always steady placed room
            (fun y hy => hS y (by simpa [elements] using hy)) hx

theorem keeps_leading {P : IdentityCodes → Prop} (h : ∀ v, Keeps P (s.contains v))
    (values : List (Option α)) : Keeps P (s.leading values) := by
  induction values with
  | nil => exact .pure _
  | cons v values ih =>
      refine (h v).bind fun found => ?_
      split
      · exact ih.bind fun _ => .pure _
      · exact .pure _

theorem keeps_containsAll {P : IdentityCodes → Prop} (h : ∀ v, Keeps P (s.contains v))
    (values : List (Option α)) : Keeps P (s.containsAll values) :=
  (keeps_leading h values).bind fun _ => .pure _

theorem grows_leading (grows : ∀ v, (s.contains v).Grows) (values : List (Option α)) :
    (s.leading values).Grows :=
  Action.grows_iff.mpr fun b => keeps_leading (fun v => Action.grows_iff.mp (grows v) b) values

/-- Values are counted up to the first that is no member. -/
theorem leading_always {p : Option α → Bool} {values : List (Option α)}
    (grows : ∀ v, (s.contains v).Grows) (h : ∀ v ∈ values, (s.contains v).Always c (p v)) :
    (s.leading values).Always c (values.takeWhile p).length := by
  induction values with
  | nil => exact Action.always_pure c 0
  | cons v values ih =>
      obtain ⟨hv, hvalues⟩ := List.forall_mem_cons.mp h
      refine hv.bind (grows v) ?_
      cases hp : p v with
      | false =>
          rw [List.takeWhile_cons_of_neg (by simp [hp])]
          exact Action.always_pure c 0
      | true =>
          rw [List.takeWhile_cons_of_pos hp, List.length_cons]
          exact (ih hvalues).bind (grows_leading grows values) (Action.always_pure c _)

theorem containsAll_always {p : Option α → Bool} {values : List (Option α)}
    (grows : ∀ v, (s.contains v).Grows) (h : ∀ v ∈ values, (s.contains v).Always c (p v)) :
    (s.containsAll values).Always c (values.all p) := by
  have hall : ((values.takeWhile p).length == values.length) = values.all p := by
    rw [Bool.eq_iff_iff, beq_iff_eq, List.all_eq_true, ← List.takeWhile_eq_self_iff]
    exact ⟨(List.takeWhile_prefix p).eq_of_length, congrArg List.length⟩
  rw [← hall]
  exact (leading_always grows h).bind (grows_leading grows values) (Action.always_pure c _)

end Asking

section Failing

variable {E : Equivalence α} {ref : Ref} {checked : Bool} {expected : Option Binary64}
  {candidates : List (Option α)} {c d : IdentityCodes} {s : SealedSet (Equivalence α) α} {x y : α}

/-- A test that is only asked of accepted values says yes only to these. -/
theorem accepted_eq_ok {test : Action Bool} {e : IdentityCodes} :
    (E.accepts x >>= fun accepted => if accepted then test else pure false) c = .ok true e ↔
      ∃ d, E.accepts x c = .ok true d ∧ test d = .ok true e := by
  rw [Action.bind_eq_ok]
  constructor
  · rintro ⟨accepted, d, haccepts, h⟩
    cases accepted with
    | false => cases (Action.pure_eq_ok.mp h).1
    | true => exact ⟨d, haccepts, h⟩
  · rintro ⟨d, haccepts, h⟩
    exact ⟨true, d, haccepts, h⟩

/-- No table has a value that cannot be hashed. -/
theorem contains_table_ne_true {t : Table α} {e : IdentityCodes}
    (unhashed : ∀ c, ∃ failure d, E.hash x c = .error failure d) :
    t.contains E x c ≠ .ok true e := by
  intro h
  rw [Table.contains, Action.bind_eq_ok] at h
  obtain ⟨hash, d, hhash, -⟩ := h
  obtain ⟨failure, d', herror⟩ := unhashed c
  rw [hhash] at herror
  cases herror

/-- A lookup never fails, whatever the equivalence does. A value that cannot be hashed is a member
of no set but one of a single element, which is compared with the value without any hash. -/
theorem contains_of_unhashed (h : ofCandidates checked id E ref expected candidates c = .ok s d)
    (v : Option α) (e : IdentityCodes) :
    ∃ answer f, s.contains v e = .ok answer f ∧
      ∀ x, v = some x → (∀ c, ∃ failure d, E.hash x c = .error failure d) →
        (answer = true ↔ s.size = 1 ∧ ∃ y ∈ s.elements, ∃ e', E.accepts x e = .ok true e' ∧
          E.equal y x e' = .ok true f) := by
  cases v with
  | none => exact ⟨false, e, rfl, nofun⟩
  | some x =>
      obtain ⟨answer, f, hanswer, hiff⟩ := Action.exists_orFalse (s.holds x) e
      refine ⟨answer, f, hanswer, ?_⟩
      rintro x' hx unhashed
      cases hx
      rw [hiff]
      obtain ⟨-, rfl, -⟩ | ⟨-, t, e', ht, hs⟩ := ofCandidates_eq_ok.mp h
      · simp [holds, size]
      · obtain ⟨y, k, -, -, rfl⟩ | ⟨hne, rfl, -⟩ := hs
        · rw [holds, accepted_eq_ok]
          simp [size, elements]
        · have hsize : size (.table ref E t) ≠ 1 := by
            rw [← length_elements, ne_eq, List.length_eq_one_iff, not_exists]
            exact hne
          simp only [hsize, false_and, iff_false]
          rw [holds, accepted_eq_ok]
          rintro ⟨d', -, hcontains⟩
          exact contains_table_ne_true unhashed hcontains

set_option maxRecDepth 4000 in
/-- The number one cannot be hashed and is equal to all others. It is in the set of zero, and not
in the set of zero and two. -/
theorem contains_of_unhashed_one :
    ∃ E : Equivalence ℕ, (∀ c, ∃ failure d, E.hash 1 c = .error failure d) ∧
      ∃ s d t d', ofCandidates true id E (.set 0) none ([0].map some) {} = .ok s d ∧
        ofCandidates true id E (.set 1) none ([0, 2].map some) {} = .ok t d' ∧
        ∀ e, (∃ f, s.contains (some 1) e = .ok true f) ∧
          ∃ f, t.contains (some 1) e = .ok false f := by
  let E : Equivalence ℕ := .ofPartial (fun _ => .ok true) (fun x y => .ok (x == y || y == 1))
    (fun x => if x = 1 then .error (.raised "no hash") else .ok (.ofNat x)) 0
  have unhashed : ∀ c, ∃ failure d, E.hash 1 c = .error failure d := fun c => ⟨_, c, rfl⟩
  have hs : ofCandidates true id E (.set 0) none ([0].map some) {} =
      .ok (.singleton (.set 0) E 0 0#32) {} := rfl
  have ht : ofCandidates true id E (.set 1) none ([0, 2].map some) {} =
      .ok (.table (.set 1) E ⟨#[0, 2], #[some 0, none, some 2, none], 2#32⟩) {} := rfl
  refine ⟨E, unhashed, _, _, _, _, hs, ht, fun e => ⟨⟨e, rfl⟩, ?_⟩⟩
  obtain ⟨answer, f, hanswer, hiff⟩ := contains_of_unhashed ht (some 1) e
  cases answer with
  | false => exact ⟨f, hanswer⟩
  | true => cases ((hiff 1 rfl unhashed).mp rfl).1

end Failing

section Pure

variable {accepts : α → Bool} {equal : α → α → Bool} {hash : α → Binary64} {family : ℕ}
  {checked : Bool} {ref : Ref} {expected : Option Binary64} {xs : List α} {c d : IdentityCodes}

/-- Without effects, a set is made of the first occurrences and the sum of their codes. -/
theorem exists_ofCandidates_ofPure (accepts : α → Bool) (family : ℕ) (ref : Ref)
    (law : ∀ x y, equal x y → (hash x).toHashCode = (hash y).toHashCode)
    (len : xs.length ≤ Table.limit Table.maxSize) (fits : HintFits checked expected xs.length)
    (c : IdentityCodes) :
    ∃ s d, ofCandidates checked id (.ofPure accepts equal hash family) ref expected
        (xs.map some) c = .ok s d ∧
      s.elements = firsts equal xs ∧
      s.hashCode = ((firsts equal xs).map fun x => (hash x).toHashCode).sum := by
  have steady : (Equivalence.ofPure accepts equal hash family).Steady c Set.univ equal :=
    Equivalence.steady_ofPure law c
  obtain ⟨s, d, h⟩ := exists_ofCandidates ref steady (fun x _ => Set.mem_univ x) len fits
  have helements := elements_of_ofCandidates steady (fun x _ => Set.mem_univ x) h
  obtain ⟨-, hsound⟩ := sound_of_ofCandidates Equivalence.grows_ofPure h
  obtain ⟨ks, hks, hsum⟩ := hsound.summed
  refine ⟨s, d, h, helements, ?_⟩
  rw [hsum, Table.forall₂_gave_ofPure hks, helements]

/-- Membership is exact in every representation, whatever relation equality is, as long as equal
values have equal hash codes. -/
theorem contains_iff {candidates : List (Option α)} {s : SealedSet (Equivalence α) α}
    (law : ∀ x y, equal x y → (hash x).toHashCode = (hash y).toHashCode)
    (h : ofCandidates checked id (.ofPure accepts equal hash family) ref expected candidates c =
      .ok s d) (v : Option α) (e : IdentityCodes) :
    ∃ answer f, s.contains v e = .ok answer f ∧
      (answer = true ↔ ∃ x, v = some x ∧ accepts x ∧ ∃ y ∈ s.elements, equal y x) := by
  cases v with
  | none => exact ⟨false, e, rfl, by simp⟩
  | some x =>
      have steady : (Equivalence.ofPure accepts equal hash family).Steady e Set.univ equal :=
        Equivalence.steady_ofPure law e
      obtain ⟨-, hsound⟩ := sound_of_ofCandidates Equivalence.grows_ofPure h
      have hcodes := hsound.mono fun y _ k hk =>
        show (Equivalence.ofPure accepts equal hash family).HasCode e y k by
          rw [Equivalence.gave_ofPure hk]
          exact Action.always_pure e _
      obtain ⟨f, hf⟩ := hcodes.contains_always steady (fun y _ => Set.mem_univ y)
        (Set.mem_univ x) (Action.always_pure e (accepts x)) e le_rfl
      refine ⟨_, f, hf, ?_⟩
      simp [List.any_eq_true]

/-- Here what is less than a value is equal to it, so a set need not have its own elements. -/
theorem contains_iff_below :
    ∃ s d, ofCandidates true id
        (.ofPure (fun x => x != 7) (fun x y : ℕ => decide (x < y)) (fun _ => .ofNat 0x100000001) 0)
        (.set 0) (some (.ofNat 0)) ([3, 5, 1, 1, 0, 2].map some) {} = .ok s d ∧
      ∀ e, (∃ f, s.contains (some 0) e = .ok false f) ∧ (∃ f, s.contains (some 2) e = .ok true f) ∧
        (∃ f, s.contains (some 7) e = .ok false f) ∧ ∃ f, s.contains none e = .ok false f := by
  have law : ∀ x y : ℕ, decide (x < y) →
      (Binary64.ofNat 0x100000001).toHashCode = (Binary64.ofNat 0x100000001).toHashCode :=
    fun _ _ _ => rfl
  have len : [3, 5, 1, 1, 0, 2].length ≤ Table.limit Table.maxSize := by
    rw [Table.limit_maxSize]
    decide
  have fits : HintFits true (some (.ofNat 0)) [3, 5, 1, 1, 0, 2].length := fun _ _ => by decide
  obtain ⟨s, d, h, helements, -⟩ :=
    exists_ofCandidates_ofPure (fun x => x != 7) 0 (.set 0) law len fits {}
  refine ⟨s, d, h, fun e => ?_⟩
  have ask : ∀ v answer, (answer = true ↔ ∃ x, v = some x ∧ (x != 7) ∧
      ∃ y ∈ firsts (fun x y : ℕ => decide (x < y)) [3, 5, 1, 1, 0, 2], decide (y < x)) →
      ∃ f, s.contains v e = .ok answer f := by
    intro v answer hanswer
    obtain ⟨answer', f, hf, hiff⟩ := contains_iff law h v e
    rw [helements, ← hanswer, ← Bool.eq_iff_iff] at hiff
    exact ⟨f, hiff ▸ hf⟩
  exact ⟨ask _ _ (by decide), ask _ _ (by decide), ask _ _ (by decide), ask _ _ (by decide)⟩

end Pure
end SealedSet
end SealedSets
