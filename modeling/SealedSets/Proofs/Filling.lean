import SealedSets.Proofs.Probing
import SealedSets.Proofs.Sizing

/-!
# Tables under construction

`Placed` says where the elements of a table lie, and nothing about which of them are equal. Every
candidate that is added keeps it, whatever the equivalence answers.
-/
namespace SealedSets.Table

variable {α : Type}

/-- The slot lies in the run that starts at the home slot of a hash code. -/
def Reaches (t : Table α) (k : HashCode) (i : ℕ) : Prop :=
  ∃ d < (occupied t.slots t.capacity (t.home k)).length, (t.home k + d) % t.capacity = i

/-- The slots hold the elements, each in one slot that can be reached with a code of it, and the
codes add up to the hash code of the table. -/
structure Placed (codes : α → HashCode → Prop) (t : Table α) : Prop where
  held : t.slots.toList.reduceOption.Perm t.elements.toList
  reached : ∀ i x, t.slots[i]? = some (some x) → ∃ k, codes x k ∧ t.Reaches k i
  summed : ∃ ks, List.Forall₂ codes t.elements.toList ks ∧ t.hashCode = ks.sum

theorem exists_of_forall₂ {β : Type} {r : α → β → Prop} {us : List α} {ws : List β} {w : β}
    (h : List.Forall₂ r us ws) (hw : w ∈ ws) : ∃ u ∈ us, r u w := by
  induction h with
  | nil => simp at hw
  | @cons u w' us ws huw _ ih =>
      rcases List.mem_cons.mp hw with rfl | hw
      · exact ⟨u, List.mem_cons_self, huw⟩
      · obtain ⟨u', hu', h⟩ := ih hw
        exact ⟨u', List.mem_cons_of_mem u hu', h⟩

theorem perm_reduceOption_set {l : List (Option α)} {i : ℕ} (x : α) (h : l[i]? = some none) :
    (l.set i (some x)).reduceOption.Perm (x :: l.reduceOption) := by
  induction l generalizing i with
  | nil => simp at h
  | cons a l ih =>
      cases i with
      | zero =>
          obtain rfl : a = none := by simpa using h
          simp
      | succ i =>
          have hl := ih (by simpa using h)
          cases a with
          | none => simpa using hl
          | some y =>
              simp only [List.set_cons_succ, List.reduceOption_cons_of_some]
              exact (hl.cons y).trans (List.Perm.swap x y _)

section Insertion

variable {codes codes' : α → HashCode → Prop} {t : Table α} {x : α} {k : HashCode} {i : ℕ}

@[simp] theorem capacity_insertAt : (t.insertAt i k x).capacity = t.capacity := by
  simp [insertAt, capacity]

@[simp] theorem size_insertAt : (t.insertAt i k x).size = t.size + 1 := by
  simp [insertAt, size]

@[simp] theorem home_insertAt (k' : HashCode) : (t.insertAt i k x).home k' = t.home k' := by
  simp [home]

theorem home_lt (room : t.size < t.capacity) (k : HashCode) : t.home k < t.slots.size :=
  Nat.mod_lt _ (Nat.zero_lt_of_lt room)

theorem placed_blank (size : ℕ) : (blank size : Table α).Placed codes where
  held := by simp [blank]
  reached i x h := by simp [blank, Array.getElem?_replicate] at h
  summed := ⟨[], by simp [blank, HashCode.empty]⟩

theorem Placed.mem_elements (h : t.Placed codes) (hx : t.slots[i]? = some (some x)) :
    x ∈ t.elements := by
  have hmem : some x ∈ t.slots.toList := by
    simpa using Array.mem_of_getElem? hx
  simpa using h.held.mem_iff.mp (List.reduceOption_mem_iff.mpr hmem)

theorem Placed.exists_slot (h : t.Placed codes) (hx : x ∈ t.elements) :
    ∃ i : ℕ, t.slots[i]? = some (some x) := by
  have hmem := List.reduceOption_mem_iff.mp (h.held.mem_iff.mpr (by simpa using hx))
  obtain ⟨i, hi⟩ := List.mem_iff_getElem?.mp hmem
  exact ⟨i, by simpa using hi⟩

theorem Placed.mono (h : t.Placed codes) (hc : ∀ x ∈ t.elements, ∀ k, codes x k → codes' x k) :
    t.Placed codes' where
  held := h.held
  reached i x hx := by
    obtain ⟨k, hk, hi⟩ := h.reached i x hx
    exact ⟨k, hc x (h.mem_elements hx) k hk, hi⟩
  summed := by
    obtain ⟨ks, hks, hsum⟩ := h.summed
    rw [List.forall₂_iff_zip] at hks
    refine ⟨ks, List.forall₂_iff_zip.mpr ⟨hks.1, fun hxk => ?_⟩, hsum⟩
    exact hc _ (by simpa using (List.of_mem_zip hxk).1) _ (hks.2 hxk)

/-- The run from the home slot of a stored element's code holds the element. -/
theorem Placed.mem_occupied (h : t.Placed codes) (room : t.size < t.capacity)
    (hx : x ∈ t.elements) :
    ∃ k, codes x k ∧ x ∈ occupied t.slots t.capacity (t.home k) := by
  obtain ⟨i, hi⟩ := h.exists_slot hx
  obtain ⟨k, hk, d, hd, rfl⟩ := h.reached i x hi
  exact ⟨k, hk, (mem_occupied_iff (home_lt room k)).mpr ⟨d, hd, hi⟩⟩

theorem Placed.mem_of_occupied (h : t.Placed codes) (room : t.size < t.capacity)
    (hx : x ∈ occupied t.slots t.capacity (t.home k)) : x ∈ t.elements := by
  obtain ⟨d, -, hd⟩ := (mem_occupied_iff (home_lt room k)).mp hx
  exact h.mem_elements hd

/-- Not all slots hold elements if there are more slots than elements. -/
theorem Placed.free (h : t.Placed codes) (room : t.size < t.capacity) :
    ∃ i < t.slots.size, ¬Held t.slots i := by
  have hlen : t.slots.toList.reduceOption.length < t.slots.toList.length := by
    rw [h.held.length_eq]
    simpa [size, capacity] using room
  obtain ⟨i, hi⟩ := List.mem_iff_getElem?.mp (List.reduceOption_length_lt_iff.mp hlen)
  rw [Array.getElem?_toList] at hi
  refine ⟨i, (Array.getElem?_eq_some_iff.mp hi).1, ?_⟩
  rintro ⟨x, hx⟩
  simp [hi] at hx

theorem held_setIfInBounds {slots : Array (Option α)} {j : ℕ} (hi : i < slots.size) :
    Held (slots.setIfInBounds i (some x)) j ↔ j = i ∨ Held slots j := by
  unfold Held
  rw [Array.getElem?_setIfInBounds]
  by_cases hij : i = j
  · subst j
    simp [hi]
  · simp [hij, Ne.symm hij]

theorem Placed.getElem?_stop (h : t.Placed codes) (room : t.size < t.capacity) (k : HashCode) :
    t.slots[stop t.slots t.capacity (t.home k)]? = some none := by
  have hhome := home_lt room k
  have hstop : stop t.slots t.capacity (t.home k) < t.slots.size := Nat.mod_lt _ (by omega)
  have hnot := not_held_stop hhome (h.free room)
  rw [Array.getElem?_eq_getElem hstop, Option.some.injEq, Option.eq_none_iff_forall_ne_some]
  intro y hy
  exact hnot ⟨y, by rw [← hy]; exact Array.getElem?_eq_getElem hstop⟩

/-- Filling a slot takes no other slot out of a run. -/
theorem Reaches.insertAt {j : ℕ} {k' : HashCode} (h : t.Reaches k' j)
    (room : t.size < t.capacity) (hi : i < t.slots.size) :
    (t.insertAt i k x).Reaches k' j := by
  obtain ⟨d, hd, hj⟩ := h
  have hslots : (t.insertAt i k x).slots = t.slots.setIfInBounds i (some x) := rfl
  have hsize : (t.slots.setIfInBounds i (some x)).size = t.slots.size := by simp
  have hheld : ∀ j, Held t.slots j → Held (t.slots.setIfInBounds i (some x)) j :=
    fun j hj => (held_setIfInBounds hi).mpr (Or.inr hj)
  refine ⟨d, ?_, by rwa [home_insertAt, capacity_insertAt]⟩
  rw [home_insertAt, capacity_insertAt, hslots]
  exact length_occupied_mono hsize hheld (home_lt room k') hd

/-- The slot behind a run joins it once it is filled. -/
theorem Placed.reaches_stop (h : t.Placed codes) (room : t.size < t.capacity)
    (hi : stop t.slots t.capacity (t.home k) = i) : (t.insertAt i k x).Reaches k i := by
  have hhome := home_lt room k
  have hlen := length_occupied_lt hhome (h.free room)
  have hstop : i < t.slots.size := hi ▸ Nat.mod_lt _ (by omega)
  have hslots : (t.insertAt i k x).slots = t.slots.setIfInBounds i (some x) := rfl
  have hsize : (t.slots.setIfInBounds i (some x)).size = t.slots.size := by simp
  rw [Reaches, home_insertAt, capacity_insertAt, hslots]
  refine ⟨(occupied t.slots t.capacity (t.home k)).length, ?_, hi⟩
  apply (lt_length_occupied_iff (by rw [hsize]; exact hhome)).mpr
  refine ⟨hlen, fun j hj => (held_setIfInBounds hstop).mpr ?_⟩
  rw [hsize]
  rcases Nat.lt_or_eq_of_le hj with hlt | rfl
  · exact Or.inr (((lt_length_occupied_iff hhome).mp hlt).2 j le_rfl)
  · exact Or.inl hi

/-- An element that is added behind the run of its code is well placed, and no other is less so. -/
theorem Placed.insertAt (h : t.Placed codes) (room : t.size < t.capacity) (hk : codes x k) :
    (t.insertAt (stop t.slots t.capacity (t.home k)) k x).Placed codes := by
  have hfree := h.getElem?_stop room k
  have hreach : (t.insertAt _ k x).Reaches k _ := h.reaches_stop room rfl
  generalize stop t.slots t.capacity (t.home k) = i at *
  have hi : i < t.slots.size := (Array.getElem?_eq_some_iff.mp hfree).1
  constructor
  · have hperm := perm_reduceOption_set x (l := t.slots.toList) (i := i) (by simpa using hfree)
    simp only [Table.insertAt, Array.toList_setIfInBounds, Array.toList_push]
    exact (hperm.trans (h.held.cons x)).trans (List.perm_append_singleton x _).symm
  · intro j y hy
    -- the element came last, or it was there and no run has become shorter
    by_cases hij : j = i
    · subst j
      obtain rfl : x = y := by
        simpa [Table.insertAt, Array.getElem?_setIfInBounds, hi] using hy
      exact ⟨k, hk, hreach⟩
    · have hold : t.slots[j]? = some (some y) := by
        simpa [Table.insertAt, Array.getElem?_setIfInBounds, Ne.symm hij] using hy
      obtain ⟨k', hk', hreached⟩ := h.reached j y hold
      exact ⟨k', hk', hreached.insertAt room hi⟩
  · obtain ⟨ks, hks, hsum⟩ := h.summed
    refine ⟨ks ++ [k], ?_, ?_⟩
    · simpa [Table.insertAt] using List.rel_append hks (.cons hk .nil)
    · simp [Table.insertAt, hsum]

end Insertion

/-- A table on the way to its limit, whose elements have codes that were given between `b` and
`c`. At the limit it still has a free slot. -/
structure Loaded (E : Equivalence α) (b c : IdentityCodes) (limit : ℕ) (t : Table α) : Prop where
  le : b ≤ c
  placed : t.Placed (E.Gave b c)
  size_le : t.size ≤ limit
  room : limit < t.capacity

section Fill

variable {E : Equivalence α} {b c d : IdentityCodes} {limit i : ℕ} {t t' : Table α} {x : α}
  {k : HashCode}

theorem loaded_blank {size : ℕ} (hbc : b ≤ c) (h : limit < size) :
    (blank size : Table α).Loaded E b c limit where
  le := hbc
  placed := placed_blank size
  size_le := by simp [blank, Table.size]
  room := by simpa [blank, capacity] using h

theorem Loaded.mono (h : t.Loaded E b c limit) (hcd : c ≤ d) : t.Loaded E b d limit where
  le := h.le.trans hcd
  placed := h.placed.mono fun _ _ _ hk => hk.mono hcd
  size_le := h.size_le
  room := h.room

theorem Loaded.size_lt (h : t.Loaded E b c limit) : t.size < t.capacity :=
  h.size_le.trans_lt h.room

/-- The search for a slot is never cut short: it ends at a free slot before its steps are used up,
and with more steps it would end alike. -/
theorem Loaded.search_of_capacity_le (h : t.Loaded E b c limit) {n : ℕ} (hn : t.capacity ≤ n)
    (k : HashCode) (x : α) :
    search t.slots (E.equal · x) n (t.home k) = t.slotFor? E k x :=
  search_of_le (length_occupied_lt (home_lt h.size_lt k) (h.placed.free h.size_lt)) hn

theorem Loaded.insertAt (h : t.Loaded E b c limit) (hsize : t.size ≠ limit)
    (hk : E.Gave b c x k) :
    (t.insertAt (stop t.slots t.capacity (t.home k)) k x).Loaded E b c limit where
  le := h.le
  placed := h.placed.insertAt h.size_lt hk
  size_le := by
    have := h.size_le
    rw [size_insertAt]
    omega
  room := by simpa using h.room

theorem keeps_slotFor? {P : IdentityCodes → Prop} (h : E.Keeps P) (k : HashCode) (x : α) :
    Keeps P (t.slotFor? E k x) :=
  keeps_search (fun _ y _ => h.equal y x) _ _

theorem grows_slotFor? (grows : E.Grows) (k : HashCode) (x : α) : (t.slotFor? E k x).Grows :=
  Action.grows_iff.mpr fun b => keeps_slotFor? (Matching.grows_iff.mp grows b) k x

theorem fill_some (candidates : List (Option α)) :
    fill E limit i (some x :: candidates) t =
      (E.code x >>= fun k => t.slotFor? E k x >>= fun slot? =>
        match slot? with
        | none => fill E limit (i + 1) candidates t
        | some slot =>
          if t.size = limit then pure none
          else fill E limit (i + 1) candidates (t.insertAt slot k x)) := rfl

theorem keeps_fill {P : IdentityCodes → Prop} (h : E.Keeps P) (candidates : List (Option α)) :
    Keeps P (fill E limit i candidates t) := by
  induction candidates generalizing i t with
  | nil => exact .pure _
  | cons candidate candidates ih =>
      cases candidate with
      | none => exact .throw _
      | some x =>
          rw [fill_some]
          refine (h.code x).bind fun k => (keeps_slotFor? h k x).bind fun slot? => ?_
          cases slot? with
          | none => exact ih
          | some slot =>
              dsimp only
              split
              · exact .pure _
              · exact ih

theorem grows_fill (grows : E.Grows) (candidates : List (Option α)) :
    (fill E limit i candidates t).Grows :=
  Action.grows_iff.mpr fun b => keeps_fill (Matching.grows_iff.mp grows b) candidates

/-- What one candidate does on the way to a table: nothing, or it is added to the last slot of the
search, or it is one too many. -/
theorem fill_some_cases {candidates : List (Option α)} {t? : Option (Table α)}
    (h : fill E limit i (some x :: candidates) t c = .ok t? d) :
    ∃ k e slot? e', E.code x c = .ok k e ∧ t.slotFor? E k x e = .ok slot? e' ∧
      (slot? = none ∧ fill E limit (i + 1) candidates t e' = .ok t? d ∨
        ∃ slot, slot? = some slot ∧ (t.size = limit ∧ t? = none ∨ t.size ≠ limit ∧
          fill E limit (i + 1) candidates (t.insertAt slot k x) e' = .ok t? d)) := by
  rw [fill_some, Action.bind_eq_ok] at h
  obtain ⟨k, e, hk, h⟩ := h
  rw [Action.bind_eq_ok] at h
  obtain ⟨slot?, e', hslot, h⟩ := h
  refine ⟨k, e, slot?, e', hk, hslot, ?_⟩
  cases slot? with
  | none => exact Or.inl ⟨rfl, h⟩
  | some slot =>
      dsimp only at h
      split at h
      · next hsize => exact Or.inr ⟨slot, rfl, Or.inl ⟨hsize, (Action.pure_eq_ok.mp h).1.symm⟩⟩
      · next hsize => exact Or.inr ⟨slot, rfl, Or.inr ⟨hsize, h⟩⟩

theorem fill_some_eq_ok {candidates : List (Option α)}
    (h : fill E limit i (some x :: candidates) t c = .ok (some t') d) :
    ∃ k e slot? e', E.code x c = .ok k e ∧ t.slotFor? E k x e = .ok slot? e' ∧
      (slot? = none ∧ fill E limit (i + 1) candidates t e' = .ok (some t') d ∨
        ∃ slot, slot? = some slot ∧ t.size ≠ limit ∧
          fill E limit (i + 1) candidates (t.insertAt slot k x) e' = .ok (some t') d) := by
  obtain ⟨k, e, slot?, e', hk, hslot, hdrop | ⟨slot, hsome, ⟨-, hnone⟩ | hadd⟩⟩ :=
    fill_some_cases h
  · exact ⟨k, e, slot?, e', hk, hslot, Or.inl hdrop⟩
  · cases hnone
  · exact ⟨k, e, slot?, e', hk, hslot, Or.inr ⟨slot, hsome, hadd⟩⟩

/-- What every candidate keeps, whether it is dropped or added, holds of a table that was filled. -/
theorem fill_induction {P : IdentityCodes → Table α → Prop} {candidates : List (Option α)}
    (h : fill E limit i candidates t c = .ok (some t') d) (init : P c t)
    (drop : ∀ {c t x k e e'}, P c t → E.code x c = .ok k e →
      t.slotFor? E k x e = .ok none e' → P e' t)
    (add : ∀ {c t x k e slot e'}, P c t → E.code x c = .ok k e →
      t.slotFor? E k x e = .ok (some slot) e' → t.size ≠ limit → P e' (t.insertAt slot k x)) :
    P d t' := by
  induction candidates generalizing i t c with
  | nil =>
      rw [fill, Action.pure_eq_ok, Option.some.injEq] at h
      obtain ⟨rfl, rfl⟩ := h
      exact init
  | cons candidate candidates ih =>
      cases candidate with
      | none => cases h
      | some x =>
          obtain ⟨k, e, slot?, e', hk, hslot, hfill⟩ := fill_some_eq_ok h
          obtain ⟨rfl, h⟩ | ⟨slot, rfl, hsize, h⟩ := hfill
          · exact ih h (drop init hk hslot)
          · exact ih h (add init hk hslot hsize)

/-- Only a candidate that comes when the table is at its limit is one too many. -/
theorem limit_lt_of_fill {candidates : List (Option α)}
    (h : fill E limit i candidates t c = .ok none d) : limit < t.size + candidates.length := by
  induction candidates generalizing i t c with
  | nil => cases (Action.pure_eq_ok.mp h).1
  | cons candidate candidates ih =>
      rw [List.length_cons]
      cases candidate with
      | none => cases h
      | some x =>
          obtain ⟨k, e, slot?, e', -, -, ⟨-, h⟩ | ⟨slot, -, ⟨hsize, -⟩ | ⟨-, h⟩⟩⟩ :=
            fill_some_cases h
          · have := ih h
            omega
          · omega
          · have := ih h
            rw [size_insertAt] at this
            omega

/-- The number of slots stays what it was. -/
theorem capacity_of_fill {candidates : List (Option α)}
    (h : fill E limit i candidates t c = .ok (some t') d) : t'.capacity = t.capacity :=
  fill_induction (P := fun _ t' => t'.capacity = t.capacity) h rfl (fun ht _ _ => ht)
    fun ht _ _ _ => capacity_insertAt.trans ht

/-- A table gets larger by some of the candidates, in their order. -/
theorem sublist_of_fill {candidates : List (Option α)}
    (h : fill E limit i candidates t c = .ok (some t') d) :
    ∃ xs, xs.Sublist candidates.reduceOption ∧ t'.elements.toList = t.elements.toList ++ xs := by
  induction candidates generalizing i t c with
  | nil =>
      rw [fill, Action.pure_eq_ok, Option.some.injEq] at h
      exact ⟨[], List.nil_sublist _, by rw [h.1, List.append_nil]⟩
  | cons candidate candidates ih =>
      cases candidate with
      | none => cases h
      | some x =>
          obtain ⟨k, e, slot?, e', -, -, hfill⟩ := fill_some_eq_ok h
          rw [List.reduceOption_cons_of_some]
          obtain ⟨-, h⟩ | ⟨slot, -, -, h⟩ := hfill
          · obtain ⟨xs, hxs, helements⟩ := ih h
            exact ⟨xs, hxs.cons x, helements⟩
          · obtain ⟨xs, hxs, helements⟩ := ih h
            have hinsert : (t.insertAt slot k x).elements.toList = t.elements.toList ++ [x] :=
              Array.toList_push
            refine ⟨x :: xs, hxs.cons_cons x, ?_⟩
            rw [helements, hinsert, List.append_assoc, List.singleton_append]

theorem Loaded.drop {e e' : IdentityCodes} {slot? : Option ℕ} (grows : E.Grows)
    (h : t.Loaded E b c limit) (hk : E.code x c = .ok k e)
    (hslot : t.slotFor? E k x e = .ok slot? e') : t.Loaded E b e' limit :=
  h.mono (((grows.code x).le hk).trans ((grows_slotFor? grows k x).le hslot))

theorem Loaded.add {e e' : IdentityCodes} {slot : ℕ} (grows : E.Grows)
    (h : t.Loaded E b c limit) (hk : E.code x c = .ok k e)
    (hslot : t.slotFor? E k x e = .ok (some slot) e') (hsize : t.size ≠ limit) :
    (t.insertAt slot k x).Loaded E b e' limit := by
  have hgave : E.Gave b e' x k := ⟨c, e, h.le, (grows_slotFor? grows k x).le hslot, hk⟩
  obtain rfl := eq_stop_of_search (home_lt h.size_lt k) hslot
  exact (h.drop grows hk hslot).insertAt hsize hgave

/-- Whatever the equivalence answers, a table that was filled is well placed. -/
theorem loaded_of_fill (grows : E.Grows) {candidates : List (Option α)}
    (h : fill E limit i candidates t c = .ok (some t') d) (ht : t.Loaded E b c limit) :
    t'.Loaded E b d limit :=
  fill_induction (P := fun c t => t.Loaded E b c limit) h ht
    (fun ht hk hslot => ht.drop grows hk hslot)
    (fun ht hk hslot hsize => ht.add grows hk hslot hsize)

end Fill

section Building

variable {E : Equivalence α} {c d : IdentityCodes} {t : Table α} {checked : Bool}
  {expected : Option Binary64} {candidates : List (Option α)}

theorem ofCandidates_eq :
    ofCandidates checked E expected candidates =
      (liftM (sizeFor checked (expectation expected candidates.length)) >>= fun size =>
        ofSize? E candidates size >>= fun t? =>
          match t? with
          | some t => pure t
          | _ =>
            liftM (sizeFor checked (.ofNat candidates.length)) >>= fun size =>
              ofSize? E candidates size >>= fun t? =>
                match t? with
                | some t => pure t
                | _ => throw (.capacityExceeded (.ofNat candidates.length))) := rfl

theorem keeps_ofCandidates {P : IdentityCodes → Prop} (h : E.Keeps P) :
    Keeps P (ofCandidates checked E expected candidates) := by
  rw [ofCandidates_eq]
  refine (Keeps.lift _).bind fun size => (keeps_fill h candidates).bind fun t? => ?_
  cases t? with
  | some t => exact .pure t
  | none =>
      refine (Keeps.lift _).bind fun size => (keeps_fill h candidates).bind fun t? => ?_
      cases t? with
      | some t => exact .pure t
      | none => exact .throw _

/-- An attempt is given up only with more candidates than the limit. -/
theorem limit_lt_of_ofSize? {size : ℕ} (h : ofSize? E candidates size c = .ok none d) :
    limit size < candidates.length := by
  have hlt := limit_lt_of_fill h
  simpa [blank, Table.size] using hlt

/-- If the hint fits, a build ends as its attempts do that are not given up. -/
theorem ofCandidates_of_attempts {P : EStateM.Result Failure IdentityCodes (Table α) → Prop}
    (grows : E.Grows) (len : candidates.length ≤ limit maxSize)
    (fits : HintFits checked expected candidates.length)
    (attempt : ∀ size d, limit size < size → c ≤ d →
      (∃ e, ofSize? E candidates size d = .ok none e) ∨
      (∃ t e, ofSize? E candidates size d = .ok (some t) e ∧ P (.ok t e)) ∨
      ∃ failure e, ofSize? E candidates size d = .error failure e ∧ P (.error failure e)) :
    P (ofCandidates checked E expected candidates c) := by
  obtain ⟨size, hsize⟩ := exists_sizeFor_expectation len fits
  obtain ⟨size', hsize'⟩ := sizeFor_count checked len
  rw [ofCandidates_eq, hsize, Action.lift_ok_bind]
  obtain ⟨d, hfirst⟩ | ⟨t, d, hfirst, hP⟩ | ⟨failure, d, hfirst, hP⟩ :=
    attempt size c (limit_lt_of_sizeFor hsize) le_rfl
  · rw [Action.bind_of_ok hfirst]
    dsimp only
    rw [hsize', Action.lift_ok_bind]
    obtain ⟨e, hsecond⟩ | ⟨t, e, hsecond, hP⟩ | ⟨failure, e, hsecond, hP⟩ :=
      attempt size' d (limit_lt_of_sizeFor hsize') ((grows_fill grows candidates).le hfirst)
    · -- the second attempt has room for all candidates
      have hlt := limit_lt_of_ofSize? hsecond
      have hle := le_limit_of_sizeFor hsize'
      omega
    · rwa [Action.bind_of_ok hsecond]
    · rwa [Action.bind_of_error hsecond]
  · rwa [Action.bind_of_ok hfirst]
  · rwa [Action.bind_of_error hfirst]

/-- A table that was built was filled at one attempt. -/
theorem ofSize?_of_ofCandidates (grows : E.Grows)
    (h : ofCandidates checked E expected candidates c = .ok t d) :
    ∃ count size e, sizeFor checked count = .ok size ∧ c ≤ e ∧
      ofSize? E candidates size e = .ok (some t) d := by
  rw [ofCandidates_eq, Action.bind_eq_ok] at h
  obtain ⟨size, e, hsize, h⟩ := h
  obtain ⟨hok, rfl⟩ := Action.lift_eq_ok.mp hsize
  rw [Action.bind_eq_ok] at h
  obtain ⟨t?, e, hfill, h⟩ := h
  cases t? with
  | some t' =>
      obtain ⟨rfl, rfl⟩ := Action.pure_eq_ok.mp h
      exact ⟨_, size, c, hok, le_rfl, hfill⟩
  | none =>
      dsimp only at h
      rw [Action.bind_eq_ok] at h
      obtain ⟨size', e', hsize', h⟩ := h
      obtain ⟨hok', rfl⟩ := Action.lift_eq_ok.mp hsize'
      rw [Action.bind_eq_ok] at h
      obtain ⟨t?, e', hfill', h⟩ := h
      cases t? with
      | none => cases h
      | some t' =>
          obtain ⟨rfl, rfl⟩ := Action.pure_eq_ok.mp h
          exact ⟨_, size', e, hok', (grows_fill grows candidates).le hfill, hfill'⟩

theorem loaded_of_ofCandidates (grows : E.Grows)
    (h : ofCandidates checked E expected candidates c = .ok t d) :
    ∃ limit, t.Loaded E c d limit := by
  obtain ⟨_, size, e, hsize, hce, hfill⟩ := ofSize?_of_ofCandidates grows h
  exact ⟨limit size, loaded_of_fill grows hfill (loaded_blank hce (limit_lt_of_sizeFor hsize))⟩

theorem sublist_of_ofCandidates (grows : E.Grows)
    (h : ofCandidates checked E expected candidates c = .ok t d) :
    t.elements.toList.Sublist candidates.reduceOption := by
  obtain ⟨_, size, e, -, -, hfill⟩ := ofSize?_of_ofCandidates grows h
  obtain ⟨xs, hxs, helements⟩ := sublist_of_fill hfill
  rw [helements]
  exact hxs

/-- Every element was a candidate. -/
theorem mem_of_ofCandidates {x : α} (grows : E.Grows)
    (h : ofCandidates checked E expected candidates c = .ok t d) (hx : x ∈ t.elements.toList) :
    some x ∈ candidates :=
  List.reduceOption_mem_iff.mp ((sublist_of_ofCandidates grows h).mem hx)

end Building
end SealedSets.Table
