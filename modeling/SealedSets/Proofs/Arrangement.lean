import Mathlib.Logic.Function.Iterate
import SealedSets.Proofs.Filling

/-!
# The arrangement of tables

What holds of every table that was built, even if its equivalence contradicts itself or the hash
codes: every entry has one slot, and from the home slot of an entry on no slot before its own is
free. Slot numbers are counted on with a bit mask, as the number of slots is a power of two.
-/
namespace SealedSets.Table

variable {α : Type}

/-- The bits of a slot number. -/
def mask (t : Table α) : ℕ := t.capacity - 1

/-- The slot that is looked at after slot `i`. -/
def next (t : Table α) (i : ℕ) : ℕ := (i + 1) &&& t.mask

/-- The entries lie in these slots, in the order of their arrival, and nothing lies elsewhere. -/
structure Placing (t : Table α) (places : List ℕ) : Prop where
  nodup : places.Nodup
  stored : List.Forall₂ (fun x i => t.slots[i]? = some (some x)) t.elements.toList places
  mem : ∀ i, Held t.slots i → i ∈ places

/-- The layout of a table whose elements have codes of these. -/
structure Arranged (codes : α → HashCode → Prop) (t : Table α) : Prop where
  capacity : ∃ k, 1 ≤ k ∧ k ≤ 30 ∧ t.capacity = 2 ^ k
  placing : ∃ places, t.Placing places
  size_le : t.size ≤ limit t.capacity
  room : limit t.capacity < t.capacity
  free : ∃ i < t.capacity, ¬Held t.slots i
  home : ∀ k, t.home k = (HashCode.spread k).toNat &&& t.mask
  step : ∀ i, (i + 1) % t.slots.size = t.next i
  /-- the walk from the home slot of a stored element comes to its slot over occupied slots only -/
  gapless : ∀ j x, t.slots[j]? = some (some x) → ∃ k, codes x k ∧
    ∃ d, t.next^[d] (t.home k) = j ∧ ∀ i ≤ d, Held t.slots (t.next^[i] (t.home k))

section Masks

variable {t : Table α} {k : ℕ}

theorem and_mask (hk : t.capacity = 2 ^ k) (n : ℕ) : n &&& t.mask = n % t.capacity := by
  rw [mask, hk, Nat.and_two_pow_sub_one_eq_mod]

theorem iterate_next (hk : t.capacity = 2 ^ k) {i : ℕ} (hi : i < t.capacity) (d : ℕ) :
    t.next^[d] i = (i + d) % t.capacity := by
  induction d with
  | zero => exact (Nat.mod_eq_of_lt hi).symm
  | succ d ih =>
      rw [Function.iterate_succ_apply', ih, next, and_mask hk, Nat.mod_add_mod, Nat.add_assoc]

/-- The slots of a run are those that the walk comes to. -/
theorem Reaches.walk {code : HashCode} {j : ℕ} (h : t.Reaches code j) (hk : t.capacity = 2 ^ k) :
    ∃ d, t.next^[d] (t.home code) = j ∧ ∀ i ≤ d, Held t.slots (t.next^[i] (t.home code)) := by
  obtain ⟨d, hd, hj⟩ := h
  have hhome : t.home code < t.capacity := Nat.mod_lt _ (hk ▸ Nat.two_pow_pos k)
  refine ⟨d, (iterate_next hk hhome d).trans hj, fun i hi => ?_⟩
  rw [iterate_next hk hhome]
  exact ((lt_length_occupied_iff hhome).mp hd).2 i hi

end Masks

section Placings

variable {t : Table α} {places : List ℕ} {x : α} {k : HashCode} {i : ℕ}

theorem placing_blank (size : ℕ) : (blank size : Table α).Placing [] where
  nodup := List.nodup_nil
  stored := .nil
  mem i h := by
    obtain ⟨x, hx⟩ := h
    simp [blank, Array.getElem?_replicate] at hx

/-- A new entry gets the slot that is filled, which was no other entry's. -/
theorem Placing.insertAt (h : t.Placing places) (hi : t.slots[i]? = some none) :
    (t.insertAt i k x).Placing (places ++ [i]) := by
  have hbound : i < t.slots.size := (Array.getElem?_eq_some_iff.mp hi).1
  have hslots : (t.insertAt i k x).slots = t.slots.setIfInBounds i (some x) := rfl
  have helements : (t.insertAt i k x).elements.toList = t.elements.toList ++ [x] :=
    Array.toList_push
  have hne : ∀ y j, t.slots[j]? = some (some y) → i ≠ j := by
    rintro y _ hy rfl
    rw [hi] at hy
    cases hy
  constructor
  · refine List.nodup_append.mpr ⟨h.nodup, List.nodup_singleton i, fun j hj i' hi' hji => ?_⟩
    obtain ⟨y, -, hy⟩ := exists_of_forall₂ h.stored hj
    exact hne y j hy ((List.mem_singleton.mp hi').symm.trans hji.symm)
  · rw [helements]
    refine List.rel_append (h.stored.imp fun y j hy => ?_) (.cons ?_ .nil)
    · rw [hslots, Array.getElem?_setIfInBounds_ne (hne y j hy), hy]
    · rw [hslots, Array.getElem?_setIfInBounds_self_of_lt hbound]
  · intro j hj
    rw [hslots, held_setIfInBounds hbound] at hj
    rcases hj with rfl | hj
    · simp
    · exact List.mem_append_left [i] (h.mem j hj)

end Placings

section Building

variable {E : Equivalence α} {c d : IdentityCodes} {t t' : Table α} {checked : Bool}
  {expected : Option Binary64} {candidates : List (Option α)} {limit i size : ℕ} {x : α}

/-- There is nothing to compare the first candidate with. -/
theorem head?_of_fill (hsize : 0 < size)
    (h : fill E limit i (some x :: candidates) (blank size) c = .ok (some t) d) :
    t.elements.toList.head? = some x := by
  obtain ⟨k, e, slot?, e', -, hslot, hfill⟩ := fill_some_eq_ok h
  have hfree : ¬Held (blank size : Table α).slots ((blank size : Table α).home k) := by
    rintro ⟨y, hy⟩
    simp [blank, Array.getElem?_replicate] at hy
  obtain ⟨n, hn⟩ : ∃ n, (blank size : Table α).capacity = n + 1 :=
    ⟨size - 1, by simp [blank, capacity]; omega⟩
  rw [slotFor?, hn, search_of_not_held hfree, Action.pure_eq_ok] at hslot
  obtain ⟨rfl, -⟩ := hslot
  obtain ⟨hnone, -⟩ | ⟨slot, -, -, h⟩ := hfill
  · cases hnone
  · obtain ⟨xs, -, helements⟩ := sublist_of_fill h
    rw [helements]
    simp [insertAt, blank]

/-- What every candidate keeps of the arrangement: the number of slots, and a slot for each
entry. -/
theorem placing_of_fill (grows : E.Grows) {b : IdentityCodes}
    (h : fill E limit i candidates t c = .ok (some t') d) (ht : t.Loaded E b c limit)
    (hp : ∃ places, t.Placing places) :
    t'.capacity = t.capacity ∧ ∃ places, t'.Placing places := by
  refine (fill_induction (P := fun c' t' => t'.Loaded E b c' limit ∧ t'.capacity = t.capacity ∧
    ∃ places, t'.Placing places) h ⟨ht, rfl, hp⟩ ?_ ?_).2
  · rintro c t x k e e' ⟨ht, hp⟩ hk hslot
    exact ⟨ht.drop grows hk hslot, hp⟩
  · rintro c t x k e slot e' ⟨ht, hcapacity, places, hp⟩ hk hslot hsize
    refine ⟨ht.add grows hk hslot hsize, capacity_insertAt.trans hcapacity, places ++ [slot], ?_⟩
    obtain rfl := eq_stop_of_search (home_lt ht.size_lt k) hslot
    exact hp.insertAt (ht.placed.getElem?_stop ht.size_lt k)

/-- Whatever the equivalence answers, a table is arranged as its lookups expect it to be. -/
theorem arranged_gave (grows : E.Grows)
    (h : ofCandidates checked E expected candidates c = .ok t d) : t.Arranged (E.Gave c d) := by
  obtain ⟨_, size, e, hsize, hce, hfill⟩ := ofSize?_of_ofCandidates grows h
  have hblank := loaded_blank (E := E) hce (limit_lt_of_sizeFor hsize)
  have hload := loaded_of_fill grows hfill hblank
  obtain ⟨hcapacity, hplacing⟩ := placing_of_fill grows hfill hblank ⟨[], placing_blank size⟩
  obtain rfl : t.capacity = size := hcapacity.trans (by simp [blank, capacity])
  obtain ⟨k, hk, hk', hpow⟩ := eq_two_pow_of_sizeFor hsize
  exact {
    capacity := ⟨k, hk, hk', hpow⟩
    placing := hplacing
    size_le := hload.size_le
    room := hload.room
    free := hload.placed.free hload.size_lt
    home := fun k => (and_mask hpow _).symm
    step := fun i => (and_mask hpow _).symm
    gapless := fun j x hx => by
      obtain ⟨k, hcode, hreached⟩ := hload.placed.reached j x hx
      exact ⟨k, hcode, hreached.walk hpow⟩ }

variable {accepts : α → Except Failure Bool} {equal : α → α → Except Failure Bool}
  {hash : α → Except Failure Binary64} {family : ℕ} {xs : List α}

/-- Every table that is built is arranged by the hash codes of its elements, and its elements are
some of the candidates, the first one among them, whether or not equality is a relation of any
kind. -/
theorem arranged_of_ofCandidates
    (h : ofCandidates checked (.ofPartial accepts equal hash family) expected (xs.map some) c =
      .ok t d) :
    t.Arranged (fun x k => (hash x).map Binary64.toHashCode = .ok k) ∧
      t.elements.toList.Sublist xs ∧ t.elements.toList.head? = xs.head? := by
  have grows : (Equivalence.ofPartial accepts equal hash family).Grows :=
    Equivalence.grows_ofPartial
  have arranged := arranged_gave grows h
  have sublist : t.elements.toList.Sublist xs := by
    simpa [List.reduceOption] using sublist_of_ofCandidates grows h
  refine ⟨{ arranged with gapless := fun j x hx => ?_ }, sublist, ?_⟩
  · obtain ⟨k, hk, hwalk⟩ := arranged.gapless j x hx
    exact ⟨k, Equivalence.gave_ofPartial hk, hwalk⟩
  · cases xs with
    | nil => rw [List.sublist_nil.mp sublist]
    | cons x xs =>
        obtain ⟨_, size, e, hsize, -, hfill⟩ := ofSize?_of_ofCandidates grows h
        exact head?_of_fill (Nat.zero_lt_of_lt (limit_lt_of_sizeFor hsize)) hfill

set_option maxRecDepth 4000 in
/-- Here a value is equal to all others and not to itself. The hint is too small, and the second of
two like entries lies behind the end of the table. -/
theorem arranged_of_ofCandidates_unlike :
    ∃ t d, ofCandidates true
        (.ofPartial (fun _ => .ok true) (fun x y : ℕ => .ok (x != y)) (fun x => .ok (.ofNat x)) 0)
        (some (.ofNat 0)) ([7, 7].map some) {} = .ok t d ∧
      t.slots = #[some 7, none, none, some 7] ∧
      t.Arranged (fun x k => (Except.ok (Binary64.ofNat x)).map Binary64.toHashCode =
        (.ok k : Except Failure HashCode)) ∧
      t.elements.toList.Sublist [7, 7] ∧ t.elements.toList.head? = [7, 7].head? := by
  have h : ofCandidates true
      (.ofPartial (fun _ => .ok true) (fun x y : ℕ => .ok (x != y)) (fun x => .ok (.ofNat x)) 0)
      (some (.ofNat 0)) ([7, 7].map some) {} =
        .ok ⟨#[7, 7], #[some 7, none, none, some 7], 14#32⟩ {} := rfl
  exact ⟨_, _, h, rfl, arranged_of_ofCandidates h⟩

end Building
end SealedSets.Table
