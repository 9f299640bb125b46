import Mathlib.Data.List.Iterate
import SealedSets.Proofs.Arrangement

/-!
# Lookups come to an end

The loop of a lookup counts nothing. Only a free slot, an element that passes or a comparison that
fails ends it. In a table that was built it has one run all the same, for every hash and whatever
the equivalence answers that it is asked with: the slots follow one another round the table, all but
the last of them hold elements, and there are fewer elements than slots.
-/
namespace SealedSets

namespace Table

variable {α β : Type}

/-- What the look at one slot comes to: the answer of the lookup, or nothing yet. -/
def look (t : Table α) (test : α → Action Bool) (i : ℕ) : Action (Option Bool) :=
  match t.slots[i]? with
  | some (some x) => do if ← test x then return some true else return none
  | _ => return some false

/-- The runs of the loop from a slot on: these slots are looked at, one after another. -/
inductive Probes (t : Table α) (test : α → Action Bool) :
    ℕ → List ℕ → IdentityCodes → EStateM.Result Failure IdentityCodes Bool → Prop
  | answer {i : ℕ} {answer : Bool} {c d : IdentityCodes}
      (h : t.look test i c = .ok (some answer) d) : Probes t test i [i] c (.ok answer d)
  | failure {i : ℕ} {failure : Failure} {c d : IdentityCodes}
      (h : t.look test i c = .error failure d) : Probes t test i [i] c (.error failure d)
  | next {i : ℕ} {places : List ℕ} {c d : IdentityCodes}
      {result : EStateM.Result Failure IdentityCodes Bool} (h : t.look test i c = .ok none d)
      (rest : Probes t test (t.next i) places d result) : Probes t test i (i :: places) c result

section Probing

variable {t : Table α} {test : α → Action Bool} {i k m n : ℕ} {places places' : List ℕ} {x : α}
  {c d : IdentityCodes} {result result' : EStateM.Result Failure IdentityCodes Bool}

/-- From one slot there is one run. -/
theorem Probes.unique (h : t.Probes test i places c result)
    (h' : t.Probes test i places' c result') : places' = places ∧ result' = result := by
  induction h generalizing places' with
  | answer h =>
      cases h' with
      | failure h' | next h' => cases h.symm.trans h'
      | answer h' =>
          cases h.symm.trans h'
          exact ⟨rfl, rfl⟩
  | failure h =>
      cases h' with
      | answer h' | next h' => cases h.symm.trans h'
      | failure h' =>
          cases h.symm.trans h'
          exact ⟨rfl, rfl⟩
  | next h rest ih =>
      cases h' with
      | answer h' | failure h' => cases h.symm.trans h'
      | next h' rest' =>
          cases h.symm.trans h'
          obtain ⟨rfl, rfl⟩ := ih rest'
          exact ⟨rfl, rfl⟩

theorem look_of_error {failure : Failure} (hx : t.slots[i]? = some (some x))
    (h : test x c = .error failure d) : t.look test i c = .error failure d := by
  unfold look
  rw [hx]
  exact Action.bind_of_error h

theorem look_of_ok {passed : Bool} (hx : t.slots[i]? = some (some x))
    (h : test x c = .ok passed d) :
    t.look test i c = .ok (if passed then some true else none) d := by
  unfold look
  rw [hx]
  dsimp only
  rw [Action.bind_of_ok h]
  cases passed <;> rfl

theorem look_of_not_held (h : ¬Held t.slots i) : t.look test i = pure (some false) := by
  unfold look
  split
  · next x hx => exact absurd ⟨x, hx⟩ h
  · rfl

/-- Only the comparison with the element in the slot can make a look fail. -/
theorem look_eq_error {failure : Failure} (h : t.look test i c = .error failure d) :
    ∃ x, t.slots[i]? = some (some x) ∧ test x c = .error failure d := by
  by_cases hi : Held t.slots i
  · obtain ⟨x, hx⟩ := hi
    refine ⟨x, hx, ?_⟩
    cases htest : test x c with
    | error failure' d' =>
        cases (look_of_error hx htest).symm.trans h
        rfl
    | ok passed d' => cases (look_of_ok hx htest).symm.trans h
  · rw [look_of_not_held hi] at h
    cases h

/-- A search with more steps than its run has slots is a run of the loop. The induction is on the
steps, and an element that does not pass takes one off both sides. -/
theorem probes_search (test : α → Action Bool) (hk : t.capacity = 2 ^ k) (hi : i < t.capacity)
    (hn : (occupied t.slots n i).length < n) (c : IdentityCodes) :
    ∃ m ≤ (occupied t.slots n i).length, t.Probes test i (List.iterate t.next i (m + 1)) c
      ((search t.slots test n i >>= fun slot? => pure slot?.isNone) c) := by
  induction n generalizing i c with
  | zero => exact absurd hn (Nat.not_lt_zero _)
  | succ n ih =>
      by_cases hx : Held t.slots i
      · obtain ⟨x, hx⟩ := hx
        have hnext : (i + 1) % t.slots.size = t.next i := (and_mask hk (i + 1)).symm
        rw [occupied_of_held hx, List.length_cons] at hn ⊢
        rw [search_of_held hx, bind_assoc]
        cases htest : test x c with
        | error failure d =>
            rw [Action.bind_of_error htest]
            exact ⟨0, Nat.zero_le _, .failure (look_of_error hx htest)⟩
        | ok passed d =>
            rw [Action.bind_of_ok htest]
            have hlook := look_of_ok hx htest
            cases passed with
            | true => exact ⟨0, Nat.zero_le _, .answer hlook⟩
            | false =>
                rw [hnext] at hn ⊢
                obtain ⟨m, hm, hrun⟩ :=
                  ih (hnext ▸ Nat.mod_lt _ (Nat.zero_lt_of_lt hi)) (Nat.lt_of_succ_lt_succ hn) d
                exact ⟨m + 1, Nat.succ_le_succ hm, .next hlook hrun⟩
      · rw [search_of_not_held hx]
        refine ⟨0, Nat.zero_le _, .answer ?_⟩
        rw [look_of_not_held hx]
        rfl

/-- Within one round the walk comes to no slot twice. -/
theorem nodup_walk (hk : t.capacity = 2 ^ k) (hi : i < t.capacity) (hm : m ≤ t.capacity) :
    (List.iterate t.next i m).Nodup := by
  rw [← List.range_map_iterate]
  refine List.nodup_range.map_on fun a ha b hb hab => ?_
  rw [iterate_next hk hi, iterate_next hk hi] at hab
  have hcancel : a ≡ b [MOD t.capacity] := Nat.ModEq.add_left_cancel' i hab
  have ha := (List.mem_range.mp ha).trans_le hm
  have hb := (List.mem_range.mp hb).trans_le hm
  exact hcancel.eq_of_lt_of_lt ha hb

/-- No run has more slots than the table has elements. -/
theorem Placing.length_occupied_le (h : t.Placing places) (hk : t.capacity = 2 ^ k)
    (hi : i < t.capacity) (hn : n ≤ t.capacity) : (occupied t.slots n i).length ≤ t.size := by
  have hlen : (occupied t.slots n i).length ≤ n := by
    by_contra hlt
    exact absurd ((lt_length_occupied_iff hi).mp (Nat.lt_of_not_le hlt)).1 (Nat.lt_irrefl n)
  have hheld : ∀ j ∈ List.iterate t.next i (occupied t.slots n i).length, j ∈ places := by
    intro j hj
    obtain ⟨d, hd, rfl⟩ := List.mem_iterate.mp hj
    rw [iterate_next hk hi]
    exact h.mem _ (((lt_length_occupied_iff hi).mp hd).2 d le_rfl)
  have hsub := ((nodup_walk hk hi (hlen.trans hn)).subperm hheld).length_le
  rw [List.length_iterate] at hsub
  exact hsub.trans h.stored.length_eq.ge

/-- A run ends with an answer, or with the failure of the comparison with an element. -/
theorem Probes.exists_of_error {failure : Failure} (h : t.Probes test i places c result)
    (hresult : result = .error failure d) :
    ∃ (j : ℕ) (x : α), t.slots[j]? = some (some x) ∧ ∃ c, test x c = .error failure d := by
  induction h with
  | answer h => cases hresult
  | failure h =>
      cases hresult
      obtain ⟨x, hx, hfail⟩ := look_eq_error h
      exact ⟨_, x, hx, _, hfail⟩
  | next h rest ih => exact ih hresult

end Probing

section Asking

variable {accepts : α → Except Failure Bool} {equal : α → α → Except Failure Bool}
  {hash : α → Except Failure Binary64} {family : ℕ} {checked : Bool} {expected : Option Binary64}
  {candidates : List (Option α)} {b c d e : IdentityCodes} {t : Table α}

/-- A lookup ends, whatever equivalence it asks and whatever number the hash of the value is. The
loop has one run from the slot of the hash. No slot is looked at twice, none lies outside the table,
and they are at most one more than the elements. The lookup answers what the run answers, and fails
only if the comparison with an element fails. -/
theorem contains_ends
    (h : ofCandidates checked (.ofPartial accepts equal hash family) expected candidates b =
      .ok t c)
    (E : Matching α β) {y : β} {x : Binary64} (hx : E.hash y d = .ok x e) :
    ∃ places,
      (∀ places' result, t.Probes (E.equal · y) ((HashCode.spreadNumber x).toNat &&& t.mask)
        places' e result ↔ places' = places ∧ result = t.contains E y d) ∧
      places.Nodup ∧ (∀ i ∈ places, i < t.capacity) ∧ places.length ≤ t.size + 1 ∧
      ∀ failure f, t.contains E y d = .error failure f →
        ∃ z ∈ t.elements, ∃ e, E.equal z y e = .error failure f := by
  have arranged := arranged_gave Equivalence.grows_ofPartial h
  obtain ⟨k, -, -, hk⟩ := arranged.capacity
  obtain ⟨_, placing⟩ := arranged.placing
  have hstart : t.start x = (HashCode.spreadNumber x).toNat &&& t.mask := (and_mask hk _).symm
  have hi : t.start x < t.capacity := Nat.mod_lt _ (hk ▸ Nat.two_pow_pos k)
  have hlt : (occupied t.slots t.capacity (t.start x)).length < t.capacity :=
    length_occupied_lt hi arranged.free
  have hle := placing.length_occupied_le hk hi le_rfl
  have hcontains : t.contains E y d =
      (search t.slots (E.equal · y) t.capacity (t.start x) >>= fun slot? =>
        pure slot?.isNone) e := Action.bind_of_ok hx
  obtain ⟨m, hm, hrun⟩ := probes_search (E.equal · y) hk hi hlt e
  rw [← hcontains] at hrun
  rw [← hstart]
  refine ⟨_, fun places result => ⟨hrun.unique, ?_⟩, nodup_walk hk hi (by omega), ?_, ?_, ?_⟩
  · rintro ⟨rfl, rfl⟩
    exact hrun
  · intro i hplace
    obtain ⟨j, -, rfl⟩ := List.mem_iterate.mp hplace
    rw [iterate_next hk hi]
    exact Nat.mod_lt _ (Nat.zero_lt_of_lt hi)
  · rw [List.length_iterate]
    omega
  · intro failure f hfail
    obtain ⟨i, z, hz, c, hcompare⟩ := hrun.exists_of_error hfail
    obtain ⟨_, hload⟩ := loaded_of_ofCandidates Equivalence.grows_ofPartial h
    exact ⟨z, hload.placed.mem_elements hz, c, hcompare⟩

set_option maxRecDepth 4000 in
/-- Two like entries lie at either end of a table of four slots. A lookup that starts at the second
of them, with a hash below all hash codes, goes round the end to the first free slot. -/
theorem contains_ends_round :
    ∃ t, ofCandidates true
        (.ofPartial (fun _ => .ok true) (fun x y : ℕ => .ok (x != y)) (fun x => .ok (.ofNat x)) 0)
        (some (.ofNat 0)) ([7, 7].map some) {} = .ok t {} ∧
      t.elements = #[7, 7] ∧
      t.contains (Equivalence.ofPure (fun _ => true) (fun _ _ : ℕ => false)
        (fun _ => -Binary64.ofNat 0xfffffff9) 1) 5 {} = .ok false {} ∧
      ∀ places result, t.Probes (fun _ => pure false) 3 places {} result ↔
        places = [3, 0, 1] ∧ result = .ok false {} := by
  let t : Table ℕ := ⟨#[7, 7], #[some 7, none, none, some 7], 14#32⟩
  let E : Equivalence ℕ :=
    .ofPure (fun _ => true) (fun _ _ => false) (fun _ => -Binary64.ofNat 0xfffffff9) 1
  have h : ofCandidates true
      (.ofPartial (fun _ => .ok true) (fun x y : ℕ => .ok (x != y)) (fun x => .ok (.ofNat x)) 0)
      (some (.ofNat 0)) ([7, 7].map some) {} = .ok t {} := rfl
  have hx : E.hash 5 {} = .ok (-Binary64.ofNat 0xfffffff9) {} := rfl
  have hstart : (HashCode.spreadNumber (-Binary64.ofNat 0xfffffff9)).toNat &&& t.mask = 3 := by
    decide
  obtain ⟨places, hruns, -⟩ := contains_ends h E hx
  rw [hstart] at hruns
  have hwrap : t.next 3 = 0 := by decide
  have hnext : t.next 0 = 1 := by decide
  have hend : t.Probes (E.equal · 5) (t.next 0) [1] {} (.ok false {}) := by
    rw [hnext]
    exact .answer rfl
  have hround : t.Probes (E.equal · 5) (t.next 3) [0, 1] {} (.ok false {}) := by
    rw [hwrap]
    exact .next rfl hend
  have hrun : t.Probes (E.equal · 5) 3 [3, 0, 1] {} (.ok false {}) := .next rfl hround
  obtain ⟨rfl, hresult⟩ := (hruns _ _).mp hrun
  rw [← hresult] at hruns
  exact ⟨t, h, rfl, hresult.symm, hruns⟩

end Asking
end Table
end SealedSets
