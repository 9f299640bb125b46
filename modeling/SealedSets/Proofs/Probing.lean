import Mathlib.Algebra.BigOperators.Group.List.Basic
import Mathlib.Data.BitVec
import Mathlib.Data.List.Forall2
import Mathlib.Data.List.ReduceOption
import SealedSets.Proofs.Numbering
import SealedSets.Table

/-!
# Runs of occupied slots

A search from a slot meets the elements of `occupied` and stops behind them. An element is placed
well if it lies in the run that starts at its home slot. Filling a free slot at the end of a run
makes no run shorter, so elements stay well placed, across the end of the table as well.
-/
namespace SealedSets.Table

variable {α β : Type}

/-- The slot holds an element. -/
def Held (slots : Array (Option α)) (i : ℕ) : Prop := ∃ x, slots[i]? = some (some x)

/-- The slot behind the run of occupied slots from slot `i` on. -/
def stop (slots : Array (Option α)) (n i : ℕ) : ℕ :=
  (i + (occupied slots n i).length) % slots.size

section Runs

variable {slots slots' : Array (Option α)} {n i d : ℕ} {x : α}

theorem occupied_of_held (h : slots[i]? = some (some x)) :
    occupied slots (n + 1) i = x :: occupied slots n ((i + 1) % slots.size) := by
  simp [occupied, h]

theorem occupied_of_not_held (h : ¬Held slots i) : occupied slots (n + 1) i = [] := by
  unfold occupied
  split
  · next x hx => exact absurd ⟨x, hx⟩ h
  · rfl

/-- The slots of a run are the slots that follow one another, up to the first free one. -/
theorem lt_length_occupied_iff (hi : i < slots.size) :
    d < (occupied slots n i).length ↔ d < n ∧ ∀ j ≤ d, Held slots ((i + j) % slots.size) := by
  induction n generalizing i d with
  | zero => simp [occupied]
  | succ n ih =>
      by_cases hx : Held slots i
      · obtain ⟨x, hx⟩ := hx
        rw [occupied_of_held hx, List.length_cons]
        cases d with
        | zero => simpa [Nat.mod_eq_of_lt hi] using ⟨x, hx⟩
        | succ d =>
            have hnext : (i + 1) % slots.size < slots.size := Nat.mod_lt _ (by omega)
            have hshift : ∀ j, ((i + 1) % slots.size + j) % slots.size =
                (i + (j + 1)) % slots.size := by
              intro j
              rw [Nat.mod_add_mod, Nat.add_assoc, Nat.add_comm 1 j]
            rw [Nat.add_lt_add_iff_right, Nat.add_lt_add_iff_right, ih hnext]
            simp only [hshift]
            constructor
            · rintro ⟨hd, h⟩
              refine ⟨hd, fun j hj => ?_⟩
              cases j with
              | zero => simpa [Nat.mod_eq_of_lt hi] using ⟨x, hx⟩
              | succ j => exact h j (by omega)
            · rintro ⟨hd, h⟩
              exact ⟨hd, fun j hj => h (j + 1) (by omega)⟩
      · rw [occupied_of_not_held hx]
        simp only [List.length_nil, Nat.not_lt_zero, false_iff, not_and]
        intro _ h
        exact hx (by simpa [Nat.mod_eq_of_lt hi] using h 0 (Nat.zero_le d))

theorem getElem?_of_occupied (hi : i < slots.size) (h : (occupied slots n i)[d]? = some x) :
    slots[(i + d) % slots.size]? = some (some x) := by
  induction n generalizing i d with
  | zero => simp [occupied] at h
  | succ n ih =>
      by_cases hy : Held slots i
      · obtain ⟨y, hy⟩ := hy
        rw [occupied_of_held hy] at h
        cases d with
        | zero => simpa [Nat.mod_eq_of_lt hi, hy] using h
        | succ d =>
            have hslot := ih (Nat.mod_lt (i + 1) (by omega)) (by simpa using h)
            rwa [Nat.mod_add_mod, Nat.add_assoc, Nat.add_comm 1 d] at hslot
      · simp [occupied_of_not_held hy] at h

/-- With more slots held, no run is shorter. -/
theorem length_occupied_mono (hsize : slots'.size = slots.size)
    (hheld : ∀ j, Held slots j → Held slots' j) (hi : i < slots.size)
    (h : d < (occupied slots n i).length) : d < (occupied slots' n i).length := by
  rw [lt_length_occupied_iff hi] at h
  rw [lt_length_occupied_iff (by omega), hsize]
  exact ⟨h.1, fun j hj => hheld _ (h.2 j hj)⟩

/-- With a free slot anywhere in the table, no run goes all the way round. -/
theorem length_occupied_lt (hi : i < slots.size) (hfree : ∃ j < slots.size, ¬Held slots j) :
    (occupied slots slots.size i).length < slots.size := by
  obtain ⟨j, hj, hfree⟩ := hfree
  by_contra hlen
  have hslot : (i + (j + slots.size - i) % slots.size) % slots.size = j := by
    rw [Nat.add_mod_mod, show i + (j + slots.size - i) = j + slots.size by omega,
      Nat.add_mod_right, Nat.mod_eq_of_lt hj]
  have hlt : (j + slots.size - i) % slots.size < slots.size := Nat.mod_lt _ (by omega)
  have hrun := (lt_length_occupied_iff (n := slots.size)
    (d := (j + slots.size - i) % slots.size) hi).mp (by omega)
  apply hfree
  rw [← hslot]
  exact hrun.2 _ le_rfl

/-- So it ends at a free slot. -/
theorem not_held_stop (hi : i < slots.size) (hfree : ∃ j < slots.size, ¬Held slots j) :
    ¬Held slots (stop slots slots.size i) := by
  intro hstop
  -- otherwise the run would be longer by one
  have hlen := length_occupied_lt hi hfree
  have := (lt_length_occupied_iff (d := (occupied slots slots.size i).length) hi).mpr
    ⟨hlen, fun j hj => (Nat.lt_or_eq_of_le hj).elim
      (fun hlt => ((lt_length_occupied_iff hi).mp hlt).2 j le_rfl) (fun he => he ▸ hstop)⟩
  omega

theorem mem_occupied_iff (hi : i < slots.size) :
    x ∈ occupied slots n i ↔
      ∃ d < (occupied slots n i).length, slots[(i + d) % slots.size]? = some (some x) := by
  rw [List.mem_iff_getElem?]
  constructor
  · rintro ⟨d, hd⟩
    exact ⟨d, (List.getElem?_eq_some_iff.mp hd).1, getElem?_of_occupied hi hd⟩
  · rintro ⟨d, hd, hx⟩
    have hy := getElem?_of_occupied hi (List.getElem?_eq_getElem hd)
    rw [hx] at hy
    exact ⟨d, by simpa [List.getElem?_eq_getElem hd] using hy.symm⟩

end Runs

section Search

variable {slots : Array (Option α)} {test : α → Action Bool} {n i j : ℕ} {c d : IdentityCodes}

theorem search_of_held {x : α} (h : slots[i]? = some (some x)) :
    search slots test (n + 1) i =
      (test x >>= fun passed =>
        if passed then pure none else search slots test n ((i + 1) % slots.size)) := by
  simp [search, h]

theorem search_of_not_held (h : ¬Held slots i) :
    search slots test (n + 1) i = pure (some i) := by
  unfold search
  split
  · next x hx => exact absurd ⟨x, hx⟩ h
  · rfl

theorem stop_of_held {x : α} (h : slots[i]? = some (some x)) :
    stop slots (n + 1) i = stop slots n ((i + 1) % slots.size) := by
  rw [stop, stop, occupied_of_held h, List.length_cons, Nat.mod_add_mod, Nat.add_assoc,
    Nat.add_comm 1]

theorem stop_of_not_held (hi : i < slots.size) (h : ¬Held slots i) :
    stop slots (n + 1) i = i := by
  simp [stop, occupied_of_not_held h, Nat.mod_eq_of_lt hi]

theorem stop_zero (hi : i < slots.size) : stop slots 0 i = i := by
  simp [stop, occupied, Nat.mod_eq_of_lt hi]

theorem keeps_search {P : IdentityCodes → Prop}
    (ht : ∀ (i : ℕ) x, slots[i]? = some (some x) → Keeps P (test x)) (n i : ℕ) :
    Keeps P (search slots test n i) := by
  induction n generalizing i with
  | zero => exact .pure _
  | succ n ih =>
      by_cases hx : Held slots i
      · obtain ⟨x, hx⟩ := hx
        rw [search_of_held hx]
        refine (ht i x hx).bind fun passed => ?_
        split
        · exact .pure _
        · exact ih _
      · rw [search_of_not_held hx]
        exact .pure _

/-- Whatever the tests answer, a search that does not end at an element ends behind the run. -/
theorem eq_stop_of_search (hi : i < slots.size)
    (h : search slots test n i c = .ok (some j) d) : j = stop slots n i := by
  induction n generalizing i c with
  | zero =>
      simp only [search, Action.pure_eq_ok, Option.some.injEq] at h
      rw [stop_zero hi, h.1]
  | succ n ih =>
      by_cases hx : Held slots i
      · obtain ⟨x, hx⟩ := hx
        rw [search_of_held hx, Action.bind_eq_ok] at h
        obtain ⟨passed, e, -, h⟩ := h
        cases passed with
        | true => simp at h
        | false =>
            rw [stop_of_held hx]
            exact ih (Nat.mod_lt _ (by omega)) (by simpa using h)
      · rw [search_of_not_held hx, Action.pure_eq_ok, Option.some.injEq] at h
        rw [stop_of_not_held hi hx, h.1]

/-- Where every test of the run has an answer, the search ends at an element that passes, or
behind the run if none does. -/
theorem search_always {p : α → Bool} (hi : i < slots.size) (grows : ∀ x, (test x).Grows)
    (h : ∀ x ∈ occupied slots n i, (test x).Always c (p x)) :
    (search slots test n i).Always c
      (if (occupied slots n i).any p then none else some (stop slots n i)) := by
  induction n generalizing i with
  | zero => simpa [search, occupied, stop_zero hi] using Action.always_pure c (some i)
  | succ n ih =>
      by_cases hx : Held slots i
      · obtain ⟨x, hx⟩ := hx
        rw [occupied_of_held hx] at h ⊢
        rw [search_of_held hx, stop_of_held hx]
        refine (h x (by simp)).bind (grows x) ?_
        cases hp : p x with
        | true => simpa [hp] using Action.always_pure c none
        | false =>
            have hrest := ih (Nat.mod_lt (i + 1) (by omega))
              (fun y hy => h y (List.mem_cons_of_mem x hy))
            simpa [hp] using hrest
      · rw [search_of_not_held hx, occupied_of_not_held hx, stop_of_not_held hi hx]
        exact Action.always_pure c (some i)

/-- A search that has a step left for the slot behind its run ends there at the latest, so more
steps change nothing. -/
theorem search_of_le {m : ℕ} (h : (occupied slots m i).length < m) (hmn : m ≤ n) :
    search slots test n i = search slots test m i := by
  induction m generalizing i n with
  | zero => exact absurd h (Nat.not_lt_zero _)
  | succ m ih =>
      obtain ⟨n, rfl⟩ := Nat.exists_eq_add_of_le' (Nat.one_le_of_lt hmn)
      by_cases hx : Held slots i
      · obtain ⟨x, hx⟩ := hx
        rw [occupied_of_held hx, List.length_cons] at h
        rw [search_of_held hx, search_of_held hx,
          ih (Nat.lt_of_succ_lt_succ h) (Nat.le_of_succ_le_succ hmn)]
      · rw [search_of_not_held hx, search_of_not_held hx]

end Search
end SealedSets.Table
