import SealedSets.Proofs.Filling
import SealedSets.Proofs.Sizing

/-!
# First occurrences

A table compares a candidate with the elements of one run only. Where equal values have equal hash
codes, all that is equal to the candidate lies in that run, so the table keeps what a comparison
with every element would keep. This does not depend on the size of the table.
-/
namespace SealedSets

variable {α : Type} {eq : α → α → Bool} {xs kept : List α} {x : α}

/-- A candidate is kept unless one that is kept already is equal to it. -/
def keep (eq : α → α → Bool) (kept : List α) (x : α) : List α :=
  if kept.any (eq · x) then kept else kept ++ [x]

/-- What is kept of the candidates, from left to right. -/
def firsts (eq : α → α → Bool) (xs : List α) : List α := xs.foldl (keep eq) []

theorem keep_of_any (h : kept.any (eq · x)) : keep eq kept x = kept := if_pos h

theorem keep_of_not_any (h : ¬kept.any (eq · x)) : keep eq kept x = kept ++ [x] := if_neg h

theorem prefix_keep : kept <+: keep eq kept x := by
  by_cases h : kept.any (eq · x)
  · rw [keep_of_any h]
  · rw [keep_of_not_any h]
    exact List.prefix_append kept [x]

theorem prefix_foldl_keep (eq : α → α → Bool) (xs kept : List α) :
    kept <+: xs.foldl (keep eq) kept := by
  induction xs generalizing kept with
  | nil => exact List.prefix_rfl
  | cons x xs ih => exact prefix_keep.trans (ih (keep eq kept x))

theorem length_keep_le (eq : α → α → Bool) (kept : List α) (x : α) :
    (keep eq kept x).length ≤ kept.length + 1 := by
  unfold keep
  split <;> simp

theorem length_foldl_keep_le (eq : α → α → Bool) (xs kept : List α) :
    (xs.foldl (keep eq) kept).length ≤ kept.length + xs.length := by
  induction xs generalizing kept with
  | nil => simp
  | cons x xs ih =>
      have hx := length_keep_le eq kept x
      have hxs := ih (keep eq kept x)
      simp only [List.foldl_cons, List.length_cons]
      omega

/-- No more is kept than there is. -/
theorem length_firsts_le (eq : α → α → Bool) (xs : List α) : (firsts eq xs).length ≤ xs.length := by
  simpa [firsts] using length_foldl_keep_le eq xs []

theorem firsts_cons_ne_nil (x : α) (xs : List α) : firsts eq (x :: xs) ≠ [] := by
  have hprefix : [x] <+: firsts eq (x :: xs) := prefix_foldl_keep eq xs [x]
  exact fun hnil => List.cons_ne_nil x [] (List.prefix_nil.mp (hnil ▸ hprefix))

theorem mem_keep {y : α} (h : y ∈ keep eq kept x) : y ∈ kept ∨ y = x := by
  unfold keep at h
  split at h
  · exact Or.inl h
  · simpa using h

theorem mem_of_mem_firsts (h : x ∈ firsts eq xs) : x ∈ xs := by
  suffices hkept : ∀ kept : List α, x ∈ xs.foldl (keep eq) kept → x ∈ kept ∨ x ∈ xs by
    simpa using hkept [] h
  clear h
  induction xs with
  | nil => simp
  | cons y xs ih =>
      intro kept h
      rcases ih _ h with hkeep | hxs
      · rcases mem_keep hkeep with hx | rfl
        · exact Or.inl hx
        · exact Or.inr List.mem_cons_self
      · exact Or.inr (List.mem_cons_of_mem y hxs)

/-- A candidate that is equal to itself is equal to one that is kept. -/
theorem exists_mem_firsts (refl : ∀ y ∈ xs, eq y y) (h : x ∈ xs) :
    ∃ e ∈ firsts eq xs, eq e x := by
  unfold firsts
  generalize ([] : List α) = kept
  induction xs generalizing kept with
  | nil => simp at h
  | cons y xs ih =>
      rcases List.mem_cons.mp h with rfl | hx
      · have hkeep : ∃ e ∈ keep eq kept x, eq e x := by
          by_cases hany : kept.any (eq · x)
          · rw [keep_of_any hany]
            simpa using hany
          · rw [keep_of_not_any hany]
            exact ⟨x, by simp, refl x List.mem_cons_self⟩
        obtain ⟨e, he, hex⟩ := hkeep
        exact ⟨e, (prefix_foldl_keep eq xs _).mem he, hex⟩
      · exact ih (fun z hz => refl z (List.mem_cons_of_mem y hz)) hx _

namespace Table

section Filling

variable {E : Equivalence α} {S : Set α} {b c d : IdentityCodes} {t : Table α} {k : HashCode}
  {limit : ℕ}

/-- The run of a value's hash code holds every element that is equal to the value. -/
theorem any_occupied (steady : E.Steady c S eq) (ht : t.Placed (E.HasCode c))
    (room : t.size < t.capacity) (hS : ∀ y ∈ t.elements, y ∈ S) (hx : x ∈ S)
    (hk : E.HasCode c x k) :
    (occupied t.slots t.capacity (t.home k)).any (eq · x) = t.elements.toList.any (eq · x) := by
  rw [Bool.eq_iff_iff, List.any_eq_true, List.any_eq_true]
  constructor
  · rintro ⟨y, hy, heq⟩
    exact ⟨y, by simpa using ht.mem_of_occupied room hy, heq⟩
  · rintro ⟨y, hy, heq⟩
    have hy : y ∈ t.elements := by simpa using hy
    obtain ⟨k', hk', hrun⟩ := ht.mem_occupied room hy
    have hxk' := steady.agree y (hS y hy) x hx heq c le_rfl k' hk'
    obtain rfl : k = k' := hk.unique hxk'
    exact ⟨y, hrun, heq⟩

/-- So a search from there is a search through all elements. -/
theorem search_steady (steady : E.Steady c S eq) (ht : t.Placed (E.HasCode c))
    (room : t.size < t.capacity) (hS : ∀ y ∈ t.elements, y ∈ S) (hx : x ∈ S)
    (hk : E.HasCode c x k) :
    (search t.slots (E.equal · x) t.capacity (t.home k)).Always c
      (if t.elements.toList.any (eq · x) then none
        else some (stop t.slots t.capacity (t.home k))) := by
  rw [← any_occupied steady ht room hS hx hk]
  refine search_always (home_lt room k) (fun y => steady.grows.equal y x) fun y hy => ?_
  exact steady.equal y (hS y (ht.mem_of_occupied room hy)) x hx

/-- A table under a steady equivalence has given codes for good. -/
theorem Placed.hasCode (ht : t.Placed (E.Gave b c)) (steady : E.Steady b S eq)
    (hS : ∀ y ∈ t.elements, y ∈ S) : t.Placed (E.HasCode c) :=
  ht.mono fun y hy _ hk => steady.hasCode (hS y hy) hk

/-- One candidate more: an equal element of the table stands for it, or it is added. -/
theorem fill_some_steady (steady : E.Steady b S eq) (i : ℕ) (candidates : List (Option α))
    (ht : t.Loaded E b c limit) (hS : ∀ y ∈ t.elements, y ∈ S) (hx : x ∈ S) :
    ∃ k d, c ≤ d ∧ E.Gave b d x k ∧ fill E limit i (some x :: candidates) t c =
      if t.elements.toList.any (eq · x) then fill E limit (i + 1) candidates t d
      else if t.size = limit then .ok none d
      else fill E limit (i + 1) candidates
        (t.insertAt (stop t.slots t.capacity (t.home k)) k x) d := by
  obtain ⟨k, e, hk, hkeep⟩ := steady.code x hx c ht.le
  have hce : c ≤ e := (steady.grows.code x).le hk
  have he := ht.mono hce
  obtain ⟨d, hslot⟩ := search_steady (steady.mono he.le)
    (he.placed.hasCode steady hS) he.size_lt hS hx hkeep e le_rfl
  have hed : e ≤ d := (grows_slotFor? steady.grows k x).le hslot
  refine ⟨k, d, hce.trans hed, ⟨c, e, ht.le, hed, hk⟩, ?_⟩
  rw [fill_some, Action.bind_of_ok hk, slotFor?, Action.bind_of_ok hslot]
  split
  · rfl
  · dsimp only
    split <;> rfl

/-- A table that is filled keeps the first occurrences, unless there are more than its limit. -/
theorem fill_steady (steady : E.Steady b S eq) (i : ℕ)
    (ht : t.Loaded E b c limit) (hS : ∀ y ∈ t.elements, y ∈ S) (hxs : ∀ x ∈ xs, x ∈ S) :
    ∃ t? d, fill E limit i (xs.map some) t c = .ok t? d ∧
      ((∃ t', t? = some t' ∧ t'.elements.toList = xs.foldl (keep eq) t.elements.toList) ∨
        t? = none ∧ limit < (xs.foldl (keep eq) t.elements.toList).length) := by
  induction xs generalizing i t c with
  | nil => exact ⟨some t, c, rfl, Or.inl ⟨t, rfl, rfl⟩⟩
  | cons x xs ih =>
      obtain ⟨hx, hxs⟩ := List.forall_mem_cons.mp hxs
      obtain ⟨k, d, hcd, hgave, hfill⟩ :=
        fill_some_steady steady i (xs.map some) ht hS hx
      rw [List.map_cons, hfill, List.foldl_cons]
      split
      · next hany =>
        rw [keep_of_any hany]
        exact ih (i + 1) (ht.mono hcd) hS hxs
      · next hany =>
        rw [keep_of_not_any hany]
        split
        · next hsize =>
          refine ⟨none, d, rfl, Or.inr ⟨rfl, ?_⟩⟩
          -- the table gives up at this candidate, whatever comes after it
          have hlen := (prefix_foldl_keep eq xs (t.elements.toList ++ [x])).length_le
          rw [List.length_append, Array.length_toList, List.length_singleton] at hlen
          exact Nat.lt_of_lt_of_le (by rw [← hsize]; exact Nat.lt_succ_self _) hlen
        · next hsize =>
          have hins := (ht.mono hcd).insertAt hsize hgave
          have hSins : ∀ y ∈ (t.insertAt (stop t.slots t.capacity (t.home k)) k x).elements,
              y ∈ S := by
            intro y hy
            rcases Array.mem_push.mp hy with hy | rfl
            · exact hS y hy
            · exact hx
          have helements : (t.insertAt (stop t.slots t.capacity (t.home k)) k x).elements.toList =
              t.elements.toList ++ [x] := Array.toList_push
          rw [← helements]
          exact ih (i + 1) hins hSins hxs

/-- Even if other candidates are compared in some other way, equal elements are found. -/
theorem pairwise_of_fill {t' : Table α} {i : ℕ} {candidates : List (Option α)}
    (steady : E.Steady b S eq) (h : fill E limit i candidates t c = .ok (some t') d)
    (ht : t.Loaded E b c limit) (hp : t.elements.toList.Pairwise fun x y => ¬eq x y)
    (hS : ∀ y ∈ t'.elements, y ∈ S) : t'.elements.toList.Pairwise fun x y => ¬eq x y := by
  refine (fill_induction (P := fun c t => t.Loaded E b c limit ∧
    ((∀ y ∈ t.elements, y ∈ S) → t.elements.toList.Pairwise fun x y => ¬eq x y))
    h ⟨ht, fun _ => hp⟩ ?_ ?_).2 hS
  · rintro c t x k e e' ⟨ht, hp⟩ hk hslot
    exact ⟨ht.drop steady.grows hk hslot, hp⟩
  · rintro c t x k e slot e' ⟨ht, hp⟩ hk hslot hsize
    refine ⟨ht.add steady.grows hk hslot hsize, fun hS => ?_⟩
    have helements : (t.insertAt slot k x).elements.toList = t.elements.toList ++ [x] :=
      Array.toList_push
    have hx : x ∈ S := hS x Array.mem_push_self
    have hold : ∀ y ∈ t.elements, y ∈ S := fun y hy => hS y (Array.mem_push_of_mem x hy)
    have he := ht.mono ((steady.grows.code x).le hk)
    have hkx : E.HasCode e x k := steady.hasCode hx ⟨c, e, ht.le, le_rfl, hk⟩
    have hsearch := (search_steady (steady.mono he.le) (he.placed.hasCode steady hold)
      he.size_lt hold hx hkx).eq le_rfl hslot
    rw [helements, List.pairwise_append]
    refine ⟨hp hold, List.pairwise_singleton _ x, fun y hy z hz hyz => ?_⟩
    obtain rfl := List.mem_singleton.mp hz
    rw [if_pos (List.any_eq_true.mpr ⟨y, hy, hyz⟩)] at hsearch
    cases hsearch

end Filling

section Building

variable {E : Equivalence α} {S : Set α} {b c d : IdentityCodes} {checked : Bool}
  {expected : Option Binary64}

theorem ofSize?_steady {size : ℕ} (steady : E.Steady b S eq) (hbc : b ≤ c)
    (hsize : limit size < size) (hxs : ∀ x ∈ xs, x ∈ S) :
    ∃ t? d, ofSize? E (xs.map some) size c = .ok t? d ∧ c ≤ d ∧
      ((∃ t, t? = some t ∧ t.elements.toList = firsts eq xs) ∨
        t? = none ∧ limit size < (firsts eq xs).length) := by
  obtain ⟨t?, d, hfill, h⟩ := fill_steady steady 0 (loaded_blank hbc hsize)
    (by simp [blank]) hxs
  exact ⟨t?, d, hfill, (grows_fill steady.grows _).le hfill, h⟩

theorem elements_of_ofCandidates {t : Table α} (steady : E.Steady c S eq)
    (hxs : ∀ x ∈ xs, x ∈ S) (h : ofCandidates checked E expected (xs.map some) c = .ok t d) :
    t.elements.toList = firsts eq xs := by
  obtain ⟨_, size, e, hsize, hce, hfill⟩ := ofSize?_of_ofCandidates steady.grows h
  obtain ⟨t?, d', hfill', -, hresult⟩ :=
    ofSize?_steady steady hce (limit_lt_of_sizeFor hsize) hxs
  rw [hfill] at hfill'
  cases hfill'
  obtain ⟨t', ht', helements⟩ | ⟨hnone, -⟩ := hresult
  · cases ht'
    exact helements
  · cases hnone

theorem pairwise_of_ofCandidates {t : Table α} {candidates : List (Option α)}
    (steady : E.Steady c S eq) (hS : ∀ y ∈ t.elements, y ∈ S)
    (h : ofCandidates checked E expected candidates c = .ok t d) :
    t.elements.toList.Pairwise fun x y => ¬eq x y := by
  obtain ⟨_, size, e, hsize, hce, hfill⟩ := ofSize?_of_ofCandidates steady.grows h
  exact pairwise_of_fill steady hfill (loaded_blank hce (limit_lt_of_sizeFor hsize))
    (by simp [blank]) hS

/-- The table is built for every hint. -/
theorem exists_ofCandidates (steady : E.Steady c S eq) (hxs : ∀ x ∈ xs, x ∈ S)
    (len : xs.length ≤ limit maxSize) (fits : HintFits checked expected xs.length) :
    ∃ t d, ofCandidates checked E expected (xs.map some) c = .ok t d := by
  refine ofCandidates_of_attempts (P := fun result => ∃ t d, result = .ok t d) steady.grows
    (by rwa [List.length_map]) (by rwa [List.length_map]) fun size d hsize hcd => ?_
  obtain ⟨t?, e, hfill, -, hresult⟩ := ofSize?_steady steady hcd hsize hxs
  obtain ⟨t, rfl, -⟩ | ⟨rfl, -⟩ := hresult
  · exact Or.inr (Or.inl ⟨t, e, hfill, t, e, rfl⟩)
  · exact Or.inl ⟨e, hfill⟩

variable {accepts : α → Bool} {equal : α → α → Bool} {hash : α → Binary64} {family : ℕ}

theorem forall₂_gave_ofPure {ks : List HashCode}
    {b : IdentityCodes}
    (h : List.Forall₂ ((Equivalence.ofPure accepts equal hash family).Gave b c) xs ks) :
    ks = xs.map fun x => (hash x).toHashCode := by
  induction h with
  | nil => rfl
  | cons hk _ ih => rw [List.map_cons, Equivalence.gave_ofPure hk, ih]

/-- For every hint the table has the same elements and the same hash code: the first occurrences,
compared pairwise, and the sum of their codes. -/
theorem ofCandidates_eq_firsts (accepts : α → Bool) (family : ℕ)
    (law : ∀ x y, equal x y → (hash x).toHashCode = (hash y).toHashCode)
    (len : xs.length ≤ limit maxSize) (fits : HintFits checked expected xs.length)
    (c : IdentityCodes) :
    ∃ t d, ofCandidates checked (.ofPure accepts equal hash family) expected (xs.map some) c =
        .ok t d ∧
      t.elements.toList = firsts equal xs ∧
      t.hashCode = ((firsts equal xs).map fun x => (hash x).toHashCode).sum := by
  have steady : (Equivalence.ofPure accepts equal hash family).Steady c Set.univ equal :=
    Equivalence.steady_ofPure law c
  obtain ⟨t, d, hok⟩ := exists_ofCandidates steady (fun x _ => Set.mem_univ x) len fits
  have helements := elements_of_ofCandidates steady (fun x _ => Set.mem_univ x) hok
  obtain ⟨_, hload⟩ := loaded_of_ofCandidates Equivalence.grows_ofPure hok
  obtain ⟨ks, hks, hsum⟩ := hload.placed.summed
  refine ⟨t, d, hok, helements, ?_⟩
  rw [hsum, forall₂_gave_ofPure hks, helements]

/-- Nothing is equal to itself here, and equality is not symmetric. The hint is too small, and no
hash is its own code. -/
theorem ofCandidates_eq_firsts_below :
    ∃ t d, ofCandidates true
        (.ofPure (fun _ => true) (fun x y : ℕ => decide (x < y)) (fun _ => .ofNat 0x100000001) 0)
        (some (.ofNat 0)) ([3, 5, 1, 1, 0, 2].map some) {} = .ok t d ∧
      t.elements.toList = [3, 1, 1, 0] ∧ t.hashCode = 4#32 := by
  have law : ∀ x y : ℕ, decide (x < y) →
      (Binary64.ofNat 0x100000001).toHashCode = (Binary64.ofNat 0x100000001).toHashCode :=
    fun _ _ _ => rfl
  have len : [3, 5, 1, 1, 0, 2].length ≤ limit maxSize := by
    rw [limit_maxSize]
    decide
  have fits : HintFits true (some (.ofNat 0)) [3, 5, 1, 1, 0, 2].length := fun _ => by decide
  obtain ⟨t, d, hok, helements, hcode⟩ :=
    ofCandidates_eq_firsts (fun _ => true) 0 law len fits {}
  exact ⟨t, d, hok, helements, hcode.trans (by decide)⟩

end Building
end Table
end SealedSets
