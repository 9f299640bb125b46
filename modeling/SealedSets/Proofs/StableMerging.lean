import SealedSets.Proofs.Stability
import SealedSets.Sorting.Merging

/-!
# Merging runs stably

However two runs are merged, value by value or by leaps, from the front or from the back, the
answer is that of `List.merge`, if they are in order and their comparisons are those of a total
preorder.
-/
namespace SealedSets.Sorting

variable {α ε : Type} {before : α → α → Except ε Bool} {first le : α → α → Bool} {d : Direction}
  {x y : α} {xs xs' ys ys' : List α}

@[simp] theorem ok_bind {β : Type} (a : α) (f : α → Except ε β) : Except.ok a >>= f = f a := rfl

theorem merge_cons_left (h : ∀ y ∈ ys, first x y) :
    (x :: xs).merge ys first = x :: xs.merge ys first := by
  cases ys with
  | nil => simp
  | cons y ys => exact List.cons_merge_cons_pos _ _ _ (h y List.mem_cons_self)

theorem merge_cons_right (h : ∀ x ∈ xs, ¬first x y) :
    xs.merge (y :: ys) first = y :: xs.merge ys first := by
  cases xs with
  | nil => simp
  | cons x xs => exact List.cons_merge_cons_neg _ _ _ (h x List.mem_cons_self)

section Leaps

/-- The values of the left list that come before the next one of the right list, and that one. -/
theorem merge_leap_left (h : xs.Pairwise fun a b => first b y → first a y) :
    xs.merge (y :: ys) first = xs.take (xs.countP (first · y)) ++
      y :: (xs.drop (xs.countP (first · y))).merge ys first := by
  induction xs with
  | nil => simp
  | cons x xs ih =>
      by_cases hx : first x y
      · have hmore : (x :: xs).countP (first · y) = xs.countP (first · y) + 1 :=
          List.countP_cons_of_pos hx
        rw [List.cons_merge_cons_pos _ _ _ hx, ih h.of_cons, hmore]
        rfl
      · have hnone : (x :: xs).countP (first · y) = 0 := by
          refine List.countP_eq_zero.mpr fun a ha hay => hx ?_
          rcases List.mem_cons.mp ha with rfl | ha
          · exact hay
          · exact List.rel_of_pairwise_cons h ha hay
        rw [List.cons_merge_cons_neg _ _ _ hx, hnone]
        rfl

theorem merge_leap_right (h : ys.Pairwise fun a b => first x a → first x b) :
    (x :: xs).merge ys first = ys.take (ys.countP (!first x ·)) ++
      x :: xs.merge (ys.drop (ys.countP (!first x ·))) first := by
  rw [merge_swap first (x :: xs), merge_swap first xs,
    merge_leap_left (h.imp fun hab => by simpa using mt hab)]

end Leaps

/-- The run that is not to be used up ends with a value that is the last of all to be read. -/
def Direction.Closes (first : α → α → Bool) : Direction → List α → List α → Prop
  | forward, xs, ys => ∀ x ∈ xs.getLast?, ∀ y ∈ ys, ¬first x y
  | backward, xs, ys => ∀ y ∈ ys.getLast?, ∀ x ∈ xs, first x y

/-- Runs whose comparisons do not fail and agree with their order, as far as they are read. -/
structure Mergeable (before : α → α → Except ε Bool) (d : Direction) (first : α → α → Bool)
    (xs ys : List α) : Prop where
  test_eq : ∀ x ∈ xs, ∀ y ∈ ys, d.leftFirst before x y = .ok (first x y)
  left_ordered : ∀ y ∈ ys, xs.Pairwise fun a b => first b y → first a y
  right_ordered : ∀ x ∈ xs, ys.Pairwise fun a b => first x a → first x b
  closes : d.Closes first xs ys

namespace Mergeable

theorem of_suffix (h : Mergeable before d first xs ys) (hx : xs' <:+ xs) (hy : ys' <:+ ys) :
    Mergeable before d first xs' ys' where
  test_eq x hx' y hy' := h.test_eq x (hx.mem hx') y (hy.mem hy')
  left_ordered y hy' := (h.left_ordered y (hy.mem hy')).sublist hx.sublist
  right_ordered x hx' := (h.right_ordered x (hx.mem hx')).sublist hy.sublist
  closes := by
    have last {us vs : List α} (hs : us <:+ vs) : ∀ u ∈ us.getLast?, u ∈ vs.getLast? := by
      obtain ⟨ts, rfl⟩ := hs
      intro u hu
      rw [List.getLast?_append, Option.mem_def.mp hu]
      rfl
    have hc := h.closes
    cases d with
    | forward => exact fun x hx' y hy' => hc x (last hx x hx') y (hy.mem hy')
    | backward => exact fun y hy' x hx' => hc y (last hy y hy') x (hx.mem hx')

theorem divides_left (h : Mergeable before d first xs ys) (hy : y ∈ ys) :
    Divides (fun x => d.leftFirst before x y) (first · y) xs where
  test_eq x hx := h.test_eq x hx y hy
  passing_first := h.left_ordered y hy

theorem divides_right (h : Mergeable before d first xs ys) (hx : x ∈ xs) :
    Divides (fun y => return !(← d.leftFirst before x y)) (!first x ·) ys where
  test_eq y hy := by rw [h.test_eq x hx y hy]; rfl
  passing_first := (h.right_ordered x hx).imp fun hab => by simpa using mt hab

/-- Nothing is compared any more if the order of the rest is known. -/
theorem remainder_eq (h : Mergeable before d first xs ys) (hs : d.settled xs ys) :
    d.remainder xs ys = xs.merge ys first := by
  have hc := h.closes
  cases d with
  | forward =>
      match xs, ys with
      | [], ys => simp [Direction.remainder]
      | [x], ys =>
          rw [merge_swap, List.merge_of_le fun y x' hy hx' => ?_]
          · rfl
          · obtain rfl := List.mem_singleton.mp hx'
            simpa using hc x' rfl y hy
      | x :: x' :: xs, [] => simp [Direction.remainder]
  | backward =>
      match xs, ys with
      | [], ys => simp [Direction.remainder]
      | x :: xs, [] => simp [Direction.remainder]
      | x :: xs, [y] =>
          rw [List.merge_of_le fun x' y' hx' hy' => ?_]
          · rfl
          · obtain rfl := List.mem_singleton.mp hy'
            exact hc y' rfl x' hx'

end Mergeable

/-- How the next values are found decides which values are compared, and not what is merged. -/
theorem merge_eq (pace : Pace) (patience : ℕ) (taken : List α)
    (h : Mergeable before d first xs ys) :
    ∃ rest, merge before d pace patience taken xs ys =
      .ok (taken.reverse ++ xs.merge ys first, rest) := by
  fun_induction merge before d pace patience taken xs ys with
  | case1 pace patience taken xs ys settled =>
      rw [h.remainder_eq settled]
      exact ⟨patience, rfl⟩
  | case2 patience taken x xs y ys left right _ ihLeft ihRight =>
      rw [h.test_eq x List.mem_cons_self y List.mem_cons_self]
      by_cases hxy : first x y
      · obtain ⟨rest, hrest⟩ := ihLeft (h.of_suffix (List.suffix_cons x xs) List.suffix_rfl)
        rw [hxy, List.cons_merge_cons_pos _ _ _ hxy, List.append_cons, ← List.reverse_cons]
        exact ⟨rest, hrest⟩
      · obtain ⟨rest, hrest⟩ := ihRight (h.of_suffix List.suffix_rfl (List.suffix_cons y ys))
        rw [Bool.not_eq_true _ |>.mp hxy, List.cons_merge_cons_neg _ _ _ hxy, List.append_cons,
          ← List.reverse_cons]
        exact ⟨rest, hrest⟩
  | case3 patience taken x xs y ys _ ih =>
      rw [lead_eq d (h.divides_left List.mem_cons_self),
        merge_leap_left (h.left_ordered y List.mem_cons_self)]
      generalize (x :: xs).countP (first · y) = found
      obtain ⟨rest, hrest⟩ := ih found (h.of_suffix (List.drop_suffix ..) (List.suffix_cons y ys))
      exact ⟨rest, hrest.trans (by simp)⟩
  | case4 patience taken x xs y ys foundLeft _ ihLeap ihStep =>
      rw [lead_eq d (h.divides_right List.mem_cons_self),
        merge_leap_right (h.right_ordered x List.mem_cons_self)]
      generalize (y :: ys).countP (!first x ·) = found
      have hrest := h.of_suffix (List.suffix_cons x xs) (List.drop_suffix found (y :: ys))
      simp only [ok_bind]
      split
      · next settled =>
        rw [hrest.remainder_eq settled]
        exact ⟨patience, by simp [pure, Except.pure]⟩
      · split
        · obtain ⟨rest, hok⟩ := ihLeap found hrest
          exact ⟨rest, hok.trans (by simp)⟩
        · obtain ⟨rest, hok⟩ := ihStep found hrest
          exact ⟨rest, hok.trans (by simp)⟩
  | case5 pace patience taken xs ys hnil settled =>
      -- a run that is used up leaves nothing to compare
      refine absurd ?_ settled
      match d, xs, ys with
      | _, x :: xs, y :: ys => exact (hnil x xs y ys rfl rfl).elim
      | .forward, [], _ | .forward, [_], [] | .forward, _ :: _ :: _, [] => rfl
      | .backward, [], _ | .backward, _ :: _, [] => rfl

/-- Asked whether a value comes before one to the left of it, `before` answers by `le`. -/
def Decides (before : α → α → Except ε Bool) (le : α → α → Bool) (xs ys : List α) : Prop :=
  ∀ x ∈ xs, ∀ y ∈ ys, before y x = .ok (!le x y)

theorem Decides.mono (h : Decides before le xs ys) (hx : xs' ⊆ xs) (hy : ys' ⊆ ys) :
    Decides before le xs' ys' :=
  fun x hx' y hy' => h x (hx hx') y (hy hy')

/-- Runs in order, of which the right one starts below all of the left one and the left one ends
above all of the right one. -/
structure Interlocked (before : α → α → Except ε Bool) (le : α → α → Bool) (xs ys : List α) :
    Prop where
  decides : Decides before le xs ys
  left_ordered : xs.Pairwise fun a b => le a b
  right_ordered : ys.Pairwise fun a b => le a b
  starts : ∀ y ∈ ys.head?, ∀ x ∈ xs, ¬le x y
  ends : ∀ x ∈ xs.getLast?, ∀ y ∈ ys, ¬le x y

namespace Interlocked

theorem mergeable_forward (order : TotalPreorder le) (h : Interlocked before le xs ys) :
    Mergeable before .forward le xs ys where
  test_eq x hx y hy := by
    simp only [Direction.leftFirst, h.decides x hx y hy]
    simp [pure, Except.pure]
  left_ordered y _ := h.left_ordered.imp fun hab hby => order.trans _ _ _ hab hby
  right_ordered x _ := h.right_ordered.imp fun hab hxa => order.trans _ _ _ hxa hab
  closes := h.ends

theorem mergeable_backward (order : TotalPreorder le) (h : Interlocked before le xs ys) :
    Mergeable before .backward (fun x y => !le x y) xs.reverse ys.reverse where
  test_eq x hx y hy := h.decides x (List.mem_reverse.mp hx) y (List.mem_reverse.mp hy)
  left_ordered y _ := List.pairwise_reverse.mpr <| h.left_ordered.imp fun hab => by
    simpa using mt (order.trans _ _ y hab)
  right_ordered x _ := List.pairwise_reverse.mpr <| h.right_ordered.imp fun hab => by
    simpa using mt fun hxa => order.trans x _ _ hxa hab
  closes := by
    intro y hy x hx
    rw [List.getLast?_reverse] at hy
    simpa using h.starts y hy x (List.mem_reverse.mp hx)

theorem mergeForward_eq (order : TotalPreorder le) (h : Interlocked before le xs ys)
    (patience : ℕ) :
    ∃ rest, mergeForward before patience xs ys = .ok (xs.merge ys le, rest) := by
  cases ys with
  | nil => exact ⟨patience, by simp [mergeForward, pure, Except.pure]⟩
  | cons y ys =>
      obtain ⟨rest, hrest⟩ := merge_eq (.step 0 0) patience [y]
        ((h.mergeable_forward order).of_suffix List.suffix_rfl (List.suffix_cons y ys))
      refine ⟨rest, hrest.trans ?_⟩
      rw [merge_cons_right (h.starts y rfl)]
      rfl

theorem mergeBackward_eq (order : TotalPreorder le) (h : Interlocked before le xs ys)
    (patience : ℕ) :
    ∃ rest, mergeBackward before patience xs ys = .ok (xs.merge ys le, rest) := by
  have hback := h.mergeable_backward order
  rw [← reverse_merge_reverse order h.left_ordered h.right_ordered]
  have hends : ∀ x ∈ xs.reverse.head?, ∀ y ∈ ys.reverse, !le x y := by
    intro x hx y hy
    rw [List.head?_reverse] at hx
    simpa using h.ends x hx y (List.mem_reverse.mp hy)
  unfold mergeBackward
  cases hx : xs.reverse with
  | nil => exact ⟨patience, by simp [pure, Except.pure]⟩
  | cons x left =>
      rw [hx] at hback hends
      obtain ⟨rest, hrest⟩ := merge_eq (.step 0 0) patience [x]
        (hback.of_suffix (List.suffix_cons x left) List.suffix_rfl)
      refine ⟨rest, ?_⟩
      rw [merge_cons_left (hends x rfl)]
      simp only [hrest]
      rfl

end Interlocked

namespace Divides

variable {passes : α → Except ε Bool} {p : α → Bool} {values : List α}

theorem of_mem_take (h : Divides passes p values) (hx : x ∈ values.take (values.countP p)) :
    p x := by
  induction values with
  | nil => cases hx
  | cons y values ih =>
      by_cases hy : p y
      · rw [List.countP_cons_of_pos hy, List.take_succ_cons] at hx
        rcases List.mem_cons.mp hx with rfl | hx
        · exact hy
        · exact ih (h.after (n := 0) rfl) hx
      · rw [h.countP_of_failing (n := 0) rfl hy] at hx
        cases hx

theorem not_of_mem_drop (h : Divides passes p values) (hx : x ∈ values.drop (values.countP p)) :
    ¬p x := by
  induction values with
  | nil => cases hx
  | cons y values ih =>
      by_cases hy : p y
      · rw [List.countP_cons_of_pos hy, List.drop_succ_cons] at hx
        exact ih (h.after (n := 0) rfl) hx
      · have hnone := h.countP_of_failing (n := 0) rfl hy
        intro hpx
        have hpos := List.countP_pos_iff.mpr ⟨x, List.mem_of_mem_drop hx, hpx⟩
        rw [hnone] at hpos
        cases hpos

end Divides

namespace Decides

/-- The values that need not come after a value to their right are the first ones. -/
theorem divides_low (h : Decides before le xs ys) (order : TotalPreorder le)
    (hxs : xs.Pairwise fun a b => le a b) (hy : y ∈ ys) :
    Divides (fun x => return !(← before y x)) (le · y) xs where
  test_eq x hx := by simp [h x hx y hy, pure, Except.pure]
  passing_first := hxs.imp fun hab hby => order.trans _ _ y hab hby

theorem divides_high (h : Decides before le xs ys) (order : TotalPreorder le)
    (hys : ys.Pairwise fun a b => le a b) (hx : x ∈ xs) :
    Divides (fun y => return !(← before y x)) (le x ·) ys.reverse where
  test_eq y hy := by simp [h x hx y (List.mem_reverse.mp hy), pure, Except.pure]
  passing_first := List.pairwise_reverse.mpr (hys.imp fun hab hxa => order.trans x _ _ hxa hab)

end Decides

theorem le_of_le_head (order : TotalPreorder le) (hys : (y :: ys).Pairwise fun a b => le a b)
    (hxy : le x y) : ∀ z ∈ y :: ys, le x z := by
  intro z hz
  rcases List.mem_cons.mp hz with rfl | hz
  · exact hxy
  · exact order.trans x y z hxy (List.rel_of_pairwise_cons hys hz)

theorem le_getLast (order : TotalPreorder le) (hxs : xs.Pairwise fun a b => le a b)
    (hy : xs.getLast? = some y) (hx : x ∈ xs) : le x y := by
  obtain ⟨init, rfl⟩ := List.getLast?_eq_some_iff.mp hy
  rcases List.mem_append.mp hx with hx | hx
  · exact (List.pairwise_append.mp hxs).2.2 x hx y (List.mem_singleton_self y)
  · obtain rfl := List.mem_singleton.mp hx
    exact order.refl x

/-- What is left of two runs when values that are in place are left out at both ends. -/
theorem Decides.interlocked (h : Decides before le xs (y :: ys))
    (hxs : xs.Pairwise fun a b => le a b) (hys : (y :: ys).Pairwise fun a b => le a b) {m n : ℕ}
    (starts : ∀ x ∈ xs.drop m, ¬le x y)
    (ends : ∀ x ∈ (xs.drop m).getLast?, ∀ z ∈ (y :: ys).take n, ¬le x z) :
    Interlocked before le (xs.drop m) ((y :: ys).take n) where
  decides := h.mono (List.drop_subset m xs) (List.take_subset n (y :: ys))
  left_ordered := hxs.sublist (List.drop_sublist m xs)
  right_ordered := hys.sublist (List.take_sublist n (y :: ys))
  starts z hz := by
    cases n with
    | zero => cases hz
    | succ n =>
        obtain rfl : y = z := Option.some.inj hz
        exact starts
  ends := ends

/-- Runs in order are joined to one that sorts what they sort together. -/
theorem exists_join (order : TotalPreorder le) (h : Decides before le xs ys)
    (hxs : xs.Pairwise fun a b => le a b) (hys : ys.Pairwise fun a b => le a b) (patience : ℕ) :
    ∃ run rest, join before patience xs ys = .ok (run, rest) ∧ Sorts le (xs ++ ys) run := by
  cases ys with
  | nil => exact ⟨xs, patience, rfl, by simpa using sorts_of_pairwise hxs⟩
  | cons y ys =>
      have hstart := h.divides_low order hxs List.mem_cons_self
      simp only [join, List.head?_cons, lead_eq .forward hstart, ok_bind]
      have low := fun x => hstart.of_mem_take (x := x)
      have starts := fun x => hstart.not_of_mem_drop (x := x)
      generalize xs.countP (le · y) = start at *
      have hlow : ∀ x ∈ xs.take start, ∀ z ∈ y :: ys, le x z :=
        fun x hx => le_of_le_head order hys (low x hx)
      cases hg : (xs.drop start).getLast? with
      | none =>
          rw [List.getLast?_eq_none_iff, List.drop_eq_nil_iff] at hg
          rw [List.take_of_length_le hg] at hlow
          exact ⟨xs ++ y :: ys, patience, rfl,
            (sorts_of_pairwise hxs).append order (sorts_of_pairwise hys) hlow⟩
      | some g =>
          have hgxs : g ∈ xs := List.mem_of_mem_drop (List.mem_of_getLast? hg)
          have hstay := h.divides_high order hys hgxs
          simp only [lead_eq .backward hstay, ok_bind]
          have high := fun z => hstay.of_mem_take (x := z)
          have ends := fun z => hstay.not_of_mem_drop (x := z)
          rw [List.take_reverse] at high
          rw [List.drop_reverse] at ends
          simp only [List.mem_reverse] at high ends
          generalize (y :: ys).length - (y :: ys).reverse.countP (le g ·) = stop at *
          have hinter := h.interlocked hxs hys starts fun x hx z hz => by
            obtain rfl : g = x := Option.some.inj (hg.symm.trans hx)
            exact ends z hz
          have hsorts := Sorts.merge_middle order start stop hxs hys hlow fun x hx z hz =>
            order.trans x g z (le_getLast order hinter.left_ordered hg hx) (high z hz)
          split
          · obtain ⟨rest, hrest⟩ := hinter.mergeForward_eq order patience
            exact ⟨_, rest, by simp [hrest, pure, Except.pure], hsorts⟩
          · obtain ⟨rest, hrest⟩ := hinter.mergeBackward_eq order patience
            exact ⟨_, rest, by simp [hrest, pure, Except.pure], hsorts⟩

end SealedSets.Sorting
