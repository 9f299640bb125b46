import Mathlib.Data.List.Basic
import Mathlib.Order.Basic

/-!
# Sorting stably

A list is sorted stably if it is in order and values that tie are as they were. That leaves no
choice: there is one such list, which is the one that `List.mergeSort` gives. Stably sorted
neighbours are sorted stably by merging them, from the front or from the back.
-/
namespace SealedSets.Sorting

variable {α : Type} {le : α → α → Bool} {values more sorted other xs ys : List α}

/-- Any two values are in order in one way at least. -/
structure TotalPreorder (le : α → α → Bool) : Prop where
  trans : ∀ a b c, le a b → le b c → le a c
  total : ∀ a b, le a b || le b a

namespace TotalPreorder

theorem refl (order : TotalPreorder le) (a : α) : le a a := by
  simpa using order.total a a

theorem of_not (order : TotalPreorder le) {a b : α} (h : ¬le a b) : le b a := by
  simpa [h] using order.total a b

theorem swap (order : TotalPreorder le) : TotalPreorder fun a b => le b a where
  trans a b c hab hbc := order.trans c b a hbc hab
  total a b := order.total b a

end TotalPreorder

/-- Whether neither of two values comes before the other. -/
def tie (le : α → α → Bool) (a b : α) : Bool := le a b && le b a

theorem tie_iff {a b : α} : tie le a b ↔ le a b ∧ le b a := by
  simp [tie]

theorem tie_swap (le : α → α → Bool) (a : α) : tie (fun a b => le b a) a = tie le a :=
  funext fun _ => Bool.and_comm ..

theorem TotalPreorder.le_of_tie (order : TotalPreorder le) {a b c : α} (ha : tie le c a)
    (hb : tie le c b) : le a b :=
  order.trans a c b (tie_iff.mp ha).2 (tie_iff.mp hb).1

/-- What ties with one of two values that tie, ties with the other. -/
theorem TotalPreorder.tie_eq (order : TotalPreorder le) {a b : α} (h : tie le a b) :
    tie le a = tie le b := by
  obtain ⟨hab, hba⟩ := tie_iff.mp h
  funext c
  rw [Bool.eq_iff_iff, tie_iff, tie_iff]
  constructor
  · rintro ⟨hac, hca⟩
    exact ⟨order.trans b a c hba hac, order.trans c a b hca hab⟩
  · rintro ⟨hbc, hcb⟩
    exact ⟨order.trans a b c hab hbc, order.trans c b a hcb hba⟩

/-- The second list is the first one in order, and values that tie are as they were. -/
structure Sorts (le : α → α → Bool) (values sorted : List α) : Prop where
  perm : sorted.Perm values
  ordered : sorted.Pairwise fun a b => le a b
  ties : ∀ c, sorted.filter (tie le c) = values.filter (tie le c)

theorem sorts_of_pairwise (h : values.Pairwise fun a b => le a b) : Sorts le values values :=
  ⟨.refl values, h, fun _ => rfl⟩

/-- Two lists in order in which the ties are alike are one list: the first value of each is among
those of the other, so they tie, and of those that tie with them both are the first. -/
theorem eq_of_ties (order : TotalPreorder le) (hxs : xs.Pairwise fun a b => le a b)
    (hys : ys.Pairwise fun a b => le a b)
    (h : ∀ c, xs.filter (tie le c) = ys.filter (tie le c)) : xs = ys := by
  have self (a : α) : tie le a a := tie_iff.mpr ⟨order.refl a, order.refl a⟩
  induction xs generalizing ys with
  | nil =>
      cases ys with
      | nil => rfl
      | cons b ys =>
          have hb := h b
          rw [List.filter_nil, List.filter_cons_of_pos (self b)] at hb
          cases hb
  | cons a xs ih =>
      cases ys with
      | nil =>
          have ha := h a
          rw [List.filter_nil, List.filter_cons_of_pos (self a)] at ha
          cases ha
      | cons b ys =>
          have head {a b : α} {xs ys : List α} (hys : (b :: ys).Pairwise fun a b => le a b)
              (h : (a :: xs).filter (tie le a) = (b :: ys).filter (tie le a)) : le b a := by
            have ha : a ∈ (b :: ys).filter (tie le a) := by
              rw [← h, List.filter_cons_of_pos (self a)]
              exact List.mem_cons_self
            rcases List.mem_cons.mp (List.mem_of_mem_filter ha) with rfl | ha
            · exact order.refl a
            · exact List.rel_of_pairwise_cons hys ha
          have hba : le b a := head hys (h a)
          have hab : le a b := head hxs (h b).symm
          have hfirst := h a
          rw [List.filter_cons_of_pos (self a),
            List.filter_cons_of_pos (tie_iff.mpr ⟨hab, hba⟩)] at hfirst
          obtain rfl := (List.cons.inj hfirst).1
          rw [ih hxs.of_cons hys.of_cons fun c => ?_]
          have hc := h c
          by_cases hca : tie le c a
          · rw [List.filter_cons_of_pos hca, List.filter_cons_of_pos hca] at hc
            exact (List.cons.inj hc).2
          · rwa [List.filter_cons_of_neg hca, List.filter_cons_of_neg hca] at hc

theorem filter_merge (order : TotalPreorder le) (hxs : xs.Pairwise fun a b => le a b) (c : α) :
    (xs.merge ys le).filter (tie le c) = xs.filter (tie le c) ++ ys.filter (tie le c) := by
  induction xs generalizing ys with
  | nil => simp
  | cons x xs ih =>
      induction ys with
      | nil => simp
      | cons y ys ihys =>
          by_cases hxy : le x y
          · rw [List.cons_merge_cons_pos _ _ _ hxy, List.filter_cons, List.filter_cons,
              ih hxs.of_cons]
            split <;> rfl
          · rw [List.cons_merge_cons_neg _ _ _ hxy]
            by_cases hcy : tie le c y
            · -- what ties with `y` comes before `x`, so it is not among the values after `x`
              have hnone : (x :: xs).filter (tie le c) = [] := by
                refine List.filter_eq_nil_iff.mpr fun a ha hca => hxy ?_
                have hay := order.le_of_tie hca hcy
                rcases List.mem_cons.mp ha with rfl | ha
                · exact hay
                · exact order.trans x a y (List.rel_of_pairwise_cons hxs ha) hay
              rw [List.filter_cons_of_pos hcy, ihys, hnone, List.filter_cons_of_pos hcy]
              rfl
            · rw [List.filter_cons_of_neg hcy, ihys, List.filter_cons_of_neg hcy]

/-- To take the right list's value where the test fails is to take it where the opposite test
succeeds. -/
theorem merge_swap (first : α → α → Bool) (xs ys : List α) :
    xs.merge ys first = ys.merge xs fun y x => !first x y := by
  induction xs generalizing ys with
  | nil => simp
  | cons x xs ih =>
      induction ys with
      | nil => simp
      | cons y ys ihys =>
          by_cases h : first x y
          · rw [List.cons_merge_cons_pos _ _ _ h, List.cons_merge_cons_neg _ _ _ (by simpa using h),
              ih]
          · rw [List.cons_merge_cons_neg _ _ _ h, List.cons_merge_cons_pos _ _ _ (by simpa using h),
              ihys]

namespace Sorts

theorem eq (order : TotalPreorder le) (h : Sorts le values sorted) (h' : Sorts le values other) :
    sorted = other :=
  eq_of_ties order h.ordered h'.ordered fun c => (h.ties c).trans (h'.ties c).symm

/-- Sorting what was sorted piece by piece sorts the pieces together. -/
theorem of_append (hx : Sorts le values xs) (hy : Sorts le more ys)
    (h : Sorts le (xs ++ ys) sorted) : Sorts le (values ++ more) sorted where
  perm := h.perm.trans (hx.perm.append hy.perm)
  ordered := h.ordered
  ties c := by rw [h.ties, List.filter_append, hx.ties, hy.ties, List.filter_append]

theorem merge (order : TotalPreorder le) (hx : Sorts le values xs) (hy : Sorts le more ys) :
    Sorts le (values ++ more) (xs.merge ys le) where
  perm := (List.merge_perm_append le).trans (hx.perm.append hy.perm)
  ordered := List.pairwise_merge order.trans order.total xs ys hx.ordered hy.ordered
  ties c := by rw [filter_merge order hx.ordered, hx.ties, hy.ties, List.filter_append]

theorem append (order : TotalPreorder le) (hx : Sorts le values xs) (hy : Sorts le more ys)
    (h : ∀ x ∈ values, ∀ y ∈ more, le x y) : Sorts le (values ++ more) (xs ++ ys) := by
  rw [← List.merge_of_le fun x y hxs hys => h x (hx.perm.mem_iff.mp hxs) y (hy.perm.mem_iff.mp hys)]
  exact hx.merge order hy

/-- Where the left list starts low and the right one ends high, only the rest is to be merged. -/
theorem merge_middle (order : TotalPreorder le) (m n : ℕ) (hxs : xs.Pairwise fun a b => le a b)
    (hys : ys.Pairwise fun a b => le a b) (low : ∀ x ∈ xs.take m, ∀ y ∈ ys, le x y)
    (high : ∀ x ∈ xs.drop m, ∀ y ∈ ys.drop n, le x y) :
    Sorts le (xs ++ ys) (xs.take m ++ (xs.drop m).merge (ys.take n) le ++ ys.drop n) := by
  obtain ⟨hstart, hfirst, hxm⟩ := List.pairwise_append.mp ((List.take_append_drop m xs).symm ▸ hxs)
  obtain ⟨hsecond, hend, hyn⟩ := List.pairwise_append.mp ((List.take_append_drop n ys).symm ▸ hys)
  have hmiddle := (sorts_of_pairwise hfirst).merge order (sorts_of_pairwise hsecond)
  have hmost := (sorts_of_pairwise hstart).append order hmiddle fun x hx z hz => by
    rcases List.mem_append.mp hz with hz | hz
    · exact hxm x hx z hz
    · exact low x hx z (List.mem_of_mem_take hz)
  have hall := hmost.append order (sorts_of_pairwise hend) fun z hz y hy => by
    rcases List.mem_append.mp hz with hz | hz
    · exact low z hz y (List.mem_of_mem_drop hy)
    · rcases List.mem_append.mp hz with hz | hz
      · exact high z hz y hy
      · exact hyn z hz y hy
  rw [← List.append_assoc, List.take_append_drop, List.append_assoc, List.take_append_drop] at hall
  exact hall

theorem reverse (h : Sorts le values sorted) :
    Sorts (fun a b => le b a) values.reverse sorted.reverse where
  perm := (List.reverse_perm sorted).trans (h.perm.trans (List.reverse_perm values).symm)
  ordered := List.pairwise_reverse.mpr h.ordered
  ties c := by rw [List.filter_reverse, List.filter_reverse, tie_swap, h.ties]

/-- Values of which each comes before the one before it are sorted by turning them round, as no
two of them tie. -/
theorem of_descending (order : TotalPreorder le) (h : values.Pairwise fun a b => ¬le a b) :
    Sorts le values values.reverse where
  perm := List.reverse_perm values
  ordered := List.pairwise_reverse.mpr (h.imp order.of_not)
  ties c := by
    rw [List.filter_reverse]
    have htie : ∀ a ∈ values.filter (tie le c), tie le c a := fun a ha => List.of_mem_filter ha
    have hne := h.filter (tie le c)
    match values.filter (tie le c), htie, hne with
    | [], _, _ => rfl
    | [a], _, _ => rfl
    | a :: b :: rest, htie, hne =>
        exact absurd (order.le_of_tie (htie a (by simp)) (htie b (by simp)))
          (List.rel_of_pairwise_cons hne (by simp))

end Sorts

theorem sorts_mergeSort (order : TotalPreorder le) (values : List α) :
    Sorts le values (values.mergeSort le) where
  perm := List.mergeSort_perm values le
  ordered := List.pairwise_mergeSort order.trans order.total values
  ties c := by
    -- values that tie are in order, so they are kept as they are
    have hordered : (values.filter (tie le c)).Pairwise fun a b => le a b :=
      List.pairwise_of_forall_mem_list fun a ha b hb =>
        order.le_of_tie (List.of_mem_filter ha) (List.of_mem_filter hb)
    have hsub := (List.sublist_mergeSort order.trans order.total hordered
      List.filter_sublist).filter (tie le c)
    simp only [List.filter_filter, Bool.and_self] at hsub
    refine (hsub.eq_of_length ?_).symm
    simpa using ((List.mergeSort_perm values le).filter (tie le c)).length_eq.symm

/-- Merging from the back by the opposite order, with the right list first, comes to the same. -/
theorem reverse_merge_reverse (order : TotalPreorder le) (hxs : xs.Pairwise fun a b => le a b)
    (hys : ys.Pairwise fun a b => le a b) :
    (xs.reverse.merge ys.reverse fun x y => !le x y).reverse = xs.merge ys le := by
  have hback := ((sorts_of_pairwise hys).reverse.merge order.swap
    (sorts_of_pairwise hxs).reverse).reverse
  have hfront := (sorts_of_pairwise hxs).merge order (sorts_of_pairwise hys)
  rw [← List.reverse_append, List.reverse_reverse] at hback
  rw [merge_swap]
  simpa using hback.eq order hfront

end SealedSets.Sorting
