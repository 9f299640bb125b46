import SealedSets.Proofs.StableMerging
import SealedSets.Sorting

/-!
# Sorting is stable

The runs that are pending sort what was read so far, piece by piece. Reading another run and merging
neighbours keep it so, whichever neighbours are merged. So where no comparison fails and comparisons
are those of a total preorder, the answer is that of `List.mergeSort`.
-/
namespace SealedSets.Sorting

variable {α ε : Type} {before : α → α → Except ε Bool} {le : α → α → Bool} {x last : α}
  {all values more xs seen : List α} {pending : List (List α)}

section Runs

theorem insert_eq (order : TotalPreorder le) (h : Decides before le xs [x])
    (hxs : xs.Pairwise fun a b => le a b) : insert before x xs = .ok (xs.merge [x] le) := by
  have hx : x ∈ [x] := List.mem_singleton_self x
  simp only [insert, halve_eq .forward (h.divides_low order hxs hx), ok_bind]
  rw [merge_leap_left (hxs.imp fun hab hbx => order.trans _ _ x hab hbx)]
  simp [pure, Except.pure]

theorem exists_insertions (order : TotalPreorder le) (h : Decides before le all all)
    (hvalues : values ⊆ all) (hmore : more ⊆ all) (hxs : Sorts le values xs) :
    ∃ run, more.foldlM (fun sorted z => insert before z sorted) xs = .ok run ∧
      Sorts le (values ++ more) run := by
  induction more generalizing values xs with
  | nil => exact ⟨xs, rfl, by simpa using hxs⟩
  | cons z more ih =>
      obtain ⟨hz, hmore⟩ := List.cons_subset.mp hmore
      have hinsert := insert_eq order (x := z)
        (h.mono (fun y hy => hvalues (hxs.perm.mem_iff.mp hy)) (by simpa using hz)) hxs.ordered
      have hxs' := hxs.merge order (sorts_of_pairwise (List.pairwise_singleton _ z))
      obtain ⟨run, hrun, hsorts⟩ :=
        ih (List.append_subset.mpr ⟨hvalues, by simpa using hz⟩) hmore hxs'
      refine ⟨run, ?_, by simpa using hsorts⟩
      rw [List.foldlM_cons, hinsert, ok_bind, hrun]

/-- Whether a value and a later one of a run are in the order of the run. -/
def Steps (le : α → α → Bool) (descends : Bool) (a b : α) : Prop := le a b = !descends

theorem Steps.trans (order : TotalPreorder le) {descends : Bool} {a b c : α}
    (hab : Steps le descends a b) (hbc : Steps le descends b c) : Steps le descends a c := by
  cases descends with
  | false => exact order.trans a b c hab hbc
  | true =>
      refine Bool.eq_false_iff.mpr fun hac => ?_
      have hcb := order.of_not (Bool.eq_false_iff.mp hbc)
      exact Bool.eq_false_iff.mp hab (order.trans a c b hac hcb)

/-- One value more before those of a run, in its order. -/
theorem Steps.pairwise_cons (order : TotalPreorder le) {descends : Bool} {a b : α}
    (hab : Steps le descends a b) (h : (b :: values).Pairwise (Steps le descends)) :
    (a :: b :: values).Pairwise (Steps le descends) := by
  refine List.pairwise_cons.mpr ⟨fun z hz => ?_, h⟩
  rcases List.mem_cons.mp hz with rfl | hz
  · exact hab
  · exact hab.trans order (List.rel_of_pairwise_cons h hz)

theorem sorts_of_steps (order : TotalPreorder le) (descends : Bool)
    (h : values.Pairwise (Steps le descends)) :
    Sorts le values (if descends then values.reverse else values) := by
  cases descends with
  | false => exact sorts_of_pairwise h
  | true => exact .of_descending order (h.imp Bool.eq_false_iff.mp)

theorem exists_extent (order : TotalPreorder le) (descends : Bool) (length : ℕ)
    (h : Decides before le (last :: values) (last :: values)) :
    ∃ n, extent before descends length last values = .ok (length + n) ∧
      (last :: values.take n).Pairwise (Steps le descends) := by
  induction values generalizing last length with
  | nil => exact ⟨0, rfl, List.pairwise_singleton _ last⟩
  | cons x values ih =>
      have hrest := h.mono (List.subset_cons_self ..) (List.subset_cons_self ..)
      simp only [extent, h last List.mem_cons_self x (List.mem_cons_of_mem last List.mem_cons_self),
        ok_bind]
      split
      · next hstep =>
        have hx : Steps le descends last x := by rw [Steps, ← hstep, Bool.not_not]
        obtain ⟨n, hn, hsteps⟩ := ih (length + 1) hrest
        exact ⟨n + 1, hn.trans (by rw [Nat.add_right_comm, Nat.add_assoc]),
          hx.pairwise_cons order hsteps⟩
      · exact ⟨0, rfl, List.pairwise_singleton _ last⟩

theorem take_append_drop_take (values : List α) (m n : ℕ) :
    values.take m ++ (values.take n).drop m = values.take (max m n) := by
  rcases Nat.le_total m n with h | h
  · rw [Nat.max_eq_right h]
    have htake := List.take_append_drop m (values.take n)
    rwa [List.take_take, Nat.min_eq_left h] at htake
  · rw [Nat.max_eq_left h, List.drop_eq_nil_of_le (by simp; omega), List.append_nil]

/-- A run sorts the values that it replaces, of which there is one at least. -/
theorem exists_leadingRun (order : TotalPreorder le) (h : Decides before le values values)
    (least : ℕ) :
    ∃ n run, leadingRun before least values = .ok run ∧ Sorts le (values.take (n + 1)) run := by
  match values with
  | [] => exact ⟨0, [], rfl, sorts_of_pairwise .nil⟩
  | [x] => exact ⟨0, [x], rfl, sorts_of_pairwise (List.pairwise_singleton _ x)⟩
  | x :: y :: rest =>
      obtain ⟨n, hn, hsteps⟩ := exists_extent order (!le x y) 2
        (h.mono (List.subset_cons_self ..) (List.subset_cons_self ..))
      have hrun : ((x :: y :: rest).take (2 + n)).Pairwise (Steps le (!le x y)) := by
        have hxy : Steps le (!le x y) x y := (Bool.not_not _).symm
        rw [Nat.add_comm]
        exact hxy.pairwise_cons order hsteps
      obtain ⟨run, hok, hsorts⟩ := exists_insertions order h (List.take_subset _ _)
        (List.Subset.trans (List.drop_subset (2 + n) _) (List.take_subset least _))
        (sorts_of_steps order _ hrun)
      rw [take_append_drop_take] at hsorts
      refine ⟨max (2 + n) least - 1, run, ?_, ?_⟩
      · simp only [leadingRun, h x List.mem_cons_self y (by simp), hn, ok_bind, hok]
      · rwa [Nat.sub_add_cancel (by omega)]

end Runs

/-- Runs, latest first, that sort what was read piece by piece. -/
inductive Pending (le : α → α → Bool) : List α → List (List α) → Prop
  | nil : Pending le [] []
  | cons {seen piece run : List α} {pending : List (List α)} (h : Pending le seen pending)
      (hrun : Sorts le piece run) : Pending le (seen ++ piece) (run :: pending)

namespace Pending

theorem mem (h : Pending le seen pending) : ∀ run ∈ pending, run ⊆ seen := by
  induction h with
  | nil => simp
  | cons h hrun ih =>
      refine List.forall_mem_cons.mpr ⟨fun x hx => ?_, fun run hmem x hx => ?_⟩
      · exact List.mem_append_right _ (hrun.perm.mem_iff.mp hx)
      · exact List.mem_append_left _ (ih run hmem hx)

theorem sorts (h : Pending le seen pending) (hlen : pending.length ≤ 1) :
    Sorts le seen pending.reverse.flatten := by
  cases h with
  | nil => exact sorts_of_pairwise .nil
  | @cons seen piece run pending h hrun =>
      obtain rfl : pending = [] := by simpa using hlen
      cases h
      simpa using hrun

/-- The latest two runs are joined. -/
theorem exists_join {top second : List α} {older : List (List α)} (order : TotalPreorder le)
    (h : Decides before le seen seen) (hp : Pending le seen (top :: second :: older))
    (patience : ℕ) :
    ∃ run rest, join before patience second top = .ok (run, rest) ∧
      Pending le seen (run :: older) := by
  have hmem := hp.mem
  obtain _ | ⟨hp, htop⟩ := hp
  obtain _ | ⟨hp, hsecond⟩ := hp
  obtain ⟨run, rest, hjoin, hrun⟩ := Sorting.exists_join order
    (h.mono (hmem second (by simp)) (hmem top (by simp))) hsecond.ordered htop.ordered patience
  refine ⟨run, rest, hjoin, ?_⟩
  rw [List.append_assoc]
  exact hp.cons (hsecond.of_append htop hrun)

end Pending

/-- No two runs are due to be merged. -/
structure Idle (due : List (List α) → Option Pair) (pending : List (List α)) : Prop where
  latest : due pending = some .latest → ∀ top second older, pending ≠ top :: second :: older
  secondLatest : due pending = some .secondLatest →
    ∀ top second third older, pending ≠ top :: second :: third :: older

theorem Idle.length_le_one (h : Idle unfinished pending) : pending.length ≤ 1 := by
  match pending with
  | [] | [_] => simp
  | [top, second] => exact absurd rfl (h.latest rfl top second [])
  | top :: second :: third :: older =>
      have hdue : unfinished (top :: second :: third :: older) = some .secondLatest ∨
          unfinished (top :: second :: third :: older) = some .latest :=
        (Decidable.em (third.length < top.length)).imp (fun h => if_pos h) fun h => if_neg h
      rcases hdue with hdue | hdue
      · exact absurd rfl (h.secondLatest hdue top second third older)
      · exact absurd rfl (h.latest hdue top second (third :: older))

/-- Whichever runs are due, merging goes on until none are. -/
theorem exists_mergeDue (order : TotalPreorder le) (due : List (List α) → Option Pair)
    (patience : ℕ) (h : Decides before le seen seen) (hp : Pending le seen pending) :
    ∃ runs rest, mergeDue before due patience pending = .ok (runs, rest) ∧
      Pending le seen runs ∧ Idle due runs := by
  fun_induction mergeDue before due patience pending with
  | case1 patience top second older hdue ih =>
      obtain ⟨run, rest, hjoin, hrun⟩ := hp.exists_join order h patience
      simp only [hdue, hjoin, ok_bind]
      exact ih run rest hrun
  | case2 patience top second third older hdue ih =>
      obtain _ | ⟨hp, htop⟩ := hp
      obtain ⟨run, rest, hjoin, hrun⟩ := hp.exists_join order
        (h.mono (List.subset_append_left ..) (List.subset_append_left ..)) patience
      simp only [hdue, hjoin, ok_bind]
      exact ih run rest (hrun.cons htop)
  | case3 patience pending hlatest hsecond =>
      refine ⟨pending, patience, ?_, hp, fun hdue top second older hpending =>
        hlatest top second older hdue hpending, fun hdue top second third older hpending =>
        hsecond top second third older hdue hpending⟩
      split
      · next hdue => exact (hlatest _ _ _ hdue rfl).elim
      · next hdue => exact (hsecond _ _ _ _ hdue rfl).elim
      · rfl

theorem exists_sortRuns (order : TotalPreorder le) (least patience : ℕ)
    (h : Decides before le (seen ++ values) (seen ++ values)) (hp : Pending le seen pending) :
    ∃ sorted, sortRuns before least patience pending values = .ok sorted ∧
      Sorts le (seen ++ values) sorted := by
  fun_induction sortRuns before least patience pending values generalizing seen with
  | case1 patience pending =>
      rw [List.append_nil] at h ⊢
      obtain ⟨runs, rest, hruns, hp, hidle⟩ := exists_mergeDue order unfinished patience h hp
      rw [hruns]
      exact ⟨runs.reverse.flatten, rfl, hp.sorts hidle.length_le_one⟩
  | case2 patience pending x rest ih =>
      obtain ⟨n, run, hrun, hsorts⟩ := exists_leadingRun order
        (h.mono (List.subset_append_right ..) (List.subset_append_right ..)) least
      have hrest : rest.drop (run.length - 1) = (x :: rest).drop (n + 1) := by
        rw [hsorts.perm.length_eq]
        rcases Nat.le_total n rest.length with hn | hn
        · simp [Nat.min_eq_left hn]
        · simp [Nat.min_eq_right hn, List.drop_eq_nil_of_le hn]
      have hall : seen ++ (x :: rest).take (n + 1) ++ rest.drop (run.length - 1) =
          seen ++ x :: rest := by
        rw [hrest, List.append_assoc, List.take_append_drop]
      have hseen := hall ▸ List.subset_append_left (seen ++ (x :: rest).take (n + 1)) _
      obtain ⟨runs, patience', hruns, hp, -⟩ := exists_mergeDue order crowded patience
        (h.mono hseen hseen) (hp.cons hsorts)
      obtain ⟨sorted, hok, hsorted⟩ := ih run runs patience' (by rwa [hall]) hp
      refine ⟨sorted, ?_, hall ▸ hsorted⟩
      simp only [hrun, hruns, hok, ok_bind]

/-- Whatever runs there are and wherever the merges gallop, the values end up as a stable sort
leaves them. -/
theorem sort_eq (order : TotalPreorder le) (h : Decides before le values values) :
    sort before values = .ok (values.mergeSort le) := by
  obtain ⟨sorted, hok, hsorts⟩ := exists_sortRuns order (leastLength values.length 0) worthwhile
    (by simpa using h) .nil
  rw [sort, hok, hsorts.eq order (sorts_mergeSort order values)]

end SealedSets.Sorting
