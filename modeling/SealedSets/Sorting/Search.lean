/-!
Counting the values that pass a test, in lists where those that pass come first. Not every value is
tested: the searches differ in which ones are, which shows where a test fails or the list is not so
divided. Where neither happens, all of them count right (`halve_eq`, `stride_eq`, `lead_eq`).
-/
namespace SealedSets.Sorting

variable {α ε : Type}

/-- Which end of a run its values are taken from. -/
inductive Direction where
  | forward
  | backward

/-- Of two values in the middle it is the later one of the run, from whichever end it is read. -/
def Direction.middle : Direction → Nat → Nat
  | forward, n => n / 2
  | backward, n => (n - 1) / 2

theorem Direction.middle_lt (d : Direction) {n : Nat} (h : 0 < n) : d.middle n < n := by
  cases d <;> simp only [middle] <;> omega

/-- Counts by halving. -/
def halve (passes : α → Except ε Bool) (d : Direction) (values : List α) : Except ε Nat :=
  let middle := d.middle values.length
  match h : values.drop middle with
  | [] => return 0
  | x :: after => do
    have : values.length - middle = after.length + 1 := by simpa using congrArg List.length h
    if ← passes x then return middle + 1 + (← halve passes d after)
    else halve passes d (values.take middle)
termination_by values.length

/-- Skips twice as many values each time one passes, and halves what it skipped last. -/
def stride (passes : α → Except ε Bool) (d : Direction) (skipped : Nat) (values : List α) :
    Except ε Nat :=
  match h : values.drop skipped with
  | [] => halve passes d values
  | x :: after => do
    have : values.length - skipped = after.length + 1 := by simpa using congrArg List.length h
    if ← passes x then return skipped + 1 + (← stride passes d (2 * skipped + 1) after)
    else halve passes d (values.take skipped)
termination_by values.length

/-- Counts by strides, which tests few values if few pass. -/
def lead (passes : α → Except ε Bool) (d : Direction) : List α → Except ε Nat
  | [] => return 0
  | x :: rest => do if ← passes x then return 1 + (← stride passes d 0 rest) else return 0

/-- No test of these values fails, and those that pass come first. -/
structure Divides (passes : α → Except ε Bool) (p : α → Bool) (values : List α) : Prop where
  test_eq : ∀ x ∈ values, passes x = .ok (p x)
  passing_first : values.Pairwise fun x y => p y → p x

namespace Divides

variable {passes : α → Except ε Bool} {p : α → Bool} {values part : List α}

theorem sublist (h : Divides passes p values) (s : part.Sublist values) : Divides passes p part :=
  ⟨fun x hx => h.test_eq x (s.subset hx), h.passing_first.sublist s⟩

theorem after (h : Divides passes p values) {n : Nat} {x : α} {rest : List α}
    (hd : values.drop n = x :: rest) : Divides passes p rest :=
  h.sublist ((List.sublist_cons_self x rest).trans (hd ▸ List.drop_sublist n values))

theorem test_drop (h : Divides passes p values) {n : Nat} {x : α} {rest : List α}
    (hd : values.drop n = x :: rest) : passes x = .ok (p x) :=
  h.test_eq x (List.mem_of_mem_drop (hd ▸ List.mem_cons_self))

/-- All before a value that passes pass. -/
theorem countP_of_passing (h : Divides passes p values) {n : Nat} {x : α} {rest : List α}
    (hd : values.drop n = x :: rest) (hx : p x) : values.countP p = n + 1 + rest.countP p := by
  have hv : values = values.take n ++ x :: rest := by rw [← hd, List.take_append_drop]
  have hn : (values.take n).length = n := by
    have := congrArg List.length hd
    simp only [List.length_drop, List.length_cons] at this
    simp only [List.length_take]
    omega
  have hf := h.passing_first
  rw [hv, List.pairwise_append] at hf
  have ht : (values.take n).countP p = (values.take n).length :=
    List.countP_eq_length.2 fun a ha => hf.2.2 a ha x (by simp) hx
  rw [hv, List.countP_append, List.countP_cons_of_pos hx, ht]
  omega

/-- None from a value on that does not pass passes. -/
theorem countP_of_failing (h : Divides passes p values) {n : Nat} {x : α} {rest : List α}
    (hd : values.drop n = x :: rest) (hx : ¬p x) : values.countP p = (values.take n).countP p := by
  have hv : values = values.take n ++ x :: rest := by rw [← hd, List.take_append_drop]
  have ht : (x :: rest).countP p = 0 := by
    have hf := h.passing_first
    rw [hv, List.pairwise_append] at hf
    refine List.countP_eq_zero.2 fun a ha hp => ?_
    rcases List.mem_cons.1 ha with rfl | ha
    · exact hx hp
    · exact hx (List.rel_of_pairwise_cons hf.2.1 ha hp)
  conv => lhs; rw [hv, List.countP_append, ht]
  rfl

end Divides

variable {passes : α → Except ε Bool} {p : α → Bool} {values : List α}

theorem halve_eq (d : Direction) (h : Divides passes p values) :
    halve passes d values = .ok (values.countP p) := by
  fun_induction halve passes d values with
  | case1 values middle hd =>
    have : values = [] := by
      have := List.drop_eq_nil_iff.1 hd
      have := d.middle_lt (n := values.length)
      exact List.length_eq_zero_iff.1 (by omega)
    subst this
    rfl
  | case2 values middle x after hd _ ihAfter ihBefore =>
    simp only [h.test_drop hd, bind, Except.bind]
    by_cases hx : p x
    · simp [hx, ihAfter (h.after hd), h.countP_of_passing hd, pure, Except.pure]
    · simp [hx, ihBefore (h.sublist (List.take_sublist ..)), h.countP_of_failing hd]

theorem stride_eq (d : Direction) (skipped : Nat) (h : Divides passes p values) :
    stride passes d skipped values = .ok (values.countP p) := by
  fun_induction stride passes d skipped values with
  | case1 => exact halve_eq d h
  | case2 skipped values x after hd _ ih =>
    simp only [h.test_drop hd, bind, Except.bind]
    by_cases hx : p x
    · simp [hx, ih (h.after hd), h.countP_of_passing hd, pure, Except.pure]
    · simp [hx, halve_eq d (h.sublist (List.take_sublist ..)), h.countP_of_failing hd]

theorem lead_eq (d : Direction) (h : Divides passes p values) :
    lead passes d values = .ok (values.countP p) := by
  cases values with
  | nil => rfl
  | cons x rest =>
    simp only [lead, h.test_drop (n := 0) rfl, bind, Except.bind]
    by_cases hx : p x
    · simp [hx, stride_eq d 0 (h.after (n := 0) rfl), h.countP_of_passing (n := 0) rfl, pure,
        Except.pure]
    · simp [hx, h.countP_of_failing (n := 0) rfl, pure, Except.pure]

end SealedSets.Sorting
