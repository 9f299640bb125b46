import Mathlib.Data.List.Perm.Subperm
import SealedSets.Proofs.Deduplication

/-!
# Lists that stand for one set

Two lists stand for one set if each covers the other. If no list has equal elements, covering in
one direction and counting is enough.
-/
namespace SealedSets

variable {α : Type} {eq : α → α → Bool} {S : Set α} {us vs xs ys : List α}

/-- An equivalence relation on the values of `S`. -/
structure EquivalentOn (S : Set α) (eq : α → α → Bool) : Prop where
  refl : ∀ x ∈ S, eq x x
  symm : ∀ x ∈ S, ∀ y ∈ S, eq x y → eq y x
  trans : ∀ x ∈ S, ∀ y ∈ S, ∀ z ∈ S, eq x y → eq y z → eq x z

theorem equivalentOn_key {β : Type} [DecidableEq β] (S : Set α) (key : α → β) :
    EquivalentOn S fun x y => key x == key y where
  refl x _ := by simp
  symm x _ y _ := by simpa using Eq.symm
  trans x _ y _ z _ := by simpa using Eq.trans

/-- Every element of the first list is equal to one of the second. -/
def Covered (eq : α → α → Bool) (us vs : List α) : Prop := ∀ u ∈ us, ∃ v ∈ vs, eq u v

@[simp] theorem covered_nil (vs : List α) : Covered eq [] vs := fun _ h => nomatch h

@[simp] theorem covered_nil_right : Covered eq us [] ↔ us = [] := by
  simp [Covered, List.eq_nil_iff_forall_not_mem]

theorem Covered.refl (h : EquivalentOn S eq) (hus : ∀ u ∈ us, u ∈ S) : Covered eq us us :=
  fun u hu => ⟨u, hu, h.refl u (hus u hu)⟩

theorem Covered.trans {ws : List α} (h : EquivalentOn S eq) (hus : ∀ u ∈ us, u ∈ S)
    (hvs : ∀ v ∈ vs, v ∈ S) (hws : ∀ w ∈ ws, w ∈ S) (huv : Covered eq us vs)
    (hvw : Covered eq vs ws) : Covered eq us ws := by
  intro u hu
  obtain ⟨v, hv, huv⟩ := huv u hu
  obtain ⟨w, hw, hvw⟩ := hvw v hv
  exact ⟨w, hw, h.trans u (hus u hu) v (hvs v hv) w (hws w hw) huv hvw⟩

theorem Covered.all_any (h : EquivalentOn S eq) (hus : ∀ u ∈ us, u ∈ S) (hvs : ∀ v ∈ vs, v ∈ S) :
    (us.all fun u => vs.any (eq · u)) ↔ Covered eq us vs := by
  simp only [List.all_eq_true, List.any_eq_true, Covered]
  constructor
  · intro hcov u hu
    obtain ⟨v, hv, hvu⟩ := hcov u hu
    exact ⟨v, hv, h.symm v (hvs v hv) u (hus u hu) hvu⟩
  · intro hcov u hu
    obtain ⟨v, hv, huv⟩ := hcov u hu
    exact ⟨v, hv, h.symm u (hus u hu) v (hvs v hv) huv⟩

/-- Elements that are not equal to each other are equal to different elements. -/
theorem Covered.exists_subperm (h : EquivalentOn S eq) (hus : ∀ u ∈ us, u ∈ S)
    (hvs : ∀ v ∈ vs, v ∈ S) (distinct : us.Pairwise fun x y => ¬eq x y)
    (hcov : Covered eq us vs) :
    ∃ ws, ws.Subperm vs ∧ List.Forall₂ (fun u w => eq u w) us ws := by
  induction us generalizing vs with
  | nil => exact ⟨[], List.nil_subperm, .nil⟩
  | cons u us ih =>
      obtain ⟨hu, hus⟩ := List.forall_mem_cons.mp hus
      obtain ⟨hne, distinct⟩ := List.pairwise_cons.mp distinct
      obtain ⟨v, hv, huv⟩ := hcov u List.mem_cons_self
      obtain ⟨l, r, rfl⟩ := List.append_of_mem hv
      have hvS := hvs v hv
      -- what else were equal to `v` would be equal to `u`
      have hrest : Covered eq us (l ++ r) := by
        intro u' hu'
        obtain ⟨v', hv', huv'⟩ := hcov u' (List.mem_cons_of_mem u hu')
        rcases List.mem_append.mp hv' with hl | hr
        · exact ⟨v', List.mem_append_left r hl, huv'⟩
        · rcases List.mem_cons.mp hr with rfl | hr
          · have hvu' := h.symm u' (hus u' hu') v' hvS huv'
            exact absurd (h.trans u hu v' hvS u' (hus u' hu') huv hvu') (hne u' hu')
          · exact ⟨v', List.mem_append_right l hr, huv'⟩
      have hsub : ∀ w ∈ l ++ r, w ∈ S := by
        intro w hw
        apply hvs
        rcases List.mem_append.mp hw with hl | hr
        · exact List.mem_append_left _ hl
        · exact List.mem_append_right l (List.mem_cons_of_mem v hr)
      obtain ⟨ws, hws, hforall⟩ := ih hus hsub distinct hrest
      refine ⟨v :: ws, ?_, .cons huv hforall⟩
      exact ((List.subperm_cons v).mpr hws).trans List.perm_middle.symm.subperm

theorem Covered.length_le (h : EquivalentOn S eq) (hus : ∀ u ∈ us, u ∈ S)
    (hvs : ∀ v ∈ vs, v ∈ S) (distinct : us.Pairwise fun x y => ¬eq x y)
    (hcov : Covered eq us vs) : us.length ≤ vs.length := by
  obtain ⟨ws, hws, hforall⟩ := hcov.exists_subperm h hus hvs distinct
  rw [hforall.length_eq]
  exact hws.length_le

/-- If there are no more elements to be equal to, each of them is met. -/
theorem Covered.exists_perm (h : EquivalentOn S eq) (hus : ∀ u ∈ us, u ∈ S)
    (hvs : ∀ v ∈ vs, v ∈ S) (distinct : us.Pairwise fun x y => ¬eq x y)
    (len : vs.length ≤ us.length) (hcov : Covered eq us vs) :
    ∃ ws, ws.Perm vs ∧ List.Forall₂ (fun u w => eq u w) us ws := by
  obtain ⟨ws, hws, hforall⟩ := hcov.exists_subperm h hus hvs distinct
  exact ⟨ws, hws.perm_of_length_le (by rwa [← hforall.length_eq]), hforall⟩

/-- So covering goes both ways. -/
theorem Covered.symm (h : EquivalentOn S eq) (hus : ∀ u ∈ us, u ∈ S)
    (hvs : ∀ v ∈ vs, v ∈ S) (distinct : us.Pairwise fun x y => ¬eq x y)
    (len : vs.length ≤ us.length) (hcov : Covered eq us vs) : Covered eq vs us := by
  obtain ⟨ws, hws, hforall⟩ := hcov.exists_perm h hus hvs distinct len
  intro v hv
  obtain ⟨u, hu, huv⟩ := Table.exists_of_forall₂ hforall (hws.mem_iff.mpr hv)
  exact ⟨u, hu, h.symm u (hus u hu) v (hvs v hv) huv⟩

/-- First occurrences stand for the set that all candidates stand for. -/
theorem covered_firsts_iff (h : EquivalentOn S eq) (hxs : ∀ x ∈ xs, x ∈ S)
    (hys : ∀ y ∈ ys, y ∈ S) : Covered eq (firsts eq xs) (firsts eq ys) ↔ Covered eq xs ys := by
  constructor
  · intro hcov x hx
    obtain ⟨u, hu, hux⟩ := exists_mem_firsts (fun y hy => h.refl y (hxs y hy)) hx
    obtain ⟨v, hv, huv⟩ := hcov u hu
    have huS := hxs u (mem_of_mem_firsts hu)
    have hvy := mem_of_mem_firsts hv
    refine ⟨v, hvy, h.trans x (hxs x hx) u huS v (hys v hvy) ?_ huv⟩
    exact h.symm u huS x (hxs x hx) hux
  · intro hcov u hu
    have hux := mem_of_mem_firsts hu
    obtain ⟨y, hy, huy⟩ := hcov u hux
    obtain ⟨v, hv, hvy⟩ := exists_mem_firsts (fun y hy => h.refl y (hys y hy)) hy
    have hvS := hys v (mem_of_mem_firsts hv)
    refine ⟨v, hv, h.trans u (hxs u hux) y (hys y hy) v hvS huy ?_⟩
    exact h.symm v hvS y (hys y hy) hvy

end SealedSets
