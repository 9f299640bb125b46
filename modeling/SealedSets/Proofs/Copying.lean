import SealedSets.Proofs.WholeNumbers
import SealedSets.Value.Equality
import SealedSets.Value.Placement

/-!
# Copying sets into arrays

A copy writes the slots from the offset on, one for each element, and no others. An offset that is
no count, or lies behind the end of the array, is refused before anything is written. The three
kinds of sets copy in three ways: not at all, by one write, and slot by slot from an array.
-/
namespace SealedSets

open Binary64

namespace Slots

variable {α : Type} {a : Slots α} {position : Binary64} {x : α} {n : ℕ}

theorem index?_of_equal (hn : n < maxLength) (h : position.equal (ofNat n)) :
    index? position = some n := by
  have hlt : n < 0x20000000000000 := hn.trans (by decide)
  have hcount : position.isNonNegativeInteger = true := by
    rw [isNonNegativeInteger_congr (place?_eq_of_equal h), isNonNegativeInteger_ofNat hlt]
  have hvalue : position.truncate = n := truncate_of_units? (units?_of_equal_ofNat hlt h)
  simp [index?, hcount, hvalue, hn]

theorem size_write : (a.write n x).size = a.size ⊔ (n + 1) := by
  rw [write, Array.size_setIfInBounds, Array.size_append, Array.size_replicate]
  omega

/-- A write to a slot of the array or to the one behind them changes that slot only. -/
theorem getElem?_write (hn : n ≤ a.size) (i : ℕ) :
    (a.write n x)[i]? = if i = n then some (some x) else a[i]? := by
  rw [write, Array.getElem?_setIfInBounds, Array.size_append, Array.size_replicate]
  by_cases hi : i = n
  · subst hi
    rw [if_pos rfl, if_pos rfl, if_pos (by omega)]
  · rw [if_neg (Ne.symm hi), if_neg hi, Array.getElem?_append]
    split
    · rfl
    · rw [Array.getElem?_eq_none (by rw [Array.size_replicate]; omega),
        Array.getElem?_eq_none (by omega)]

/-- The second array is the first one with the values in the slots from `n` on. -/
structure Spliced (a b : Slots α) (n : ℕ) (xs : List α) : Prop where
  size_eq : b.size = a.size ⊔ (n + xs.length)
  getElem?_eq : ∀ i, b[i]? = if n ≤ i ∧ i < n + xs.length then xs[i - n]?.map some else a[i]?

theorem spliced_nil (hn : n ≤ a.size) : Spliced a a n [] where
  size_eq := by simp [hn]
  getElem?_eq i := by
    rw [if_neg (by simp)]

/-- One more value goes to the slot behind those that are written. -/
theorem Spliced.write {b : Slots α} {xs : List α} (h : Spliced a b n xs) (x : α) :
    Spliced a (b.write (n + xs.length) x) n (xs ++ [x]) where
  size_eq := by
    rw [size_write, h.size_eq, List.length_append, List.length_singleton]
    omega
  getElem?_eq i := by
    have hsize := h.size_eq
    rw [getElem?_write (by omega), h.getElem?_eq, List.length_append, List.length_singleton]
    by_cases hi : i = n + xs.length
    · subst hi
      rw [if_pos rfl, if_pos (by omega)]
      simp
    · rw [if_neg hi]
      by_cases hin : n ≤ i ∧ i < n + xs.length
      · rw [if_pos hin, if_pos (by omega), List.getElem?_append_left (by omega)]
      · rw [if_neg hin, if_neg (by omega)]

/-- The slots of an array without holes are read one after another. -/
theorem map_read? (missing : α) (xs : Array α) :
    (List.range xs.size).map (fun i => (read? (xs.map some) i).getD missing) = xs.toList := by
  refine List.ext_getElem (by simp) fun i hi _ => ?_
  rw [List.length_map, List.length_range] at hi
  simp [read?, hi]

theorem countBelow_ofNat (h : n < 0x20000000000000) : countBelow (ofNat n) = n := by
  rw [countBelow, ceil_ofNat h, ofNat, truncate_ofInt (by simpa using h), Int.toNat_natCast]

theorem blank_ofNat (h : n ≤ maxLength) :
    blank (ofNat n) = .ok (Array.replicate n none : Slots α) := by
  have hlt : n < 0x20000000000000 := h.trans_lt (by decide)
  have hvalue : (ofNat n).truncate = n := truncate_ofInt (by simpa using hlt)
  simp [blank, resize, isNonNegativeInteger_ofNat hlt, hvalue, h]
  rfl

end Slots

namespace Edit

variable {source target : Slots Value} {offset position : Binary64} {i k m n : ℕ}

theorem bind_of_ok {α β : Type} {edit : Edit α} {next : α → Edit β} {x : α} {a b : Slots Value}
    (h : edit a = .ok x b) : (edit >>= next) a = next x b := by
  change EStateM.bind edit next a = _
  rw [EStateM.bind, h]

theorem place_number (h : Slots.index? position = some i) :
    (Value.number position).place = .ok (.slot i) := by
  rw [Value.place, h]
  rfl

theorem write_number (h : Slots.index? position = some i) (x : Value) (a : Slots Value) :
    write (.number position) x a = .ok () (a.write i x) := by
  unfold write
  rw [place_number h]
  rfl

theorem readFrom_number (h : Slots.index? position = some i) :
    Value.readFrom source (.number position) = .ok ((source.read? i).getD .undefined) := by
  rw [Value.readFrom, place_number h]
  rfl

/-- Copying from the first slot on, a step reads the slot of its number. -/
theorem copySlot_number (h : offset.equal (ofNat n)) (hi : n + i < Slots.maxLength)
    (a : Slots Value) :
    copySlot source (.number zero) (.number offset) i a =
      .ok () (a.write (n + i) ((source.read? i).getD .undefined)) := by
  have hmax : Slots.maxLength < 0x20000000000000 := by decide
  have hposition : Slots.index? (offset + ofNat i) = some (n + i) := by
    rw [add_ofNat (by omega) (by omega) h]
    exact Slots.index?_of_equal hi (equal_self_ofNat _)
  have hsource : Slots.index? (zero + ofNat i) = some i := by
    rw [add_ofNat (n := 0) (by omega) (by omega) (by decide), Nat.zero_add]
    exact Slots.index?_of_equal (by omega) (equal_self_ofNat _)
  change (liftM (Value.readFrom source (.number (zero + ofNat i))) >>=
    write (.number (offset + ofNat i)) : Edit Unit) a = _
  rw [readFrom_number hsource]
  exact write_number hposition _ a

theorem forM_range_succ (f : ℕ → Edit Unit) (m : ℕ) :
    (List.range (m + 1)).forM f = (List.range m).forM f >>= fun _ => f m := by
  rw [List.range_succ, List.forM_eq_forM, List.forM_append]
  simp

/-- The induction is on the slots that were copied, of which the last one is copied last. -/
theorem forM_copySlot (source : Slots Value) (h : offset.equal (ofNat n)) (hn : n ≤ target.size)
    (hm : n + m ≤ Slots.maxLength) :
    ∃ copy, (List.range m).forM (copySlot source (.number zero) (.number offset)) target =
        .ok () copy ∧
      target.Spliced copy n ((List.range m).map fun i => (source.read? i).getD .undefined) := by
  induction m with
  | zero => exact ⟨target, rfl, Slots.spliced_nil hn⟩
  | succ m ih =>
      obtain ⟨copy, hcopy, hspliced⟩ := ih (by omega)
      have hnext := hspliced.write ((source.read? m).getD .undefined)
      rw [List.length_map, List.length_range] at hnext
      refine ⟨copy.write (n + m) ((source.read? m).getD .undefined), ?_, ?_⟩
      · rw [forM_range_succ, bind_of_ok hcopy]
        exact copySlot_number h (by omega) copy
      · rwa [List.range_succ, List.map_append]

theorem overwrite_number (source : Slots Value) (h : offset.equal (ofNat n))
    (hn : n ≤ target.size) (hm : n + m ≤ Slots.maxLength) :
    ∃ copy, overwrite source (.number zero) (.number offset) (.number (ofNat m)) target =
        .ok (.number (offset + ofNat m)) copy ∧
      target.Spliced copy n ((List.range m).map fun i => (source.read? i).getD .undefined) := by
  have hmax : Slots.maxLength < 0x20000000000000 := by decide
  have hcount : (Value.number (ofNat m)).countBelow = .ok m := by
    change Except.ok (Slots.countBelow (ofNat m)) = _
    rw [Slots.countBelow_ofNat (by omega)]
  obtain ⟨copy, hcopy, hspliced⟩ := forM_copySlot source h hn hm
  refine ⟨copy, ?_, hspliced⟩
  unfold overwrite
  rw [hcount]
  change ((List.range m).forM (copySlot source (.number zero) (.number offset)) >>= fun _ =>
    liftM ((Value.number offset).plus (.number (ofNat m)))) target = _
  rw [bind_of_ok hcopy]
  rfl

/-- All kinds of sets write their elements one after another, and answer with what comes next. -/
theorem writeElements_spec (s : SealedSet Rule Value) (target : Slots Value)
    (h : offset.equal (ofNat n)) (hn : n ≤ target.size) (hlen : n + s.size ≤ Slots.maxLength) :
    ∃ copy position, writeElements (.number offset) s target = .ok (.number position) copy ∧
      position.equal (ofNat (n + s.size)) ∧ target.Spliced copy n s.elements := by
  have hmax : Slots.maxLength < 0x20000000000000 := by decide
  cases s with
  | empty => exact ⟨target, offset, rfl, h, Slots.spliced_nil hn⟩
  | singleton ref rule x code =>
      rw [SealedSet.size] at hlen ⊢
      have hwrite := write_number (Slots.index?_of_equal (by omega) h) x target
      refine ⟨target.write n x, offset + ofNat 1, bind_of_ok hwrite, ?_,
        (Slots.spliced_nil hn).write x⟩
      rw [add_ofNat (by omega) (by omega) h]
      exact equal_self_ofNat _
  | table ref rule t =>
      rw [SealedSet.size] at hlen ⊢
      obtain ⟨copy, hcopy, hspliced⟩ := overwrite_number (t.elements.map some) h hn hlen
      refine ⟨copy, offset + ofNat t.size, hcopy, ?_, ?_⟩
      · rw [add_ofNat (by omega) (by omega) h]
        exact equal_self_ofNat _
      · rwa [Table.size, Slots.map_read?] at hspliced

/-- A copy to a new array that has a slot for each element leaves the elements there. -/
theorem writeElements_blank (s : SealedSet Rule Value) (h : s.size ≤ Slots.maxLength) :
    ∃ fresh position, Slots.blank (ofNat s.size) = .ok fresh ∧
      writeElements (.number zero) s fresh = .ok position (s.elements.map some).toArray := by
  have hzero : zero.equal (ofNat 0) := by decide
  obtain ⟨copy, position, hwrite, -, hspliced⟩ :=
    writeElements_spec s (Array.replicate s.size none) hzero (Nat.zero_le _) (by omega)
  have helements : copy = (s.elements.map some).toArray := by
    refine Array.ext_getElem? fun i => ?_
    have hlist : (s.elements.map some).toArray[i]? = s.elements[i]?.map some := by simp
    rw [hspliced.getElem?_eq, hlist, SealedSet.length_elements]
    by_cases hi : i < s.size
    · rw [if_pos (by omega), Nat.sub_zero]
    · rw [if_neg (by omega), Array.getElem?_eq_none (by rw [Array.size_replicate]; omega),
        List.getElem?_eq_none (by rw [SealedSet.length_elements]; omega)]
      rfl
  exact ⟨_, .number position, Slots.blank_ofNat h, helements ▸ hwrite⟩

end Edit

namespace SealedSet

variable {s : SealedSet Rule Value} {target copy : Slots Value} {offset : Binary64}
  {position : Value} {n : ℕ}

theorem isOffset_of_equal (hn : n ≤ target.size) (hlt : n < 0x20000000000000)
    (h : offset.equal (ofNat n)) : (Value.number offset).isOffset target.size = true := by
  have hcount : offset.isNonNegativeInteger = true := by
    rw [isNonNegativeInteger_congr (place?_eq_of_equal h), isNonNegativeInteger_ofNat hlt]
  have hless : (ofNat target.size).less offset = false := by
    have hlevel := countLevel_mono hn
    rw [less_congr_right (place?_eq_of_equal h), ofNat_eq, ofNat_eq, ← Bool.not_eq_true,
      less_ofLevel]
    omega
  rw [Value.isOffset, hcount, hless]
  rfl

theorem exists_equal_of_isOffset (h : (Value.number offset).isOffset target.size = true) :
    ∃ n ≤ target.size, offset.equal (ofNat n) := by
  rw [Value.isOffset, Bool.and_eq_true, Bool.not_eq_true'] at h
  exact exists_equal_ofNat h.1 h.2

theorem copyInto_of_isOffset (h : (Value.number offset).isOffset target.size = true)
    (hwrite : Edit.writeElements (.number offset) s target = .ok position copy) :
    s.copyInto true target (.number offset) = (copy, .ok position) := by
  rw [copyInto, h, hwrite]
  rfl

theorem copyInto_of_not_isOffset (h : (Value.number offset).isOffset target.size = false) :
    s.copyInto true target (.number offset) =
      (target, .error (.outside (.number offset) target.size offset.toString)) := by
  rw [copyInto, h]
  rfl

/-- From a valid offset on, a copy writes the elements of the set in their order, as a copy to a new
array has them. All other slots, holes among them, are as before, and the array is longer only if
the copy runs past its end. At any other offset the copy is refused, and the array is as before. -/
theorem copyInto_frame (s : SealedSet Rule Value) (target : Slots Value) (offset : Binary64) :
    (∀ n ≤ target.size, offset.equal (ofNat n) → n + s.size ≤ Slots.maxLength →
      ∃ copy position fresh last,
        s.copyInto true target (.number offset) = (copy, .ok (.number position)) ∧
        position.equal (ofNat (n + s.size)) ∧ copy.size = target.size ⊔ (n + s.size) ∧
        (∀ i, copy[i]? =
          if n ≤ i ∧ i < n + s.size then s.elements[i - n]?.map some else target[i]?) ∧
        Slots.blank (ofNat s.size) = .ok fresh ∧
        Edit.writeElements (.number zero) s fresh = .ok last (s.elements.map some).toArray) ∧
      ((∀ n ≤ target.size, ¬offset.equal (ofNat n)) →
        ∃ report, s.copyInto true target (.number offset) = (target, .error report) ∧
          report.name = "SetError" ∧
          report.category? = some (.text SetCategory.invalidOffset.toText)) := by
  have hmax : Slots.maxLength < 0x20000000000000 := by decide
  constructor
  · intro n hn h hlen
    obtain ⟨copy, position, hwrite, hposition, hspliced⟩ :=
      Edit.writeElements_spec s target h hn hlen
    obtain ⟨fresh, last, hfresh, helements⟩ := Edit.writeElements_blank s (by omega)
    have hcopy := copyInto_of_isOffset (isOffset_of_equal hn (by omega) h) hwrite
    have hsize := hspliced.size_eq
    have hget := hspliced.getElem?_eq
    rw [s.length_elements] at hsize hget
    exact ⟨copy, position, fresh, last, hcopy, hposition, hsize, hget, hfresh, helements⟩
  · intro h
    have hinvalid : (Value.number offset).isOffset target.size = false := by
      by_contra hvalid
      obtain ⟨n, hn, heq⟩ := exists_equal_of_isOffset (Bool.not_eq_false _ ▸ hvalid)
      exact h n hn heq
    exact ⟨_, copyInto_of_not_isOffset hinvalid, rfl, rfl⟩

set_option maxRecDepth 4000 in
/-- The second element is written behind the old end and the hole stays. NaN is no offset. -/
theorem copyInto_frame_past_end :
    let number := fun n : ℕ => Value.number (ofNat n)
    let target : Slots Value := #[some (number 1), none, some (number 9)]
    ∃ s d, ofCandidates true Rule.equivalence .natural (.set 0) none
        ([number 3, number 4].map Value.present?) {} = .ok s d ∧
      (∃ position, s.copyInto true target (.number (ofNat 2)) =
        (#[some (number 1), none, some (number 3), some (number 4)], .ok (.number position)) ∧
        position.equal (ofNat 4)) ∧
      ∃ report, s.copyInto true target (.number nan) = (target, .error report) ∧
        report.category? = some (.text SetCategory.invalidOffset.toText) := by
  intro number target
  obtain ⟨s, d, hs, helements⟩ : ∃ s d, ofCandidates true Rule.equivalence .natural (.set 0) none
      ([number 3, number 4].map Value.present?) {} = .ok s d ∧
      s.elements = [number 3, number 4] := by
    simp only [number]
    exact ⟨_, _, rfl, rfl⟩
  have hsize : s.size = 2 := by
    rw [← length_elements, helements]
    rfl
  have htarget : target.size = 3 := rfl
  obtain ⟨hvalid, -⟩ := copyInto_frame s target (ofNat 2)
  obtain ⟨copy, position, -, -, hcopy, hposition, hgrown, hget, -, -⟩ :=
    hvalid 2 (by omega) (by decide) (by rw [hsize]; decide)
  have hnan : ∀ n ≤ target.size, ¬nan.equal (ofNat n) := fun n _ => by simp [equal]
  obtain ⟨report, hrefused, -, hcategory⟩ := (copyInto_frame s target nan).2 hnan
  have hslots : copy = #[some (number 1), none, some (number 3), some (number 4)] := by
    refine Array.ext_getElem? fun i => ?_
    rw [hget, hsize, helements]
    obtain rfl | rfl | rfl | rfl | hi : i = 0 ∨ i = 1 ∨ i = 2 ∨ i = 3 ∨ 4 ≤ i := by omega
    · rfl
    · rfl
    · rfl
    · rfl
    · rw [if_neg (by omega), Array.getElem?_eq_none (by omega), Array.getElem?_eq_none hi]
  rw [hsize] at hposition
  exact ⟨s, d, hs, ⟨position, hslots ▸ hcopy, hposition⟩, report, hrefused, hcategory⟩

end SealedSet
end SealedSets
