import Mathlib.Algebra.Group.Units.Basic
import Mathlib.Algebra.Ring.Nat
import Mathlib.Data.BitVec
import Mathlib.Data.List.Nodup
import SealedSets.Proofs.Numbering

/-!
# Requests for identity codes

The codes are the work of requests, one after another. A request numbers an object that has no code
yet and does nothing else, so an object is numbered once. As the factor of the codes is odd, objects
have different codes as long as their numbers differ in the low 32 bits.
-/
namespace SealedSets.IdentityCodes

variable {ref ref' : Ref} {b c d : IdentityCodes} {P : IdentityCodes → Prop}

section Request

theorem le_request (ref : Ref) (c : IdentityCodes) : c ≤ (c.request ref).2 := by
  unfold request
  split
  · exact le_rfl
  · exact List.prefix_append _ _

theorem idxOf?_append (refs refs' : List Ref) :
    (refs ++ refs').idxOf? ref =
      (refs.idxOf? ref).or ((refs'.idxOf? ref).map (· + refs.length)) :=
  List.findIdx?_append

/-- An object keeps the code that it was given. -/
theorem request_of_le (h : (c.request ref).2 ≤ d) : d.request ref = ((c.request ref).1, d) := by
  obtain ⟨rest, hd⟩ := h
  unfold request at hd ⊢
  cases hc : c.requested.idxOf? ref with
  | some i =>
      simp only [hc] at hd ⊢
      rw [← hd, idxOf?_append, hc, Option.some_or]
  | none =>
      simp only [hc] at hd ⊢
      rw [← hd, List.append_assoc, idxOf?_append, hc]
      simp [List.idxOf?_cons]

theorem requested_request (ref : Ref) (c : IdentityCodes) :
    (c.request ref).2.requested =
      if ref ∈ c.requested then c.requested else c.requested ++ [ref] := by
  unfold request
  cases h : c.requested.idxOf? ref with
  | some i =>
      have hmem : ref ∈ c.requested := by
        by_contra hnot
        rw [List.idxOf?_eq_none_iff.mpr hnot] at h
        cases h
      rw [if_pos hmem]
  | none => rw [if_neg (List.idxOf?_eq_none_iff.mp h)]

/-- Only an object that has no code yet is numbered. -/
theorem request_of_mem (h : ref ∈ c.requested) : (c.request ref).2 = c := by
  have hsame := requested_request ref c
  rw [if_pos h] at hsame
  exact congrArg IdentityCodes.mk hsame

theorem mem_requested_request :
    ref' ∈ (c.request ref).2.requested ↔ ref' ∈ c.requested ∨ ref' = ref := by
  rw [requested_request]
  split
  · next h =>
    constructor
    · exact Or.inl
    · rintro (h' | rfl)
      · exact h'
      · exact h
  · rw [List.mem_append, List.mem_singleton]

end Request

section Lasting

/-- What lasts holds on after every request. -/
def Lasting (P : IdentityCodes → Prop) : Prop := ∀ ref c, P c → P (c.request ref).2

theorem lasting_le (b : IdentityCodes) : Lasting (b ≤ ·) :=
  fun ref c hbc => hbc.trans (le_request ref c)

/-- No object is numbered twice. -/
theorem lasting_nodup : Lasting fun c => c.requested.Nodup := by
  intro ref c hc
  rw [requested_request]
  split
  · exact hc
  · next h => exact List.nodup_append'.mpr ⟨hc, List.nodup_singleton ref, by simpa using h⟩

/-- The codes after a request for each of these objects. -/
def requestAll (c : IdentityCodes) (refs : List Ref) : IdentityCodes :=
  refs.foldl (fun c ref => (c.request ref).2) c

/-- Only requests lie between the two. -/
def LeadsTo (c d : IdentityCodes) : Prop := ∃ refs, c.requestAll refs = d

theorem LeadsTo.refl (c : IdentityCodes) : c.LeadsTo c := ⟨[], rfl⟩

theorem leadsTo_request (ref : Ref) (c : IdentityCodes) : c.LeadsTo (c.request ref).2 :=
  ⟨[ref], rfl⟩

theorem LeadsTo.trans (h : b.LeadsTo c) (h' : c.LeadsTo d) : b.LeadsTo d := by
  obtain ⟨refs, rfl⟩ := h
  obtain ⟨refs', rfl⟩ := h'
  exact ⟨refs ++ refs', List.foldl_append⟩

theorem lasting_leadsTo (b : IdentityCodes) : Lasting b.LeadsTo :=
  fun ref c h => h.trans (leadsTo_request ref c)

/-- The induction is on the requests. -/
theorem Lasting.of_leadsTo (hP : Lasting P) (h : c.LeadsTo d) (hc : P c) : P d := by
  obtain ⟨refs, rfl⟩ := h
  induction refs generalizing c with
  | nil => exact hc
  | cons ref refs ih => exact ih (hP ref c hc)

theorem LeadsTo.le (h : c.LeadsTo d) : c ≤ d := (lasting_le c).of_leadsTo h le_rfl

/-- Once it has a code, an object is given that code by every request, and no object is numbered. -/
theorem request_of_leadsTo (h : (c.request ref).2.LeadsTo d) :
    d.request ref = ((c.request ref).1, d) :=
  request_of_le h.le

end Lasting

section Codes

variable {m n : ℕ}

/-- The inverse of the factor of the codes. -/
def goldenInverse : HashCode := 0x144cbc89#32

theorem isUnit_goldenRatio : IsUnit goldenRatio :=
  .of_mul_eq_one goldenInverse (by decide)

/-- Multiplication by an odd factor takes no two words to one. -/
theorem codeAt_eq_iff : codeAt m = codeAt n ↔ m % 2 ^ 32 = n % 2 ^ 32 := by
  rw [codeAt, codeAt, isUnit_goldenRatio.mul_left_inj, ← BitVec.toNat_inj, BitVec.toNat_ofNat,
    BitVec.toNat_ofNat]

theorem exists_number (h : ref ∈ c.requested) :
    ∃ i < c.requested.length, c.requested[i]? = some ref ∧ (c.request ref).1 = codeAt (i + 1) := by
  unfold request
  cases hi : c.requested.idxOf? ref with
  | none => exact absurd h (List.idxOf?_eq_none_iff.mp hi)
  | some i =>
      obtain ⟨hlt, href, -⟩ := List.findIdx?_eq_some_iff_getElem.mp hi
      refine ⟨i, hlt, ?_, rfl⟩
      rw [List.getElem?_eq_getElem hlt, eq_of_beq href]

/-- As long as at most `2 ^ 32` objects are numbered, different objects have different codes. -/
theorem request_ne_of_ne (hlen : c.requested.length ≤ 2 ^ 32) (h : ref ∈ c.requested)
    (h' : ref' ∈ c.requested) (hne : ref ≠ ref') : (c.request ref).1 ≠ (c.request ref').1 := by
  obtain ⟨i, hi, href, hcode⟩ := exists_number h
  obtain ⟨j, hj, href', hcode'⟩ := exists_number h'
  rw [hcode, hcode', Ne, codeAt_eq_iff]
  intro hmod
  have hij : i = j := by omega
  subst hij
  rw [href] at href'
  exact hne (Option.some.inj href')

end Codes

end SealedSets.IdentityCodes
