import SealedSets.Proofs.Membership
import SealedSets.Proofs.WholeNumbers

/-!
# Sums of hash codes

Codes are added one after another and wrapped each time. The sum of two codes as numbers is exact
before it is wrapped, so all that is lost on the way is a multiple of `2 ^ 32`, and the hash code of
a set is the exact sum over its elements, wrapped once.
-/
namespace SealedSets

namespace HashCode

theorem natAbs_toInt_le (k : HashCode) : k.toInt.natAbs ≤ 0x80000000 := by
  have hle := BitVec.le_toInt k
  have hlt := BitVec.toInt_lt (x := k)
  omega

theorem toHashCode_toNumber (k : HashCode) : k.toNumber.toHashCode = k := by
  have hk := natAbs_toInt_le k
  rw [toNumber, Binary64.toHashCode, Binary64.truncate_ofInt (by omega), BitVec.ofInt_toInt]

/-- Codes that are added as numbers are added as words. -/
theorem ofSum_toNumber (k l : HashCode) : ofSum k.toNumber l.toNumber = k + l := by
  have hk := natAbs_toInt_le k
  have hl := natAbs_toInt_le l
  rw [ofSum, toNumber, toNumber, Binary64.ofInt_add (by omega) (by omega), Binary64.toHashCode,
    Binary64.truncate_ofInt (by omega), BitVec.ofInt_add, BitVec.ofInt_toInt, BitVec.ofInt_toInt]

theorem foldl_ofSum (ks : List HashCode) (k : HashCode) :
    ks.foldl (fun k l => ofSum k.toNumber l.toNumber) k = k + ks.sum := by
  induction ks generalizing k with
  | nil => simp
  | cons l ks ih => rw [List.foldl_cons, ofSum_toNumber, ih, List.sum_cons, add_assoc]

theorem sum_eq_ofInt (ks : List HashCode) : ks.sum = BitVec.ofInt 32 (ks.map BitVec.toInt).sum := by
  induction ks with
  | nil => rfl
  | cons k ks ih =>
      rw [List.sum_cons, List.map_cons, List.sum_cons, BitVec.ofInt_add, BitVec.ofInt_toInt, ih]

/-- Wrapping each time comes to the same as wrapping once. -/
theorem toInt_sum (ks : List HashCode) :
    ks.sum.toInt = (ks.map BitVec.toInt).sum.bmod (2 ^ 32) := by
  rw [sum_eq_ofInt, BitVec.toInt_ofInt]

end HashCode

namespace SealedSet

variable {α : Type} {accepts : α → Except Failure Bool} {equal : α → α → Except Failure Bool}
  {hash : α → Binary64} {family : ℕ} {checked checked' : Bool} {ref ref' : Ref}
  {expected expected' : Option Binary64} {candidates candidates' : List (Option α)}
  {c c' d d' : IdentityCodes} {s t : SealedSet (Equivalence α) α}

/-- Whatever is equal, the elements of a set are counted with the codes of their hashes. -/
theorem hashCode_of_ofCandidates
    (h : ofCandidates checked id (.ofPartial accepts equal (fun x => .ok (hash x)) family) ref
      expected candidates c = .ok s d) :
    s.hashCode = (s.elements.map fun x => (hash x).toHashCode).sum := by
  obtain ⟨-, hsound⟩ := sound_of_ofCandidates Equivalence.grows_ofPartial h
  obtain ⟨ks, hks, hsum⟩ := hsound.summed
  have hcodes : List.Forall₂ (· = ·) (s.elements.map fun x => (hash x).toHashCode) ks :=
    List.forall₂_map_left_iff.mpr (hks.imp fun x k hk => by
      have hok : Except.ok (hash x).toHashCode = Except.ok k := Equivalence.gave_ofPartial hk
      exact Except.ok.inj hok)
  rw [List.forall₂_eq_eq_eq] at hcodes
  rw [hsum, hcodes]

/-- The hash code of a set, whatever kind of set it is, is the exact sum of the codes of its
elements, wrapped to 32 bits. Adding them one by one as numbers comes to the same, and so does any
order in which the elements came. -/
theorem hashCode_eq_bmod_sum
    (hs : ofCandidates checked id (.ofPartial accepts equal (fun x => .ok (hash x)) family) ref
      expected candidates c = .ok s d)
    (ht : ofCandidates checked' id (.ofPartial accepts equal (fun x => .ok (hash x)) family) ref'
      expected' candidates' c' = .ok t d') :
    s.hashCode.toInt = (s.elements.map fun x => (hash x).toHashCode.toInt).sum.bmod (2 ^ 32) ∧
      s.hashCode = s.elements.foldl
        (fun k x => HashCode.ofSum k.toNumber (hash x).toHashCode.toNumber) HashCode.empty ∧
      (t.elements.Perm s.elements → t.hashCode = s.hashCode) := by
  have hsum := hashCode_of_ofCandidates hs
  refine ⟨?_, ?_, fun hperm => ?_⟩
  · rw [hsum, HashCode.toInt_sum, List.map_map]
    rfl
  · have hfold := HashCode.foldl_ofSum (s.elements.map fun x => (hash x).toHashCode) HashCode.empty
    rw [List.foldl_map] at hfold
    rw [hfold, hsum, HashCode.empty, BitVec.zero_add]
  · rw [hsum, hashCode_of_ofCandidates ht]
    exact (hperm.map _).sum_eq

set_option maxRecDepth 4000 in
/-- Nothing is equal here, so a value counts as often as it comes. One hash is infinite, one has a
fraction and one more than 32 bits, and the sum `2 ^ 32 + 1` wraps. A hint that is too small and the
reverse order change nothing. -/
theorem hashCode_eq_bmod_sum_wraps :
    let hash : ℕ → Binary64
      | 0 => .infinity true
      | 1 => .ofFraction 0xffffffff 2
      | _ => .ofNat 0x100000003
    let E : Equivalence ℕ :=
      .ofPartial (fun _ => .ok true) (fun _ _ => .ok false) (fun x => .ok (hash x)) 0
    let build expected candidates :=
      ofCandidates true id E (.set 0) expected (List.map some candidates) {}
    ∃ s d t d', build (some (.ofNat 1)) [0, 1, 2, 1] = .ok s d ∧
      build none [1, 2, 1, 0] = .ok t d' ∧
      s.elements = [0, 1, 2, 1] ∧ s.hashCode.toInt = 1 ∧ t.hashCode = s.hashCode := by
  intro hash E build
  let slots : Array (Option ℕ) := #[some 0, some 1, some 1, some 2, none, none, none, none]
  let slots' : Array (Option ℕ) := #[some 1, some 1, some 0, some 2, none, none, none, none]
  have hs : build (some (.ofNat 1)) [0, 1, 2, 1] =
      .ok (.table (.set 0) E ⟨#[0, 1, 2, 1], slots, 1#32⟩) {} := by
    simp only [build, hash, E, slots]
    rfl
  have ht : build none [1, 2, 1, 0] =
      .ok (.table (.set 0) E ⟨#[1, 2, 1, 0], slots', 1#32⟩) {} := by
    simp only [build, hash, E, slots']
    rfl
  obtain ⟨hsum, -, hperm⟩ := hashCode_eq_bmod_sum hs ht
  exact ⟨_, _, _, _, hs, ht, rfl, hsum.trans (by decide), hperm (by decide)⟩

end SealedSet
end SealedSets
